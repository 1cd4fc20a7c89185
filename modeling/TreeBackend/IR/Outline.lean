import TreeBackend.IR.Tree
import TreeBackend.Text.Blank

/-!
# Outlines of intermediate code

One line for each node, with the children of a node below it and one step further
to the right. Nothing closes a node; the indentation alone shows where it ends.
-/

namespace TreeBackend.IR

structure OutlineLine where
  depth : Nat
  text : String
  deriving DecidableEq, Repr

mutual

def Expr.outline (depth : Nat) : Expr → List OutlineLine
  | .const value => [⟨depth, "CONST " ++ toString value⟩]
  | .name label => [⟨depth, "NAME " ++ label.text⟩]
  | .temp temp => [⟨depth, "TEMP t" ++ toString temp.number⟩]
  | .mem address => ⟨depth, "MEM"⟩ :: address.outline (depth + 1)
  | .binop operator left right =>
      ⟨depth, "BINOP " ++ operator.mnemonic⟩ ::
        (left.outline (depth + 1) ++ right.outline (depth + 1))
  | .call label arguments => ⟨depth, "CALL " ++ label.text⟩ :: Expr.outlines (depth + 1) arguments
  | .eseq effect value =>
      ⟨depth, "ESEQ"⟩ :: (effect.outline (depth + 1) ++ value.outline (depth + 1))

def Expr.outlines (depth : Nat) : List Expr → List OutlineLine
  | [] => []
  | expression :: rest => expression.outline depth ++ Expr.outlines depth rest

def Stmt.outline (depth : Nat) : Stmt → List OutlineLine
  | .seq items => ⟨depth, "SEQ"⟩ :: Stmt.outlines (depth + 1) items
  | .label label => [⟨depth, "LABEL " ++ label.text⟩]
  | .jump target => [⟨depth, "JUMP " ++ target.text⟩]
  | .cjump condition whenTrue whenFalse =>
      ⟨depth, "CJUMP " ++ whenTrue.text ++ " " ++ whenFalse.text⟩ :: condition.outline (depth + 1)
  | .exp value => ⟨depth, "EXP"⟩ :: value.outline (depth + 1)
  | .move target source =>
      ⟨depth, "MOVE"⟩ :: (target.outline (depth + 1) ++ source.outline (depth + 1))

def Stmt.outlines (depth : Nat) : List Stmt → List OutlineLine
  | [] => []
  | statement :: rest => statement.outline depth ++ Stmt.outlines depth rest

end

/-- The text of a line, indented by two spaces for each step. -/
def OutlineLine.render (line : OutlineLine) : String :=
  String.ofList (List.replicate (2 * line.depth) ' ') ++ line.text

def renderOutline (outline : List OutlineLine) : String :=
  Text.trimEnd (String.intercalate "\n" (outline.map OutlineLine.render))

def Expr.text (expression : Expr) : String := renderOutline (expression.outline 0)

def Stmt.text (statement : Stmt) : String := renderOutline (statement.outline 0)

end TreeBackend.IR
