import TreeBackend.IR.Tree
import TreeBackend.Text.Quoted

/-!
# Intermediate code on one line

The form in which error messages show code: the name of each node with its parts
in brackets, named where there are several.
-/

namespace TreeBackend

/-- The one-line form of a label. -/
def Label.inline : Label → String
  | .named name => "Named(" ++ Text.quote name ++ ")"
  | .anonymous number => "Anonymous(" ++ toString number ++ ")"

namespace IR

mutual

/-- The one-line form of an expression. -/
def Expr.inline : Expr → String
  | .const value => "Const(" ++ toString value ++ ")"
  | .name label => "Name(" ++ label.inline ++ ")"
  | .temp temp => "Temp(Temp(" ++ toString temp.number ++ "))"
  | .mem address => "Mem(" ++ address.inline ++ ")"
  | .binop operator left right =>
      "Binop \x7b op: " ++ operator.name ++ ", lhs: " ++ left.inline ++ ", rhs: " ++
        right.inline ++ " \x7d"
  | .call label arguments =>
      "Call \x7b label: " ++ label.inline ++ ", args: [" ++ Expr.inlines arguments ++ "] \x7d"
  | .eseq effect value =>
      "Eseq \x7b stmt: " ++ effect.inline ++ ", expr: " ++ value.inline ++ " \x7d"

/-- The one-line forms of expressions with commas between them. -/
def Expr.inlines : List Expr → String
  | [] => ""
  | [expression] => expression.inline
  | expression :: rest => expression.inline ++ ", " ++ Expr.inlines rest

/-- The one-line form of a statement. -/
def Stmt.inline : Stmt → String
  | .seq items => "Seq([" ++ Stmt.inlines items ++ "])"
  | .label label => "Label(" ++ label.inline ++ ")"
  | .jump target => "Jump(" ++ target.inline ++ ")"
  | .cjump condition whenTrue whenFalse =>
      "CJump \x7b condition: " ++ condition.inline ++ ", then_label: " ++ whenTrue.inline ++
        ", else_label: " ++ whenFalse.inline ++ " \x7d"
  | .exp value => "Exp(" ++ value.inline ++ ")"
  | .move target source =>
      "Move \x7b dst: " ++ target.inline ++ ", src: " ++ source.inline ++ " \x7d"

/-- The one-line forms of statements with commas between them. -/
def Stmt.inlines : List Stmt → String
  | [] => ""
  | [statement] => statement.inline
  | statement :: rest => statement.inline ++ ", " ++ Stmt.inlines rest

end

end IR

end TreeBackend
