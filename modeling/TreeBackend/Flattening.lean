import TreeBackend.CompileError
import TreeBackend.IR.Chunk
import TreeBackend.IR.Inline

/-!
# Flattening intermediate code

Statements are brought into the order in which they run, and no `eseq` is left:
its statement goes in front of the statement that uses its value. Operands are
computed from left to right. If the statements of an operand would then run after
the computation of an earlier operand but before its use, the earlier value is
kept in a fresh temporary, unless no statement can change it.
-/

namespace TreeBackend

open IR (Expr Stmt Temp TempSupply Chunk)

/-- A part of flattening, which draws temporaries and may fail. -/
abbrev Flattening (α : Type) := StateT TempSupply (Except CompileError) α

/-- A flattened expression: the statements to run first, and a plain expression. -/
structure Flattened where
  before : List Stmt := []
  value : Expr

/-- Flattened operands: the statements to run first, and plain expressions. -/
structure FlattenedOperands where
  before : List Stmt := []
  values : List Expr := []

namespace Flattening

def drawTemp : Flattening Temp := fun supply => .ok (supply.next, supply.rest)

/-- Computes a value before statements that may change it. -/
def keep (value : Expr) : Flattening Flattened :=
  if value.isFixed then return ⟨[], value⟩
  else do
    let temp ← drawTemp
    return ⟨[.move (.temp temp) value], .temp temp⟩

/-- Computes values from left to right before statements that may change them. -/
def keepAll : List Expr → Flattening FlattenedOperands
  | [] => return {}
  | value :: rest => do
      let kept ← keep value
      let others ← keepAll rest
      return ⟨kept.before ++ others.before, kept.value :: others.values⟩

/-- Puts the second of two operands behind the first one. -/
def pair (first second : Flattened) : Flattening (List Stmt × Expr × Expr) :=
  if second.before.isEmpty then return (first.before, first.value, second.value)
  else do
    let kept ← keep first.value
    return (first.before ++ kept.before ++ second.before, kept.value, second.value)

/-- Puts an operand behind the ones to its left. -/
def append (operands : FlattenedOperands) (next : Flattened) : Flattening FlattenedOperands :=
  if next.before.isEmpty then return ⟨operands.before, operands.values ++ [next.value]⟩
  else do
    let kept ← keepAll operands.values
    return ⟨operands.before ++ kept.before ++ next.before, kept.values ++ [next.value]⟩

/-- Whether an expression can be left out as a statement: it has a fixed value, or
reads a cell whose address is in a temporary. -/
def isDiscardable : Expr → Bool
  | .mem (.temp _) => true
  | value => value.isFixed

mutual

def ofStmt : Stmt → Flattening (List Stmt)
  | .seq items => ofStmts items
  | .label label => return [.label label]
  | .jump target => return [.jump target]
  | .cjump condition whenTrue whenFalse => do
      let test ← ofExpr condition
      return test.before ++ [.cjump test.value whenTrue whenFalse]
  | .exp value => do
      let flat ← ofExpr value
      return if isDiscardable flat.value then flat.before else flat.before ++ [.exp flat.value]
  | .move target source => ofMove (ofExpr source) target

def ofStmts : List Stmt → Flattening (List Stmt)
  | [] => return []
  | statement :: rest => do
      let first ← ofStmt statement
      return first ++ (← ofStmts rest)

/-- Flattens a store to a target. The address of a cell is computed before what
is stored there. -/
def ofMove (source : Flattening Flattened) : Expr → Flattening (List Stmt)
  | .temp temp => do
      let flat ← source
      return flat.before ++ [.move (.temp temp) flat.value]
  | .mem address => do
      let flat ← ofExpr address
      let (before, place, value) ← pair flat (← source)
      return before ++ [.move (.mem place) value]
  | .eseq effect value => do
      let first ← ofStmt effect
      return first ++ (← ofMove source value)
  | target => throw (.unflattenable ("move into " ++ target.inline))

def ofExpr : Expr → Flattening Flattened
  | .const value => return ⟨[], .const value⟩
  | .name label => return ⟨[], .name label⟩
  | .temp temp => return ⟨[], .temp temp⟩
  | .mem address => do
      let flat ← ofExpr address
      return ⟨flat.before, .mem flat.value⟩
  | .binop operator left right => do
      let flat ← ofExpr left
      let (before, first, second) ← pair flat (← ofExpr right)
      return ⟨before, .binop operator first second⟩
  | .call label arguments => do
      let flat ← ofOperands {} arguments
      return ⟨flat.before, .call label flat.values⟩
  | .eseq effect value => do
      let first ← ofStmt effect
      let flat ← ofExpr value
      return ⟨first ++ flat.before, flat.value⟩

def ofOperands (done : FlattenedOperands) : List Expr → Flattening FlattenedOperands
  | [] => return done
  | operand :: rest => do
      let next ← append done (← ofExpr operand)
      ofOperands next rest

end

def ofChunk : Chunk → Flattening Chunk
  | .code frame body => do
      return .code frame (.seq (← ofStmt body))
  | .data slot text => return .data slot text
  | .global slot => return .global slot

def ofChunks : List Chunk → Flattening (List Chunk)
  | [] => return []
  | chunk :: rest => do
      let first ← ofChunk chunk
      return first :: (← ofChunks rest)

end Flattening

end TreeBackend
