import TreeBackend.Lowering.Program
import TreeBackend.Proofs.Flattening.Success

/-!
# Which lowered code can be flattened

The code of each construct can be flattened if the code of its parts can; only
an assignment needs its target to be a place besides.
-/

namespace TreeBackend

open IR (Expr Stmt Temp)

/-- Whether what an expression has become can be flattened. -/
def Lowered.isFlattenable : Lowered → Bool
  | .expr expression => expression.isFlattenable
  | .stmt statement => statement.isFlattenable

namespace Lowering

attribute [local simp] Expr.isFlattenable Expr.areFlattenable Expr.isTarget Stmt.isFlattenable
  Stmt.areFlattenable

@[simp] theorem isFlattenable_toStmt (lowered : Lowered) :
    lowered.toStmt.isFlattenable = lowered.isFlattenable := by
  cases lowered <;> simp [Lowered.toStmt, Lowered.isFlattenable]

@[simp] theorem isFlattenable_enclosingFrame (hops : Nat) :
    (enclosingFrame hops).isFlattenable = true := by
  induction hops with
  | zero => rfl
  | succ hops ih => exact ih

@[simp] theorem isFlattenable_staticLink (level calleeLevel : Nat) :
    (staticLink level calleeLevel).isFlattenable = true := by
  unfold staticLink
  split
  · rfl
  · split
    · rfl
    · exact isFlattenable_enclosingFrame _

/-- A variable lives in a cell. -/
theorem cell?_eq_some {level : Nat} {storage : Storage} {value : Expr}
    (found : cell? level storage = some value) :
    value.isFlattenable = true ∧ value.isTarget = true := by
  have stack : ∀ slot, stackCell? level slot = some value →
      value.isFlattenable = true ∧ value.isTarget = true := by
    intro slot found
    unfold stackCell? at found
    split at found
    · obtain rfl := Option.some_inj.mp found
      simp
    · cases found
  cases storage with
  | global slot =>
      obtain rfl := Option.some_inj.mp found
      exact ⟨rfl, rfl⟩
  | localVar slot => exact stack slot found
  | parameter slot => exact stack slot found

@[simp] theorem isFlattenable_baseAddress (value : Expr) :
    (baseAddress value).isFlattenable = value.isFlattenable := by
  cases value <;> rfl

theorem isFlattenable_elementCell (base index : Expr) (elementSize : Int) :
    (elementCell base index elementSize).isFlattenable =
      (base.isFlattenable && index.isFlattenable) := by
  simp [elementCell]

@[simp] theorem isFlattenable_unary (operator : Source.UnaryOperator) (operand : Expr) :
    (unary operator operand).isFlattenable = operand.isFlattenable := by
  cases operator <;> simp [unary]

theorem isFlattenable_assignment (target value : Expr) :
    (assignment target value).isFlattenable =
      (value.isFlattenable && target.isFlattenable && target.isTarget) := by
  rw [Bool.eq_iff_iff]
  simp [assignment]
  grind

theorem isFlattenable_assignmentOnce (address value : Expr) (temp : Temp) :
    (assignmentOnce address value temp).isFlattenable =
      (address.isFlattenable && value.isFlattenable) := by
  simp [assignmentOnce]

theorem isFlattenable_call (level : Nat) (callee : Callee) (arguments : List Expr) :
    (call level callee arguments).isFlattenable = Expr.areFlattenable arguments := by
  have saves : (savePointer callee.savedPointerOffset).isFlattenable = true := by
    unfold savePointer
    split <;> rfl
  simp [call, saves]

theorem isFlattenable_ifThen (labels : Labels) (condition : Expr) (thenBranch : Stmt) :
    (ifThen labels condition thenBranch).isFlattenable =
      (condition.isFlattenable && thenBranch.isFlattenable) := by
  simp [ifThen]

theorem isFlattenable_ifThenElse (labels : Labels) (condition : Expr)
    (thenBranch elseBranch : Stmt) :
    (ifThenElse labels condition thenBranch elseBranch).isFlattenable =
      (condition.isFlattenable && thenBranch.isFlattenable && elseBranch.isFlattenable) := by
  simp [ifThenElse, Bool.and_assoc]

theorem isFlattenable_whileLoop (labels : Labels) (condition : Expr) (body : Stmt) :
    (whileLoop labels condition body).isFlattenable =
      (condition.isFlattenable && body.isFlattenable) := by
  simp [whileLoop]

theorem isFlattenable_forLoop (labels : Labels) (bound stride : Temp)
    (counter low high step : Expr) (body : Stmt) :
    (forLoop labels bound stride counter low high step body).isFlattenable =
      (counter.isFlattenable && counter.isTarget && low.isFlattenable && high.isFlattenable &&
        step.isFlattenable && body.isFlattenable) := by
  rw [Bool.eq_iff_iff]
  simp [forLoop]
  grind

theorem isFlattenable_functionBody (result : Expr) :
    (functionBody result).isFlattenable = result.isFlattenable := by
  simp [functionBody, Expr.framePointer]

theorem areFlattenable_eq_all (statements : List Stmt) :
    Stmt.areFlattenable statements = statements.all Stmt.isFlattenable := by
  induction statements with
  | nil => rfl
  | cons statement rest ih => rw [Stmt.areFlattenable, ih, List.all_cons]

end Lowering

end TreeBackend
