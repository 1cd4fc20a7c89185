import Mathlib.Tactic.Tauto
import TreeBackend.Proofs.Flattening.Control
import TreeBackend.Proofs.Flattening.Simulation
import TreeBackend.Proofs.Machine.Branches

/-!
# What flattened conditionals and loops do

One rule for each construct with jumps inside it.  The rule for a loop asks for the
loop itself after a round, so a run is taken apart from its beginning.
-/

namespace TreeBackend.Machine.Code

open IR Flattening
open Lowering (Labels ifThen ifThenElse whileLoop forLoop)

variable {code : Code} {bound : Nat} {temps : Temps} {machine : Machine}

/-! ### What is not assigned stays -/

theorem Yields.spared {expression : Expr} {meets : Int → Temps → Machine → Prop}
    (yields : code.Yields bound expression temps machine meets) :
    code.Yields bound expression temps machine fun value temps' machine' =>
      meets value temps' machine' ∧ ∀ temp, temp.number < bound → temp ∉ expression.assigned →
        temps'.get? temp = temps.get? temp := by
  intro below supply rest flat flattened le start agree
  obtain ⟨temps', middle, value, machine', executes, evaluates, spares, holds⟩ :=
    yields below flattened le agree
  refine ⟨temps', middle, value, machine', executes, evaluates, spares, holds, ?_⟩
  intro temp isBelow spared
  exact (spares temp (.inl ⟨isBelow, spared⟩)).trans (agree temp isBelow)

/-- The temporaries that a statement does not assign keep their values. -/
theorem Performs.spared {statement : Stmt} {meets : Temps → Machine → Prop}
    (performs : code.Performs bound statement temps machine meets) :
    code.Performs bound statement temps machine fun temps' machine' =>
      meets temps' machine' ∧ ∀ temp, temp.number < bound → temp ∉ statement.assigned →
        temps'.get? temp = temps.get? temp := by
  intro below supply rest flat flattened le start agree
  obtain ⟨temps', machine', executes, spares, holds⟩ := performs below flattened le agree
  refine ⟨temps', machine', executes, spares, holds, ?_⟩
  intro temp isBelow spared
  exact (spares temp (.inl ⟨isBelow, spared⟩)).trans (agree temp isBelow)

section Rules

variable {labels : Labels} {condition : Expr} {branch other body : Stmt}
  {meets : Temps → Machine → Prop}

theorem performs_ifThen
    (performs : code.Yields bound condition temps machine fun value temps machine =>
      if value = 0 then meets temps machine else code.Performs bound branch temps machine meets) :
    code.Performs bound (ifThen labels condition branch) temps machine meets := by
  intro below supply rest flat flattened le start agree
  obtain ⟨test, middle, inner, tests, inners, rfl⟩ := ofStmt_ifThen_eq_ok.mp flattened
  have testLe := ofExpr_issued_le condition tests
  have innerLe := ofStmt_issued_le branch inners
  have same : (ifThen labels condition branch).assigned = condition.assigned ++ branch.assigned := by
    simp [ifThen, Stmt.assigned, Stmt.assignedOfList]
  rw [same]
  obtain ⟨temps₁, machine₁, value, machine₂, executes, evaluates, spares, holds⟩ :=
    performs (fun temp member => below temp (by simp [ifThen, Stmt.temps, Stmt.tempsOfList, member]))
      tests le agree
  by_cases isZero : value = 0
  · rw [if_pos isZero] at holds
    refine ⟨temps₁, machine₂, executes.ifThen_skip evaluates isZero, fun temp untouched => ?_, holds⟩
    exact spares temp (untouched.weaken (by simp +contextual) (Nat.le_refl _) innerLe)
  · rw [if_neg isZero] at holds
    obtain ⟨temps', machine', runs, branchSpares, holds⟩ := holds
      (fun temp member => below temp (by simp [ifThen, Stmt.temps, Stmt.tempsOfList, member]))
      inners (le.trans testLe) (.refl bound temps₁)
    exact ⟨temps', machine', executes.ifThen_run evaluates isZero runs,
      spares.trans branchSpares testLe innerLe, holds⟩

theorem performs_ifThenElse
    (performs : code.Yields bound condition temps machine fun value temps machine =>
      if value = 0 then code.Performs bound other temps machine meets
      else code.Performs bound branch temps machine meets) :
    code.Performs bound (ifThenElse labels condition branch other) temps machine meets := by
  intro below supply rest flat flattened le start agree
  obtain ⟨test, middle, inner, last, outer, tests, inners, outers, rfl⟩ :=
    ofStmt_ifThenElse_eq_ok.mp flattened
  have testLe := ofExpr_issued_le condition tests
  have innerLe := ofStmt_issued_le branch inners
  have outerLe := ofStmt_issued_le other outers
  have same : (ifThenElse labels condition branch other).assigned =
      condition.assigned ++ (branch.assigned ++ other.assigned) := by
    simp [ifThenElse, Stmt.assigned, Stmt.assignedOfList]
  rw [same]
  obtain ⟨temps₁, machine₁, value, machine₂, executes, evaluates, spares, holds⟩ :=
    performs (fun temp member => below temp (by
      simp [ifThenElse, Stmt.temps, Stmt.tempsOfList, member])) tests le agree
  by_cases isZero : value = 0
  · rw [if_pos isZero] at holds
    obtain ⟨temps', machine', runs, otherSpares, holds⟩ := holds
      (fun temp member => below temp (by
        simp [ifThenElse, Stmt.temps, Stmt.tempsOfList, member]))
      outers ((le.trans testLe).trans innerLe) (.refl bound temps₁)
    refine ⟨temps', machine', executes.ifThenElse_else evaluates isZero runs,
      spares.trans (fun temp untouched => ?_) testLe (innerLe.trans outerLe), holds⟩
    exact otherSpares temp (untouched.weaken (by simp +contextual) innerLe (Nat.le_refl _))
  · rw [if_neg isZero] at holds
    obtain ⟨temps', machine', runs, branchSpares, holds⟩ := holds
      (fun temp member => below temp (by
        simp [ifThenElse, Stmt.temps, Stmt.tempsOfList, member]))
      inners (le.trans testLe) (.refl bound temps₁)
    refine ⟨temps', machine', executes.ifThenElse_then evaluates isZero runs,
      spares.trans (fun temp untouched => ?_) testLe (innerLe.trans outerLe), holds⟩
    exact branchSpares temp (untouched.weaken (by simp +contextual) (Nat.le_refl _) outerLe)

/-- A loop ends, or does one round and goes on. -/
theorem performs_whileLoop
    (performs : code.Yields bound condition temps machine fun value temps machine =>
      if value = 0 then meets temps machine
      else code.Performs bound body temps machine fun temps machine =>
        code.Performs bound (whileLoop labels condition body) temps machine meets) :
    code.Performs bound (whileLoop labels condition body) temps machine meets := by
  intro below supply rest flat flattened le start agree
  have again := flattened
  obtain ⟨test, middle, inner, tests, inners, rfl⟩ := ofStmt_whileLoop_eq_ok.mp flattened
  have testLe := ofExpr_issued_le condition tests
  have innerLe := ofStmt_issued_le body inners
  have same : (whileLoop labels condition body).assigned = condition.assigned ++ body.assigned := by
    simp [whileLoop, Stmt.assigned, Stmt.assignedOfList]
  obtain ⟨temps₁, machine₁, value, machine₂, executes, evaluates, spares, holds⟩ :=
    performs (fun temp member => below temp (by
      simp [whileLoop, Stmt.temps, Stmt.tempsOfList, member])) tests le agree
  by_cases isZero : value = 0
  · rw [if_pos isZero] at holds
    refine ⟨temps₁, machine₂, executes.whileLoop_done evaluates isZero, ?_, holds⟩
    rw [same]
    intro temp untouched
    exact spares temp (untouched.weaken (by simp +contextual) (Nat.le_refl _) innerLe)
  · rw [if_neg isZero] at holds
    obtain ⟨temps₂, machine₃, runs, bodySpares, loops⟩ := holds
      (fun temp member => below temp (by
        simp [whileLoop, Stmt.temps, Stmt.tempsOfList, member]))
      inners (le.trans testLe) (.refl bound temps₁)
    obtain ⟨temps', machine', loop, loopSpares, holds⟩ :=
      loops below again le (.refl bound temps₂)
    refine ⟨temps', machine', executes.whileLoop_round evaluates isZero runs loop, ?_, holds⟩
    rw [same] at loopSpares ⊢
    intro temp untouched
    exact (loopSpares temp untouched).trans
      (spares.trans bodySpares testLe innerLe temp untouched)

/-- A counting loop does what it does as a loop with a condition. -/
theorem performs_forLoop {bound' stride : Temp} {counter low high step : Expr}
    (performs : code.Performs bound
      (countingLoop labels bound' stride counter low high step body) temps machine meets) :
    code.Performs bound (forLoop labels bound' stride counter low high step body)
      temps machine meets := by
  intro below supply rest flat flattened le start agree
  have within : ∀ temp ∈ (countingLoop labels bound' stride counter low high step body).temps,
      temp.number < bound := by
    intro temp member
    apply below
    simp only [countingLoop, whileLoop, forLoop, Stmt.temps, Stmt.tempsOfList,
      List.mem_append] at member ⊢
    tauto
  obtain ⟨temps', machine', executes, spares, holds⟩ :=
    performs within (ofStmt_forLoop_eq_ok.mp flattened) le agree
  refine ⟨temps', machine', executes, fun temp untouched => ?_, holds⟩
  refine spares temp (untouched.weaken (fun temp member => ?_) (Nat.le_refl _) (Nat.le_refl _))
  simp only [countingLoop, whileLoop, forLoop, Stmt.assigned, Stmt.assignedOfList,
    List.mem_append] at member ⊢
  tauto

end Rules

end TreeBackend.Machine.Code
