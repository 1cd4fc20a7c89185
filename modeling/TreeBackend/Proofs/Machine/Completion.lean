import Mathlib.Order.Filter.AtTopBot.Basic
import TreeBackend.Proofs.Machine.Invocation
import TreeBackend.Proofs.Machine.Leads

/-!
# Runs that come to an end

A body that leads from its beginning to the place behind its last statement is run
to its end, if there is enough fuel.
-/

namespace TreeBackend.Machine

open Filter IR Outcome

/-- What holds for all large numbers but one less holds for all large numbers. -/
theorem eventually_of_succ {holds : Nat → Prop} (later : ∀ᶠ number in atTop, holds (number + 1)) :
    ∀ᶠ number in atTop, holds number := by
  rw [← map_add_atTop_eq_nat 1]
  exact later

namespace Code

variable {statements : Array Stmt} {jumps : Table Label Nat}

/-- With enough fuel, a run goes on where a statement leads. -/
theorem Step.runFrom_eq {point next : Point} (step : (ofBody statements jumps).Step point next) :
    ∀ᶠ fuel in atTop,
      Machine.runFrom (fuel + 1) statements jumps point.position point.temps point.machine =
        Machine.runFrom fuel statements jumps next.position next.temps next.machine := by
  cases step with
  | next found executes =>
      have found : statements[_]? = some _ := found
      filter_upwards [executes] with fuel executes
      simp only [Machine.runFrom, found]
      exact Outcome.bind_of_ok executes
  | jump found executes known =>
      have found : statements[_]? = some _ := found
      have known : jumps.get? _ = some _ := known
      filter_upwards [executes] with fuel executes
      simp only [Machine.runFrom, found]
      refine (Outcome.bind_of_ok executes).trans ?_
      simp only [known]

theorem Step.runFrom {point next final : Point}
    (step : (ofBody statements jumps).Step point next)
    (completes : ∀ᶠ fuel in atTop,
      Machine.runFrom fuel statements jumps next.position next.temps next.machine =
        .ok () final.machine) :
    ∀ᶠ fuel in atTop,
      Machine.runFrom fuel statements jumps point.position point.temps point.machine =
        .ok () final.machine := by
  apply eventually_of_succ
  filter_upwards [step.runFrom_eq, completes] with fuel same completes
  exact same.trans completes

theorem Reaches.runFrom {point final : Point}
    (reaches : (ofBody statements jumps).Reaches point final)
    (atEnd : final.position = statements.size) :
    ∀ᶠ fuel in atTop,
      Machine.runFrom fuel statements jumps point.position point.temps point.machine =
        .ok () final.machine := by
  induction reaches using Relation.ReflTransGen.head_induction_on with
  | refl =>
      apply eventually_of_succ
      have absent : statements[final.position]? = none := by simp [atEnd]
      refine .of_forall fun fuel => ?_
      simp only [Machine.runFrom, absent]
      exact pure_eq_ok.mpr ⟨rfl, rfl⟩
  | head step _ completes => exact step.runFrom completes

end Code

/-! ### Calls that come to an end -/

/-- A routine to which certain words are passed returns with a result, if there is enough
fuel. -/
def Returns (routine : Routine) (passed : List Int) (machine : Machine) (result : Int)
    (final : Machine) : Prop :=
  ∃ stored, storeInts machine.stackPointer passed machine = .ok () stored ∧
    (∀ᶠ fuel in atTop,
      invoke (fun statements jumps => runFrom fuel statements jumps 0 {}) routine stored =
        .ok () final) ∧
    final.memory.read? final.stackPointer = some (.int result)

section Returns

variable {routine : Routine} {machine final : Machine} {result : Int} {label : Label}

theorem Returns.callLabel {passed : List Int}
    (returns : Returns routine passed machine result final)
    (noBuiltin : NoBuiltin label) (found : machine.routine? label = some routine)
    (statements : Array Stmt) (jumps : Table Label Nat) :
    ∀ᶠ fuel in atTop,
      (Code.ofBody statements jumps).calls fuel label passed machine = .ok result final := by
  obtain ⟨stored, stores, invokes, fetched⟩ := returns
  exact invokes.mono fun fuel invoked => callLabel_eq noBuiltin found stores invoked fetched

/-- The outermost call is passed nothing but an empty static link. -/
theorem Returns.interpret (returns : Returns routine [0] machine result final)
    (found : machine.routine? label = some routine) :
    ∀ᶠ fuel in atTop, interpret fuel label machine = .ok result final := by
  obtain ⟨stored, stores, invokes, fetched⟩ := returns
  exact invokes.mono fun fuel invoked => interpret_eq found stores invoked fetched

end Returns

end TreeBackend.Machine
