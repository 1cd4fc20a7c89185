import TreeBackend.Proofs.Machine.Reached

/-!
# Where output fails

A run ends in a failure of its output only where a builtin prints.  The state in which the
builtin is called is one of those that the run reaches.
-/

namespace TreeBackend.Machine

open Outcome
open IR (Expr Stmt)

def FailsAtPrint (start : Machine) (entry : Label) (reason : String) (final : Machine) : Prop :=
  ∃ fuel stack machine builtin arguments,
    Reached start entry fuel stack machine (.call (.named builtin.name) arguments) ∧
      callBuiltin builtin arguments machine = .error (.fault (.output reason)) final

/-- If output fails in a part of a run, then at a call of a builtin. -/
def FailsOnlyAtPrints (start : Machine) (entry : Label) {α : Type} (part : Exec α)
    (machine : Machine) : Prop :=
  ∀ reason final, part machine = .error (.fault (.output reason)) final →
    FailsAtPrint start entry reason final

/-- A computation has no output that could fail. -/
def Quiet {α : Type} (part : Exec α) : Prop :=
  ∀ machine reason final, part machine ≠ .error (.fault (.output reason)) final

namespace Quiet

variable {α β : Type} {part : Exec α} {next : α → Exec β}

theorem pure (value : α) : Quiet (pure value : Exec α) := fun _ _ _ => pure_ne_error

theorem raise {fault : Fault} (silent : ∀ reason, fault ≠ .output reason) :
    Quiet (raise fault : Exec α) := by
  rintro machine reason final ⟨⟩
  exact silent reason rfl

theorem bind (first : Quiet part) (second : ∀ value, Quiet (next value)) :
    Quiet (part >>= next) := by
  intro machine reason final failed
  rcases bind_eq_error.mp failed with failed | ⟨value, middle, -, failed⟩
  · exact first _ _ _ failed
  · exact second value _ _ _ failed

theorem get : Quiet (get : Exec Machine) := fun _ _ _ => nofun

theorem modify (change : Machine → Machine) : Quiet (modify change : Exec PUnit) :=
  fun _ _ _ => nofun

theorem loadInt (address : Int) : Quiet (loadInt address) := by
  intro machine reason final failed
  unfold Machine.loadInt Memory.loadInt at failed
  cases found : machine.memory.read? address with
  | none => simp [found] at failed
  | some value => cases value <;> simp [found] at failed

theorem storeInt (address value : Int) : Quiet (storeInt address value) := by
  intro machine reason final failed
  unfold Machine.storeInt at failed
  split at failed <;> cases failed

theorem storeInts (address : Int) (values : List Int) : Quiet (storeInts address values) := by
  induction values generalizing address with
  | nil => exact pure ()
  | cons value rest ih => exact (storeInt address value).bind fun _ => ih _

theorem labelAddress (label : Label) : Quiet (labelAddress label) := by
  intro machine reason final failed
  unfold Machine.labelAddress at failed
  split at failed <;> cases failed

theorem readTemp (temps : Temps) (temp : IR.Temp) : Quiet (readTemp temps temp) := by
  unfold Machine.readTemp
  split
  · exact pure _
  · exact raise (by simp)

theorem compute (operator : Operator) (left right : Int) : Quiet (compute operator left right) := by
  unfold Machine.compute
  split
  · exact pure _
  · exact raise (by simp)

theorem enter (routine : Routine) : Quiet (enter routine) := by
  intro machine reason final failed
  unfold Machine.enter at failed
  split at failed
  · cases failed
  · dsimp only at failed
    split at failed
    · cases failed
    · split at failed <;> cases failed

theorem leave (routine : Routine) : Quiet (leave routine) :=
  (modify _).bind fun _ => get.bind fun _ => (loadInt _).bind fun _ => modify _

end Quiet

namespace FailsOnlyAtPrints

variable {start machine : Machine} {entry : Label} {α β : Type} {part : Exec α}
  {next : α → Exec β}

theorem of_quiet (quiet : Quiet part) : FailsOnlyAtPrints start entry part machine :=
  fun reason final failed => (quiet machine reason final failed).elim

theorem bind (first : FailsOnlyAtPrints start entry part machine)
    (second : ∀ {value middle}, part machine = .ok value middle →
      FailsOnlyAtPrints start entry (next value) middle) :
    FailsOnlyAtPrints start entry (part >>= next) machine := by
  intro reason final failed
  rcases bind_eq_error.mp failed with failed | ⟨value, middle, began, failed⟩
  · exact first _ _ failed
  · exact second began _ _ failed

theorem look {next : Machine → Exec β}
    (rest : FailsOnlyAtPrints start entry (next machine) machine) :
    FailsOnlyAtPrints start entry (get >>= next) machine := rest

end FailsOnlyAtPrints

section Runs

open FailsOnlyAtPrints (of_quiet look)

variable {start machine : Machine} {entry : Label} {fuel : Nat} {stack : List Activation}
  {temps : Temps}

/-- In calls with a number of statements to run, output fails only where a builtin prints. -/
def CallsFailAtPrints (start : Machine) (entry : Label) (fuel : Nat) : Prop :=
  ∀ ⦃stack machine label values⦄, Reached start entry fuel stack machine (.call label values) →
    FailsOnlyAtPrints start entry (callWith fuel label values) machine

mutual

theorem eval_failsOnlyAtPrints (calls : CallsFailAtPrints start entry fuel) :
    (expression : Expr) → {machine : Machine} →
    Reached start entry fuel stack machine (.evaluate temps expression) →
    FailsOnlyAtPrints start entry (eval (callWith fuel) temps expression) machine
  | .const value, _, _ => of_quiet (.pure value)
  | .name label, _, _ => of_quiet (.labelAddress label)
  | .temp temp, _, _ => of_quiet (.readTemp temps temp)
  | .mem address, _, reached =>
      (eval_failsOnlyAtPrints calls address reached.address).bind fun _ => of_quiet (.loadInt _)
  | .binop operator left right, _, reached =>
      (eval_failsOnlyAtPrints calls left reached.left).bind fun lefts =>
        (eval_failsOnlyAtPrints calls right (reached.right lefts)).bind fun _ =>
          of_quiet (.compute operator _ _)
  | .call _ arguments, _, reached =>
      (evalAll_failsOnlyAtPrints calls arguments reached.arguments).bind fun evaluated =>
        calls (reached.call evaluated)
  | .eseq .., _, _ => of_quiet (.raise (by simp))

theorem evalAll_failsOnlyAtPrints (calls : CallsFailAtPrints start entry fuel) :
    (expressions : List Expr) → {machine : Machine} →
    Reached start entry fuel stack machine (.evaluateAll temps expressions) →
    FailsOnlyAtPrints start entry (evalAll (callWith fuel) temps expressions) machine
  | [], _, _ => of_quiet (.pure [])
  | expression :: rest, _, reached =>
      (eval_failsOnlyAtPrints calls expression reached.first).bind fun evaluated =>
        (evalAll_failsOnlyAtPrints calls rest (reached.others evaluated)).bind fun _ =>
          of_quiet (.pure _)

end

theorem execute_failsOnlyAtPrints (calls : CallsFailAtPrints start entry fuel) {statement : Stmt}
    (reached : Reached start entry fuel stack machine (.execute temps statement)) :
    FailsOnlyAtPrints start entry (execute (callWith fuel) temps statement) machine := by
  match statement with
  | .label _ | .jump _ => exact of_quiet (.pure _)
  | .cjump condition _ _ =>
      exact (eval_failsOnlyAtPrints calls condition reached.condition).bind fun _ =>
        of_quiet (.pure _)
  | .exp value =>
      exact (eval_failsOnlyAtPrints calls value reached.expression).bind fun _ =>
        of_quiet (.pure _)
  | .move (.temp _) source =>
      exact (eval_failsOnlyAtPrints calls source reached.assigned).bind fun _ =>
        of_quiet (.pure _)
  | .move (.mem address) source =>
      exact (eval_failsOnlyAtPrints calls address reached.place).bind fun places =>
        (eval_failsOnlyAtPrints calls source (reached.stored places)).bind fun _ =>
          of_quiet ((Quiet.storeInt _ _).bind fun _ => .pure _)
  | .move (.const _) _ | .move (.name _) _ | .move (.binop ..) _ | .move (.call ..) _
  | .move (.eseq ..) _ | .seq _ => exact of_quiet (.raise (by simp))

/-- In the bodies of all functions that are entered, output fails only where a builtin prints. -/
def BodiesFailAtPrints (start : Machine) (entry : Label) (fuel : Nat) : Prop :=
  ∀ ⦃activation stack machine jumps⦄,
    Reached start entry fuel (activation :: stack) machine (.run jumps 0 {}) →
      FailsOnlyAtPrints start entry (runFrom fuel activation.routine.statements jumps 0 {}) machine

theorem invoke_failsOnlyAtPrints (bodies : BodiesFailAtPrints start entry fuel) {routine : Routine}
    (reached : Reached start entry fuel stack machine (.invoke routine)) :
    FailsOnlyAtPrints start entry (invokeWith fuel routine) machine :=
  (of_quiet (.enter routine)).bind fun enters =>
    (bodies (reached.enter enters)).bind fun _ => of_quiet (.leave routine)

theorem callsFailAtPrints_of_bodies (bodies : BodiesFailAtPrints start entry fuel) :
    CallsFailAtPrints start entry fuel := by
  intro stack machine label values reached
  have callsRoutine (noBuiltin : NoBuiltin label) : FailsOnlyAtPrints start entry
      (callLabel.callRoutine (fun statements jumps => runFrom fuel statements jumps 0 {}) label
        values) machine := by
    refine look ?_
    cases found : machine.routine? label with
    | none => exact of_quiet (.raise (by simp))
    | some routine =>
        refine look ((of_quiet (.storeInts _ _)).bind fun stored => ?_)
        have invokes := (reached.pass noBuiltin found).of_storeInts stored
        refine (invoke_failsOnlyAtPrints bodies invokes).bind fun _ => ?_
        exact of_quiet (Quiet.get.bind fun _ => .loadInt _)
  unfold callWith callLabel
  split
  · next name =>
      split
      · next builtin isBuiltin =>
          obtain rfl := (Builtin.ofName?_eq_some_iff ..).mp isBuiltin
          exact fun reason final failed => ⟨fuel, stack, machine, builtin, values, reached, failed⟩
      · next noBuiltin =>
          exact callsRoutine (by rintro _ ⟨rfl⟩; exact noBuiltin)
  · exact callsRoutine nofun

theorem runFrom_failsOnlyAtPrints {activation : Activation} {jumps : Table Label Nat}
    {position : Nat}
    (reached : Reached start entry fuel (activation :: stack) machine
      (.run jumps position temps)) :
    FailsOnlyAtPrints start entry
      (runFrom fuel activation.routine.statements jumps position temps) machine := by
  induction fuel generalizing activation stack machine jumps position temps with
  | zero => rintro _ _ ⟨⟩
  | succ fuel ih =>
      have calls := callsFailAtPrints_of_bodies fun _ _ _ _ begun => ih begun
      unfold runFrom
      cases found : activation.routine.statements[position]? with
      | none => exact of_quiet (.pure ())
      | some statement =>
          refine (execute_failsOnlyAtPrints calls (reached.execute found)).bind fun executed => ?_
          next next middle =>
            cases jumped : next.jump with
            | none => exact ih (reached.next found executed jumped)
            | some label =>
                dsimp only
                cases isThere : jumps.get? label with
                | none => exact of_quiet (.raise (by simp))
                | some target => exact ih (reached.jump found executed jumped isThere)

/-- If a run ends in a failure of its output, then it has reached the print that fails. -/
theorem interpret_failsOnlyAtPrints (fuel : Nat) (entry : Label) (start : Machine) :
    FailsOnlyAtPrints start entry (interpret fuel entry) start := by
  refine look ?_
  cases found : start.routine? entry with
  | none => exact of_quiet (.raise (by simp))
  | some routine =>
      refine look ((of_quiet (.storeInt _ _)).bind fun stored => ?_)
      have bodies : BodiesFailAtPrints start entry fuel := fun _ _ _ _ begun =>
        runFrom_failsOnlyAtPrints begun
      refine (invoke_failsOnlyAtPrints bodies (.start found stored)).bind fun _ => ?_
      exact of_quiet (Quiet.get.bind fun _ => .loadInt _)

end Runs

end TreeBackend.Machine
