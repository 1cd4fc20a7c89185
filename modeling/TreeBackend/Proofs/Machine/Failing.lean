import TreeBackend.Proofs.Machine.Reached

/-!
# Failures of a part are failures of the run

If what comes next in a reached state fails, then the whole run fails, for the same reason
and with the same machine: nothing that waits for the part can catch a failure.
-/

namespace TreeBackend.Machine

open Outcome
open IR (Expr Stmt)

/-- What comes next fails. -/
def Task.Fails (fuel : Nat) (stack : List Activation) (machine : Machine) (reason : Interruption)
    (final : Machine) : Task → Prop
  | .run jumps position temps => ∃ activation older, stack = activation :: older ∧
      runFrom fuel activation.routine.statements jumps position temps machine =
        .error reason final
  | .execute temps statement =>
      Machine.execute (callWith fuel) temps statement machine = .error reason final
  | .evaluate temps expression => eval (callWith fuel) temps expression machine = .error reason final
  | .evaluateAll temps expressions =>
      evalAll (callWith fuel) temps expressions machine = .error reason final
  | .proceed => False
  | .call label arguments => callWith fuel label arguments machine = .error reason final
  | .pass routine address arguments =>
      (do storeInts address arguments; invokeWith fuel routine : Exec Unit) machine =
        .error reason final
  | .invoke routine => invokeWith fuel routine machine = .error reason final

section Failing

variable {start machine middle final : Machine} {entry : Label} {fuel : Nat} {reason : Interruption}
  {temps : Temps} {routine : Routine}

theorem interpret_eq_error {stored : Machine} (found : start.routine? entry = some routine)
    (stores : storeInt start.stackPointer 0 start = .ok () stored)
    (fails : invokeWith fuel routine stored = .error reason final) :
    interpret fuel entry start = .error reason final := by
  refine bind_eq_error.mpr (.inr ⟨start, start, get_eq_ok.mpr ⟨rfl, rfl⟩, ?_⟩)
  rw [found]
  refine bind_eq_error.mpr (.inr ⟨start, start, get_eq_ok.mpr ⟨rfl, rfl⟩, ?_⟩)
  exact bind_eq_error.mpr (.inr ⟨(), stored, stores, bind_eq_error.mpr (.inl fails)⟩)

theorem runFrom_eq_error {statements : Array Stmt} {jumps : Table Label Nat} {position : Nat}
    {statement : Stmt} (found : statements[position]? = some statement)
    (fails : execute (callWith fuel) temps statement machine = .error reason final) :
    runFrom (fuel + 1) statements jumps position temps machine = .error reason final := by
  simp only [runFrom, found]
  exact bind_eq_error.mpr (.inl fails)

theorem runFrom_eq_error_of_next {statements : Array Stmt} {jumps : Table Label Nat}
    {position target : Nat} {statement : Stmt} {next : Continuation}
    (found : statements[position]? = some statement)
    (executed : execute (callWith fuel) temps statement machine = .ok next middle)
    (goesOn : (next.jump = none ∧ target = position + 1) ∨
      ∃ label, next.jump = some label ∧ jumps.get? label = some target)
    (fails : runFrom fuel statements jumps target next.temps middle = .error reason final) :
    runFrom (fuel + 1) statements jumps position temps machine = .error reason final := by
  simp only [runFrom, found]
  refine bind_eq_error.mpr (.inr ⟨next, middle, executed, ?_⟩)
  rcases goesOn with ⟨noJump, rfl⟩ | ⟨label, jumped, isThere⟩
  · simp only [noJump]
    exact fails
  · simp only [jumped, isThere]
    exact fails

theorem callWith_eq_error {label : Label} {arguments : List Int} (noBuiltin : NoBuiltin label)
    (found : machine.routine? label = some routine)
    (fails : (do storeInts machine.stackPointer arguments; invokeWith fuel routine : Exec Unit)
      machine = .error reason final) :
    callWith fuel label arguments machine = .error reason final := by
  have calls : callLabel.callRoutine (fun statements jumps => runFrom fuel statements jumps 0 {})
      label arguments machine = .error reason final := by
    refine bind_eq_error.mpr (.inr ⟨machine, machine, get_eq_ok.mpr ⟨rfl, rfl⟩, ?_⟩)
    rw [found]
    refine bind_eq_error.mpr (.inr ⟨machine, machine, get_eq_ok.mpr ⟨rfl, rfl⟩, ?_⟩)
    rcases bind_eq_error.mp fails with stores | ⟨⟨⟩, stored, stores, invokes⟩
    · exact bind_eq_error.mpr (.inl stores)
    · exact bind_eq_error.mpr (.inr ⟨(), stored, stores, bind_eq_error.mpr (.inl invokes)⟩)
  cases label with
  | anonymous number => exact calls
  | named name =>
      rw [callWith, callLabel, noBuiltin name rfl]
      exact calls

/-- If what comes next in a reached state fails, then so does the run. -/
theorem Reached.interpret_fails {stack : List Activation} {task : Task}
    (reached : Reached start entry fuel stack machine task)
    (fails : task.Fails fuel stack machine reason final) :
    ∃ total, interpret total entry start = .error reason final := by
  induction reached with
  | @start fuel _ _ found stored => exact ⟨fuel, interpret_eq_error found stored fails⟩
  | enter _ enters ih =>
      obtain ⟨_, _, same, fails⟩ := fails
      obtain ⟨rfl, rfl⟩ := List.cons.inj same
      exact ih (bind_eq_error.mpr (.inr ⟨_, _, enters, bind_eq_error.mpr (.inl fails)⟩))
  | execute _ found ih => exact ih ⟨_, _, rfl, runFrom_eq_error found fails⟩
  | next _ found executed noJump ih =>
      obtain ⟨_, _, same, fails⟩ := fails
      obtain ⟨rfl, rfl⟩ := List.cons.inj same
      exact ih ⟨_, _, rfl, runFrom_eq_error_of_next found executed (.inl ⟨noJump, rfl⟩) fails⟩
  | jump _ found executed jumped isThere ih =>
      obtain ⟨_, _, same, fails⟩ := fails
      obtain ⟨rfl, rfl⟩ := List.cons.inj same
      exact ih ⟨_, _, rfl,
        runFrom_eq_error_of_next found executed (.inr ⟨_, jumped, isThere⟩) fails⟩
  | condition _ ih | expression _ ih | assigned _ ih | place _ ih =>
      refine ih ?_
      simp only [Task.Fails, Machine.execute]
      exact bind_eq_error.mpr (.inl fails)
  | stored _ places ih =>
      refine ih ?_
      simp only [Task.Fails, Machine.execute]
      exact bind_eq_error.mpr (.inr ⟨_, _, places, bind_eq_error.mpr (.inl fails)⟩)
  | address _ ih | left _ ih | arguments _ ih =>
      refine ih ?_
      simp only [Task.Fails, eval]
      exact bind_eq_error.mpr (.inl fails)
  | right _ lefts ih =>
      refine ih ?_
      simp only [Task.Fails, eval]
      exact bind_eq_error.mpr (.inr ⟨_, _, lefts, bind_eq_error.mpr (.inl fails)⟩)
  | first _ ih =>
      refine ih ?_
      simp only [Task.Fails, evalAll]
      exact bind_eq_error.mpr (.inl fails)
  | others _ evaluated ih =>
      refine ih ?_
      simp only [Task.Fails, evalAll]
      exact bind_eq_error.mpr (.inr ⟨_, _, evaluated, bind_eq_error.mpr (.inl fails)⟩)
  | proceed => exact fails.elim
  | call _ evaluated ih =>
      refine ih ?_
      simp only [Task.Fails, eval]
      exact bind_eq_error.mpr (.inr ⟨_, _, evaluated, fails⟩)
  | pass _ noBuiltin found ih => exact ih (callWith_eq_error noBuiltin found fails)
  | passed _ stored ih =>
      refine ih ?_
      rcases bind_eq_error.mp fails with stores | ⟨⟨⟩, _, stores, invokes⟩
      · exact bind_eq_error.mpr (.inl (bind_eq_error.mpr (.inr ⟨(), _, stored, stores⟩)))
      · exact bind_eq_error.mpr (.inr ⟨(), _, bind_eq_ok.mpr ⟨(), _, stored, stores⟩, invokes⟩)
  | invoke _ ih =>
      exact ih (bind_eq_error.mpr (.inr ⟨(), _, pure_eq_ok.mpr ⟨rfl, rfl⟩, fails⟩))

end Failing

end TreeBackend.Machine
