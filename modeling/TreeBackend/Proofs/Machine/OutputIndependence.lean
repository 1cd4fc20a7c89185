import TreeBackend.Pipeline
import TreeBackend.Proofs.Machine.Lockstep
import TreeBackend.Proofs.Machine.Maintaining
import TreeBackend.Proofs.Machine.PrintFailures

/-!
# Output does not influence runs

Calls one after the other have the same results and errors, and leave the same machine behind,
whether their output is taken or not.  A writer that refuses an offer stops them at a print; up to
there they go through the same states, and what has been written is where the whole output begins.
-/

namespace TreeBackend.Machine

open Outcome

/-! ### Fields and results of machines in step -/

section InStep

variable {left right : Machine} {α : Type} {part : Exec α}

theorem InStep.routine? (inStep : InStep left right) (label : Label) :
    left.routine? label = right.routine? label := by
  obtain ⟨_, rfl, -⟩ := inStep
  rfl

theorem InStep.framePointer (inStep : InStep left right) :
    left.framePointer = right.framePointer := by
  obtain ⟨_, rfl, -⟩ := inStep
  rfl

theorem InStep.stackPointer (inStep : InStep left right) :
    left.stackPointer = right.stackPointer := by
  obtain ⟨_, rfl, -⟩ := inStep
  rfl

/-- What both machines have written is the same. -/
theorem InStep.printed_eq (inStep : InStep left right) {sink : Sink}
    (isThere : right.output = some sink) : left.printed = right.printed := by
  obtain ⟨complete, rfl, -, same⟩ := inStep
  rw [printed, printed, isThere]
  exact (same sink isThere).symm

theorem Alike.inStep {outcome other : EStateM.Result Interruption Machine α}
    (alike : Alike outcome other) : InStep (state outcome) (state other) := by
  cases alike with
  | ok inStep | error inStep => exact inStep

/-- What succeeds on the right succeeds on the left. -/
theorem Lockstep.exists_ok (lockstep : Lockstep part) (inStep : InStep left right) {value : α}
    {final : Machine} (done : part right = .ok value final) :
    ∃ other, part left = .ok value other ∧ InStep other final := by
  rcases lockstep.paired inStep with alike | refused
  · rw [done] at alike
    generalize outcome : part left = result at alike
    cases alike with
    | ok inStep => exact ⟨_, rfl, inStep⟩
  · rw [done] at refused
    cases refused

end InStep

/-! ### States -/

section Reached

variable {left right : Machine} {entry : Label}

/-- Each state that the right run reaches is one that the left run reaches, up to output. -/
theorem Reached.exists_inStep (inStep : InStep left right) {fuel : Nat} {stack : List Activation}
    {machine : Machine} {task : Task} (reached : Reached right entry fuel stack machine task) :
    ∃ other, Reached left entry fuel stack other task ∧ InStep other machine := by
  have calls (fuel : Nat) (label : Label) (values : List Int) :
      Lockstep (callWith fuel label values) :=
    .callLabel (fun _ _ => .runFrom ..) label values
  induction reached with
  | start found stored =>
      obtain ⟨other, stores, inStep'⟩ := (Lockstep.storeInt _ _).exists_ok inStep stored
      rw [← inStep.stackPointer] at stores
      exact ⟨other, .start ((inStep.routine? entry).trans found) stores, inStep'⟩
  | enter _ enters ih =>
      obtain ⟨before, reached, inStep⟩ := ih
      obtain ⟨other, enters, inStep⟩ := (Lockstep.enter _).exists_ok inStep enters
      exact ⟨other, inStep.framePointer ▸ reached.enter enters, inStep⟩
  | execute _ found ih =>
      obtain ⟨other, reached, inStep⟩ := ih
      exact ⟨other, reached.execute found, inStep⟩
  | next _ found executed noJump ih =>
      obtain ⟨before, reached, inStep⟩ := ih
      obtain ⟨other, executed, inStep⟩ := (Lockstep.execute (calls _) _).exists_ok inStep executed
      exact ⟨other, reached.next found executed noJump, inStep⟩
  | jump _ found executed jumped isThere ih =>
      obtain ⟨before, reached, inStep⟩ := ih
      obtain ⟨other, executed, inStep⟩ := (Lockstep.execute (calls _) _).exists_ok inStep executed
      exact ⟨other, reached.jump found executed jumped isThere, inStep⟩
  | condition _ ih => exact ih.imp fun _ there => ⟨there.1.condition, there.2⟩
  | expression _ ih => exact ih.imp fun _ there => ⟨there.1.expression, there.2⟩
  | assigned _ ih => exact ih.imp fun _ there => ⟨there.1.assigned, there.2⟩
  | place _ ih => exact ih.imp fun _ there => ⟨there.1.place, there.2⟩
  | address _ ih => exact ih.imp fun _ there => ⟨there.1.address, there.2⟩
  | left _ ih => exact ih.imp fun _ there => ⟨there.1.left, there.2⟩
  | arguments _ ih => exact ih.imp fun _ there => ⟨there.1.arguments, there.2⟩
  | first _ ih => exact ih.imp fun _ there => ⟨there.1.first, there.2⟩
  | invoke _ ih => exact ih.imp fun _ there => ⟨there.1.invoke, there.2⟩
  | stored _ places ih =>
      obtain ⟨before, reached, inStep⟩ := ih
      obtain ⟨other, places, inStep⟩ := (Lockstep.eval (calls _) _).exists_ok inStep places
      exact ⟨other, reached.stored places, inStep⟩
  | right _ lefts ih =>
      obtain ⟨before, reached, inStep⟩ := ih
      obtain ⟨other, lefts, inStep⟩ := (Lockstep.eval (calls _) _).exists_ok inStep lefts
      exact ⟨other, reached.right lefts, inStep⟩
  | others _ evaluated ih =>
      obtain ⟨before, reached, inStep⟩ := ih
      obtain ⟨other, evaluated, inStep⟩ := (Lockstep.eval (calls _) _).exists_ok inStep evaluated
      exact ⟨other, reached.others evaluated, inStep⟩
  | proceed _ evaluated ih =>
      obtain ⟨before, reached, inStep⟩ := ih
      obtain ⟨other, evaluated, inStep⟩ := (Lockstep.eval (calls _) _).exists_ok inStep evaluated
      exact ⟨other, reached.proceed evaluated, inStep⟩
  | call _ evaluated ih =>
      obtain ⟨before, reached, inStep⟩ := ih
      obtain ⟨other, evaluated, inStep⟩ :=
        (Lockstep.evalAll (calls _) _).exists_ok inStep evaluated
      exact ⟨other, reached.call evaluated, inStep⟩
  | pass _ noBuiltin found ih =>
      obtain ⟨other, reached, inStep⟩ := ih
      exact ⟨other, inStep.stackPointer ▸
        reached.pass noBuiltin ((inStep.routine? _).trans found), inStep⟩
  | passed _ stored ih =>
      obtain ⟨before, reached, inStep⟩ := ih
      obtain ⟨other, stored, inStep⟩ := (Lockstep.storeInt _ _).exists_ok inStep stored
      exact ⟨other, reached.passed stored, inStep⟩

end Reached

/-! ### Sessions -/

/-- A call on the right stops where it prints and its writer refuses an offer.  Up to there the
left machine goes through the same states.  What the right one has written is where the output
begins that the left one has written after this call and others. -/
structure StopsAtPrint (left right : Machine) (fuel : Nat) (entry : Label)
    (others : List (Nat × Label)) : Prop where
  states : ∀ fuel stack machine task, Reached right entry fuel stack machine task →
    ∃ other, Reached left entry fuel stack other task ∧ InStep other machine
  print : ∃ less stack before machine builtin arguments offered reason final sink,
    Reached left entry less stack before (.call (.named builtin.name) arguments) ∧
      Reached right entry less stack machine (.call (.named builtin.name) arguments) ∧
      InStep before machine ∧
      callBuiltin builtin arguments machine = .error (.fault (.output reason)) final ∧
      interpret fuel entry right = .error (.fault (.output reason)) final ∧
      final.output = some sink ∧ sink.writer.Refuses offered reason ∧
      Extends sink.written (left.afterCalls ((fuel, entry) :: others))

/-- Calls one after the other have the same outcomes on both sides until one of them stops at a
print. -/
def AlikeUntilRefused (left right : Machine) : List (Nat × Label) → Prop
  | [] => InStep left right
  | (fuel, entry) :: rest =>
      Alike (interpret fuel entry left) (interpret fuel entry right) ∧
        AlikeUntilRefused (state (interpret fuel entry left)) (state (interpret fuel entry right))
          rest ∨
      StopsAtPrint left right fuel entry rest

theorem Extends.afterCalls {bytes : ByteArray} {machine : Machine} (longer : Extends bytes machine)
    (calls : List (Nat × Label)) : Extends bytes (machine.afterCalls calls) := by
  induction calls generalizing machine with
  | nil => exact longer
  | cons call rest ih => exact ih ((Lockstep.interpret call.1 call.2).grows longer)

theorem stopsAtPrint_of_refused {left right : Machine} (inStep : InStep left right) {fuel : Nat}
    {entry : Label} (refused : Refused (interpret fuel entry left) (interpret fuel entry right))
    (others : List (Nat × Label)) : StopsAtPrint left right fuel entry others where
  states _ _ _ _ reached := reached.exists_inStep inStep
  print := by
    generalize outcome : interpret fuel entry left = result at refused
    generalize other : interpret fuel entry right = stopped at refused
    cases refused with
    | @intro final sink offered reason isThere refuses longer =>
        obtain ⟨less, stack, machine, builtin, arguments, reached, failed⟩ :=
          interpret_failsOnlyAtPrints fuel entry right _ _ other
        obtain ⟨before, reachedToo, inStep⟩ := reached.exists_inStep inStep
        refine ⟨less, stack, before, machine, builtin, arguments, offered, reason, final, sink,
          reachedToo, reached, inStep, failed, rfl, isThere, refuses, ?_⟩
        rw [← outcome] at longer
        exact longer.afterCalls others

theorem alikeUntilRefused {left right : Machine} (inStep : InStep left right)
    (calls : List (Nat × Label)) : AlikeUntilRefused left right calls := by
  induction calls generalizing left right with
  | nil => exact inStep
  | cons call rest ih =>
      rcases (Lockstep.interpret call.1 call.2).paired inStep with alike | refused
      · exact .inl ⟨alike, ih alike.inStep⟩
      · exact .inr (stopsAtPrint_of_refused inStep refused rest)

theorem maintained_mute :
    Maintained (fun machine => machine.output = none) fun machine => machine.output = none :=
  .of_points (fun _ mute _ => mute)
    (by
      intro machine piece mute
      obtain ⟨output, same, writers⟩ := exists_state_write piece machine
      rw [same]
      simpa [mute] using writers)
    (fun _ mute => mute) (fun _ _ mute => mute) (fun mute => mute)

/-- Without a writer nothing is refused. -/
theorem alike_of_mute {left right : Machine} (inStep : InStep left right)
    (mute : right.output = none) (fuel : Nat) (entry : Label) :
    Alike (interpret fuel entry left) (interpret fuel entry right) := by
  rcases (Lockstep.interpret fuel entry).paired inStep with alike | refused
  · exact alike
  · have stays := (maintained_mute.interpret fuel entry).state mute
    generalize interpret fuel entry left = outcome, interpret fuel entry right = other
      at refused stays
    cases refused with
    | intro isThere => exact absurd (isThere.symm.trans stays) (by simp)

theorem inStep_afterCalls_of_mute {left right : Machine} (inStep : InStep left right)
    (mute : right.output = none) (calls : List (Nat × Label)) :
    InStep (left.afterCalls calls) (right.afterCalls calls) := by
  induction calls generalizing left right with
  | nil => exact inStep
  | cons call rest ih =>
      exact ih (alike_of_mute inStep mute call.1 call.2).inStep
        ((maintained_mute.interpret call.1 call.2).state mute)

/-- Each call of a session has the same result or error without a writer as with one that accepts
everything, and leaves the same machine behind.  With any other writer the session goes the same
way until a call stops at a print. -/
theorem output_does_not_influence (start : Machine) (complete : Sink)
    (accepts : complete.writer.Accepts) (calls : List (Nat × Label)) :
    (∀ fuel entry, Alike (interpret fuel entry ((start.withSink complete).afterCalls calls))
      (interpret fuel entry ({ start with output := none }.afterCalls calls))) ∧
    ∀ sink : Sink, sink.written = complete.written →
      AlikeUntilRefused (start.withSink complete) (start.withSink sink) calls := by
  constructor
  · have mute : InStep (start.withSink complete) { start with output := none } :=
      ⟨complete, rfl, accepts, nofun⟩
    intro fuel entry
    exact alike_of_mute (inStep_afterCalls_of_mute mute rfl calls)
      (maintained_mute.afterCalls rfl calls) fuel entry
  · intro sink same
    have inStep : InStep (start.withSink complete) (start.withSink sink) :=
      ⟨complete, rfl, accepts, by rintro _ ⟨rfl⟩; exact same⟩
    exact alikeUntilRefused inStep calls

/-- A writer that takes one byte at a time, as many as it remembers. -/
def Writer.narrow : Writer where
  answer
    | [left + 1], _ => (.takes 1, [left])
    | memory, _ => (.fails "no space left", memory)

/-- The second of two prints stops the run in the middle of its text. -/
theorem output_does_not_influence_two_prints :
    let print (value : Int) : IR.Stmt := .exp (.call (.named "print_int") [.const 0, .const value])
    let chunks : List IR.Chunk :=
      [.code { label := mainLabel, level := 1 } (.seq [print 12, print 34])]
    ∃ start, load chunks { memorySize := 64 } = .ok start ∧
      (state (interpret 10 mainLabel (start.withSink {}))).printed = "12\n34\n".toUTF8 ∧
      (state (interpret 10 mainLabel (start.withSink { writer := .narrow, memory := [4] }))).printed =
        "12\n3".toUTF8 ∧
      StopsAtPrint (start.withSink {}) (start.withSink { writer := .narrow, memory := [4] }) 10
        mainLabel [] := by
  intro print chunks
  have runs : (do
      let start ← (load chunks { memorySize := 64 }).toOption
      let left := interpret 10 mainLabel (start.withSink {})
      let right := interpret 10 mainLabel (start.withSink { writer := .narrow, memory := [4] })
      some ((state left).printed, (state right).printed)) =
        some ("12\n34\n".toUTF8, "12\n3".toUTF8) := by decide +kernel
  obtain ⟨start, loaded, runs⟩ := Option.bind_eq_some_iff.mp runs
  rw [toOption_eq_some_iff] at loaded
  obtain ⟨whole, part⟩ := Prod.mk.inj (Option.some_inj.mp runs)
  refine ⟨start, loaded, whole, part, ?_⟩
  have both := output_does_not_influence start {} Writer.accepts_unlimited [(10, mainLabel)]
  rcases both.2 { writer := .narrow, memory := [4] } rfl with ⟨alike, -⟩ | stops
  · cases output : (state (interpret 10 mainLabel
        (start.withSink { writer := .narrow, memory := [4] }))).output with
    | none =>
        rw [printed, output] at part
        exact absurd part (by decide +kernel)
    | some sink =>
        have same := whole.symm.trans ((alike.inStep.printed_eq output).trans part)
        exact absurd same (by decide +kernel)
  · exact stops

end TreeBackend.Machine
