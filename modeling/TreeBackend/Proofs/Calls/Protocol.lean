import TreeBackend.Demo
import TreeBackend.Proofs.Calls.Invariant

/-!
# The call protocol

A call that returns leaves both pointers as they were, and neither the saved frame pointer
nor the static link of an activation that has not ended has changed.
-/

namespace TreeBackend

open Source (Program)
open Machine
open IR (Chunk)

/-! ### A nested call -/

namespace Demo

open Source Source.Assembler

/-- A main function that calls a function within it:

    fun main(): int = inner(3) where { fun inner(x: int): int = x }
-/
def nested : Program := assemble do
  let main ← declareFunction "main" [] .int
  let x ← declareParameter "x" .int
  let inner ← declareFunction "inner" [x] .int
  let body ← call inner [← int 3]
  return [defineFunction main (← whereIn body [defineFunction inner (← name x)])]

end Demo

theorem isScoped_nested : Demo.nested.IsScoped where
  distinct := by decide +kernel
  words := by decide +kernel
  bodies := by decide +kernel
  names := by decide +kernel
  noPointer := by decide +kernel
  main := by decide +kernel

theorem framesFit_nested : Demo.nested.FramesFit := by decide +kernel

theorem globalsFit_nested : Demo.nested.GlobalsFit :=
  Program.globalsFit_of_words (by decide +kernel)

/-- What a statement that stores the result of a call is made of. -/
def storedCall? : IR.Stmt → Option (IR.Expr × Label × List IR.Expr)
  | .move (.mem address) (.call label arguments) => some (address, label, arguments)
  | _ => none

theorem storedCall?_eq_some_iff {statement : IR.Stmt} {address : IR.Expr} {label : Label}
    {arguments : List IR.Expr} : storedCall? statement = some (address, label, arguments) ↔
      statement = .move (.mem address) (.call label arguments) := by
  unfold storedCall?
  split <;> simp_all

/-- The main function passes its frame pointer and a number to the inner function, and calls
it. -/
theorem exists_passed_nested : ∃ chunks machine fuel main evaluated passed routine jumps entered
    final last, compile Demo.nested = .ok chunks ∧
      load chunks { memorySize := 64 } = .ok machine ∧
      Reached machine mainLabel fuel [main] evaluated
        (.pass routine evaluated.stackPointer [60, 3]) ∧
      storeInts evaluated.stackPointer [60, 3] evaluated = .ok () passed ∧
      routine.frame.level = 2 ∧ routine.statements.size = 1 ∧
      enter routine passed = .ok jumps entered ∧
      invokeWith fuel routine passed = .ok () final ∧
      interpret 10 mainLabel machine = .ok 3 last := by
  have runs : (do
      let chunks ← (compile Demo.nested).toOption
      let machine ← (load chunks { memorySize := 64 }).toOption
      let main ← machine.routine? mainLabel
      let ((), stored) ← Outcome.ok? (storeInt machine.stackPointer 0 machine)
      let (_, entered) ← Outcome.ok? (enter main stored)
      let saving ← main.statements[0]?
      let (next, saved) ← Outcome.ok? (execute (callWith 9) {} saving entered)
      let calling ← main.statements[1]?
      let (address, label, arguments) ← storedCall? calling
      let (_, placed) ← Outcome.ok? (eval (callWith 8) next.temps address saved)
      let (values, evaluated) ← Outcome.ok? (evalAll (callWith 8) next.temps arguments placed)
      let routine ← evaluated.routine? label
      let ((), passed) ← Outcome.ok? (storeInts evaluated.stackPointer values evaluated)
      let (_, _) ← Outcome.ok? (enter routine passed)
      let ((), _) ← Outcome.ok? (invokeWith 8 routine passed)
      let (result, _) ← Outcome.ok? (interpret 10 mainLabel machine)
      some (next.jump, label, values, routine.frame.level, routine.statements.size, result)) =
      some (none, .anonymous 0, [60, 3], 2, 1, 3) := by decide +kernel
  obtain ⟨chunks, compiled, runs⟩ := Option.bind_eq_some_iff.mp runs
  obtain ⟨machine, loads, runs⟩ := Option.bind_eq_some_iff.mp runs
  obtain ⟨main, found, runs⟩ := Option.bind_eq_some_iff.mp runs
  obtain ⟨⟨⟨⟩, start⟩, stored, runs⟩ := Option.bind_eq_some_iff.mp runs
  obtain ⟨⟨_, begun⟩, begins, runs⟩ := Option.bind_eq_some_iff.mp runs
  obtain ⟨saving, isSaving, runs⟩ := Option.bind_eq_some_iff.mp runs
  obtain ⟨⟨next, saved⟩, saves, runs⟩ := Option.bind_eq_some_iff.mp runs
  obtain ⟨calling, isCalling, runs⟩ := Option.bind_eq_some_iff.mp runs
  obtain ⟨⟨address, label, arguments⟩, isCall, runs⟩ := Option.bind_eq_some_iff.mp runs
  obtain ⟨⟨_, placed⟩, places, runs⟩ := Option.bind_eq_some_iff.mp runs
  obtain ⟨⟨values, evaluated⟩, evaluates, runs⟩ := Option.bind_eq_some_iff.mp runs
  obtain ⟨routine, isThere, runs⟩ := Option.bind_eq_some_iff.mp runs
  obtain ⟨⟨⟨⟩, passed⟩, passes, runs⟩ := Option.bind_eq_some_iff.mp runs
  obtain ⟨⟨jumps, entered⟩, enters, runs⟩ := Option.bind_eq_some_iff.mp runs
  obtain ⟨⟨⟨⟩, final⟩, invoked, runs⟩ := Option.bind_eq_some_iff.mp runs
  obtain ⟨⟨result, last⟩, interpreted, runs⟩ := Option.bind_eq_some_iff.mp runs
  simp only [Option.some_inj, Prod.mk.injEq] at runs
  obtain ⟨noJump, rfl, rfl, isNested, isShort, rfl⟩ := runs
  simp only [toOption_eq_some_iff, Outcome.ok?_eq_some_iff, storedCall?_eq_some_iff] at *
  subst isCall
  have runsMain : Reached machine mainLabel 10 _ begun _ := (Reached.start found stored).enter begins
  have calling := (runsMain.next isSaving saves noJump).execute isCalling
  have calls := (calling.stored places).call evaluates
  exact ⟨chunks, machine, _, _, evaluated, passed, routine, jumps, entered, final, last, compiled,
    loads, calls.pass nofun isThere, passes, isNested, isShort, enters, invoked, interpreted⟩

/-- The inner function is invoked while the main function runs. -/
theorem exists_reached_nested : ∃ chunks machine fuel main stored routine jumps entered final last,
    compile Demo.nested = .ok chunks ∧ load chunks { memorySize := 64 } = .ok machine ∧
      Reached machine mainLabel fuel [main] stored (.invoke routine) ∧
      routine.frame.level = 2 ∧ routine.statements.size = 1 ∧
      enter routine stored = .ok jumps entered ∧
      invokeWith fuel routine stored = .ok () final ∧
      interpret 10 mainLabel machine = .ok 3 last := by
  obtain ⟨chunks, machine, fuel, main, _, passed, routine, jumps, entered, final, last, compiled,
    loaded, reached, passes, rest⟩ := exists_passed_nested
  exact ⟨chunks, machine, fuel, main, passed, routine, jumps, entered, final, last, compiled,
    loaded, reached.of_storeInts passes, rest⟩

/-! ### The protocol -/

/-- A machine has the pointers of another one, and in both, activations have saved the same
frame pointers and have the same static links. -/
structure Machine.Restores (stack : List Activation) (before after : Machine) : Prop where
  framePointer : after.framePointer = before.framePointer
  stackPointer : after.stackPointer = before.stackPointer
  frameLabel : after.memory.address? .framePointer = before.memory.address? .framePointer
  stackLabel : after.memory.address? .stackPointer = before.memory.address? .stackPointer
  saved : ∀ activation ∈ stack,
    after.memory.read? activation.savedAt = before.memory.read? activation.savedAt
  links : ∀ activation ∈ stack,
    after.memory.read? activation.framePointer = before.memory.read? activation.framePointer

section Protocol

variable {program : Program} {table : FrameTable} {start machine final : Machine} {calls : List Call}

theorem exists_keptWords (start : Machine) {call : Call} (member : call ∈ calls) :
    (∃ saved, (call.savedAt, saved) ∈ keptWordsIn start calls) ∧
      ∃ link, (call.framePointer, link) ∈ keptWordsIn start calls := by
  obtain ⟨newer, older, rfl⟩ := List.append_of_mem member
  exact ⟨⟨_, keptWordsIn_of_append (List.mem_cons_self ..)⟩,
    _, keptWordsIn_of_append (List.mem_cons_of_mem _ (List.mem_cons_self ..))⟩

theorem restores_of_keeps (before : Keeps start calls (keptWordsIn start calls) machine)
    (after : Keeps start calls (keptWordsIn start calls) final) :
    machine.Restores (calls.map Call.activation) final where
  framePointer := after.points.framePointer.trans before.points.framePointer.symm
  stackPointer := after.points.stackPointer.trans before.points.stackPointer.symm
  frameLabel := after.points.frameLabel.trans before.points.frameLabel.symm
  stackLabel := after.points.stackLabel.trans before.points.stackLabel.symm
  saved := List.forall_mem_map.mpr fun call member => by
    obtain ⟨⟨saved, kept⟩, -⟩ := exists_keptWords start member
    exact (after.words _ kept).trans (before.words _ kept).symm
  links := List.forall_mem_map.mpr fun call member => by
    obtain ⟨-, link, kept⟩ := exists_keptWords start member
    exact (after.words _ kept).trans (before.words _ kept).symm

/-- An invocation that returns restores the frames of all activations. -/
theorem HoldsIn.restores (hosts : Hosts program table start) {stack : List Activation}
    {routine : Routine} (holds : HoldsIn program table start stack machine (.invoke routine))
    {fuel : Nat} (invoked : invokeWith fuel routine machine = .ok () final) :
    machine.Restores stack final := by
  obtain ⟨calls, rfl, stack, callee, can, keeps⟩ := holds
  exact restores_of_keeps (keeps.mono (List.subset_cons_self ..))
    (invoke_keeps hosts (bodiesKeep_runFrom hosts fuel) stack can keeps invoked)

/-- In a run of a lexically scoped program, every invocation that returns restores both
pointers and the frames of the activations that have not ended; and after a run with a result
both pointers are where they were at its beginning.  Global variables of a word each fit
(`globalsFit_of_words`). -/
theorem invoke_restores {chunks : List Chunk} {config : Config} (inScope : program.IsScoped)
    (framesFit : program.FramesFit) (globalsFit : program.GlobalsFit)
    (compiled : compile program = .ok chunks) (loaded : load chunks config = .ok machine)
    (output : Option Sink) :
    (∀ fuel stack before routine after,
      Reached { machine with output } mainLabel fuel stack before (.invoke routine) →
        invokeWith fuel routine before = .ok () after → before.Restores stack after) ∧
    ∀ fuel result after, interpret fuel mainLabel { machine with output } = .ok result after →
      after.framePointer = config.memorySize - Word.size ∧
        after.stackPointer = config.memorySize - Word.size := by
  obtain ⟨table, labels, -, hosts, size⟩ :=
    exists_hosts inScope.isConfined framesFit globalsFit compiled loaded
  have hosts := hosts.withOutput output
  have restores : ∀ fuel stack before routine after,
      Reached { machine with output } mainLabel fuel stack before (.invoke routine) →
        invokeWith fuel routine before = .ok () after → before.Restores stack after :=
    fun _ _ _ _ _ reached invoked => (holdsIn_of_reached hosts reached).restores hosts invoked
  refine ⟨restores, fun fuel result after interpreted => ?_⟩
  obtain ⟨routine, stored, found, stores, invoked, -⟩ := interpret_eq_ok interpreted
  have restored := restores fuel [] stored routine after (.start found stores) invoked
  obtain ⟨-, rfl⟩ := storeInt_eq_ok.mp stores
  have points := hosts.points
  rw [show ({ machine with output } : Machine).memory.size = config.memorySize from size] at points
  exact ⟨restored.framePointer.trans points.framePointer,
    restored.stackPointer.trans points.stackPointer⟩

/-- The nested call restores the frame of the main function, and the whole run both pointers. -/
theorem invoke_restores_nested : Demo.nested.IsScoped ∧ Demo.nested.FramesFit ∧
    Demo.nested.GlobalsFit ∧
    ∃ chunks machine fuel main before routine after last, compile Demo.nested = .ok chunks ∧
      load chunks { memorySize := 64 } = .ok machine ∧
      Reached machine mainLabel fuel [main] before (.invoke routine) ∧
      invokeWith fuel routine before = .ok () after ∧ before.Restores [main] after ∧
      interpret 10 mainLabel machine = .ok 3 last ∧
      last.framePointer = 60 ∧ last.stackPointer = 60 := by
  obtain ⟨chunks, machine, fuel, main, before, routine, _, _, after, last, compiled, loaded,
    reached, -, -, -, invoked, interpreted⟩ := exists_reached_nested
  obtain ⟨restores, ends⟩ :=
    invoke_restores isScoped_nested framesFit_nested globalsFit_nested compiled loaded
      machine.output
  exact ⟨isScoped_nested, framesFit_nested, globalsFit_nested, chunks, machine, fuel, main, before,
    routine, after, last, compiled, loaded, reached, invoked, restores _ _ _ _ _ reached invoked,
    interpreted, ends _ _ _ interpreted⟩

end Protocol

end TreeBackend
