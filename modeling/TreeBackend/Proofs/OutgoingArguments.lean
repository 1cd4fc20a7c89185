import Mathlib.Data.List.MinMax
import TreeBackend.Proofs.Calls.Protocol
import TreeBackend.Proofs.CompiledChunks
import TreeBackend.Proofs.Frame.Offsets
import TreeBackend.Proofs.Machine.Passing
import TreeBackend.Proofs.Machine.Scanning

/-!
# Room for arguments

A frame ends in an area for the arguments of the calls that its function makes.  The layout
finds its size in the source of the function, and it is the size that the largest call of the
compiled code takes.  So arguments are stored in this area and nowhere else.
-/

namespace TreeBackend

open Source (Program)
open Lowering Machine
open IR (Chunk Stmt Event)

/-- The largest number of arguments that a call in code passes, or zero if there is no call. -/
def IR.Stmt.largestCall (statement : Stmt) : Nat :=
  (statement.events.filterMap Event.arguments?).foldr max 0

namespace IR.Stmt

theorem le_largestCall {statement : Stmt} {label : Label} {arguments : Nat}
    (member : .call label arguments ∈ statement.events) : arguments ≤ statement.largestCall :=
  List.le_max_of_le' 0 (List.mem_filterMap.mpr ⟨_, member, rfl⟩) (Nat.le_refl _)

theorem largestCall_le {statement : Stmt} {bound : Nat}
    (each : ∀ label arguments, .call label arguments ∈ statement.events → arguments ≤ bound) :
    statement.largestCall ≤ bound := by
  refine List.max_le_of_forall_le _ bound fun arguments member => ?_
  obtain ⟨event, isThere, passes⟩ := List.mem_filterMap.mp member
  cases event with
  | call label count =>
      obtain rfl := Option.some_inj.mp passes
      exact each label count isThere
  | label | jump | branch | compute | load | store | assign => cases passes

end IR.Stmt

section Compiled

variable {program : Program} {chunks : List Chunk} {table : FrameTable}

/-- The layout and the code agree on the largest call. -/
theorem Source.Function.argumentsSize_frame_eq (resolution : Source.Resolution)
    (function : Source.Function) (label : Label) {frames : FrameTable} {body : Stmt}
    (behaves : Behaves frames body.events function.contents.calls) :
    (function.frame resolution label).argumentsSize = Word.size * body.largestCall := by
  obtain ⟨above, -, each⟩ := argumentsSize_frame resolution function label
  refine le_antisymm ?_ ?_
  · refine foldl_max_le (Int.mul_nonneg (by decide) (Int.natCast_nonneg _)) fun count member => ?_
    obtain ⟨called, isCall⟩ := (behaves.calls (count + 1)).mpr ⟨count, member, rfl⟩
    have le := IR.Stmt.le_largestCall isCall
    unfold callSize Word.size
    omega
  · have le : body.largestCall ≤
        ((function.frame resolution label).argumentsSize / Word.size).toNat := by
      refine IR.Stmt.largestCall_le fun called count isCall => ?_
      obtain ⟨arguments, member, rfl⟩ := (behaves.calls count).mp ⟨called, isCall⟩
      have fits := each arguments member
      unfold callSize Word.size at *
      omega
    unfold Word.size at *
    omega

theorem argumentsSize_of_compile (distinct : program.definitionIds.Nodup)
    (compiled : compile program = .ok chunks) {frame : Frame} {body : Stmt}
    (member : .code frame body ∈ chunks) :
    frame.argumentsSize = Word.size * body.largestCall := by
  obtain ⟨table, labels, state, rest, layout, lowered, flattened⟩ := compile_eq_ok.mp compiled
  have laid := (Layout.ofProgram_succeeds layout).2 distinct
  obtain ⟨function, isFunction, found, items, rfl, compiles⟩ :=
    exists_compilesTo lowered flattened member
  obtain ⟨label, -, isFrame⟩ := (laid.functions.each function isFunction).frame
  obtain rfl := Option.some_inj.mp (found.symm.trans isFrame)
  exact function.argumentsSize_frame_eq program.resolution label compiles.behaves

/-- The statements of a function do what its body does. -/
theorem Machine.Routine.events_subset {frame : Frame} {body statement : Stmt}
    (member : statement ∈ (Routine.ofBody frame body).statements) :
    statement.events ⊆ body.events := by
  intro event isEvent
  cases body with
  | seq items =>
      exact Stmt.mem_eventsOfList.mpr ⟨statement, List.mem_toArray.mp member, isEvent⟩
  | label | jump | cjump | exp | move =>
      obtain rfl := List.mem_singleton.mp (List.mem_toArray.mp member)
      exact isEvent

/-- The functions of a machine that has been loaded with a compiled program have room for the
arguments that they pass. -/
theorem hasRoom_of_compile (distinct : program.definitionIds.Nodup)
    (compiled : compile program = .ok chunks) {config : Config} {machine : Machine}
    (loaded : load chunks config = .ok machine) {routine : Routine}
    (member : routine ∈ machine.routines) : routine.HasRoom := by
  obtain ⟨frame, body, isThere, rfl⟩ := exists_code_of_mem_routines loaded member
  intro statement isStatement label arguments isCall
  have le := IR.Stmt.le_largestCall (Routine.events_subset isStatement isCall)
  rw [Routine.frame_ofBody, argumentsSize_of_compile distinct compiled isThere]
  unfold Word.size at *
  omega

/-- The area for arguments in the frame of a compiled function has the size that the largest
call in its code takes, and in every run each argument is stored in the area of its caller. -/
theorem compile_reserves_arguments (distinct : program.definitionIds.Nodup)
    (compiled : compile program = .ok chunks) :
    (∀ frame body, .code frame body ∈ chunks →
      frame.argumentsSize = Word.size * body.largestCall) ∧
    ∀ config machine later entry fuel stack state routine address value rest,
      load chunks config = .ok machine → machine.Session later →
      Reached later entry fuel stack state (.pass routine address (value :: rest)) →
        ∃ caller ∈ stack.head?, state.stackPointer ≤ address ∧
          address + Word.size ≤ state.stackPointer + caller.routine.frame.argumentsSize := by
  refine ⟨fun frame body member => argumentsSize_of_compile distinct compiled member, ?_⟩
  intro config machine later entry fuel stack state routine address value rest loaded session
    reached
  have same := session.routines_eq loaded
  obtain ⟨-, -, caller, isCaller, above, below⟩ := fits_of_reached
    (fun routine member => hasRoom_of_compile distinct compiled loaded (same ▸ member)) reached
  refine ⟨caller, isCaller, above, ?_⟩
  rw [List.length_cons] at below
  unfold Word.size at *
  omega

/-- In the nested program the main function stores a number behind the static link. -/
theorem compile_reserves_arguments_nested : Demo.nested.definitionIds.Nodup ∧
    ∃ chunks machine fuel main state routine address, compile Demo.nested = .ok chunks ∧
      (∀ frame body, .code frame body ∈ chunks →
        frame.argumentsSize = Word.size * body.largestCall) ∧
      load chunks { memorySize := 64 } = .ok machine ∧
      Reached machine mainLabel fuel [main] state (.pass routine address [3]) ∧
      state.stackPointer ≤ address ∧
        address + Word.size ≤ state.stackPointer + main.routine.frame.argumentsSize := by
  have distinct : Demo.nested.definitionIds.Nodup := by decide +kernel
  obtain ⟨chunks, machine, fuel, main, _, _, routine, _, _, _, _, compiled, loaded, reached,
    passes, -⟩ := exists_passed_nested
  obtain ⟨⟨⟩, state, storesLink, -⟩ := Outcome.bind_eq_ok.mp passes
  have reached := reached.passed storesLink
  obtain ⟨sizes, within⟩ := compile_reserves_arguments distinct compiled
  obtain ⟨caller, isCaller, above, below⟩ :=
    within _ _ _ _ _ _ _ _ _ _ _ loaded .start reached
  obtain rfl : main = caller := Option.some_inj.mp isCaller
  exact ⟨distinct, chunks, machine, fuel, main, state, routine, _, compiled, sizes, loaded,
    reached, above, below⟩

end Compiled

end TreeBackend
