import Mathlib.Data.Set.Basic
import TreeBackend.Machine.Execution
import TreeBackend.Proofs.Outcome

/-!
# Computations that go wrong only in expected ways

A division by zero, a bad address or an exhausted stack is the fault of a program.
Code that is not flat, a target that is no place, a jump to nowhere, a temporary
without a value or a label without an address would be the fault of compilation.
A computation is harmless if it never ends in a fault of the second kind, and if
it leaves the functions and the known labels of the machine alone, even when it
is interrupted.
-/

namespace TreeBackend.Machine

open Outcome
open IR (Expr Stmt Temp)

/-- Whether a fault is one that compiled code must never run into. -/
def Fault.isWrong : Fault → Bool
  | .notFlat _ | .invalidMoveTarget _ | .unknownJumpTarget _ | .unassignedTemp _
  | .unknownLabel _ => true
  | .notCallable _ | .notAnInteger .. | .notAString _ | .builtinArity .. | .divisionByZero
  | .invalidAddress _ | .stackOverflow .. | .outOfMemory _ | .emptyRange .. | .missingEntry _
  | .output _ | .config _ => false

/-- Whether a run was interrupted by a fault that compiled code must never run into. -/
def Interruption.isWrong : Interruption → Bool
  | .fault cause => cause.isWrong
  | .outOfFuel => false

/-- What a machine is expected to offer: certain functions, and an address for each
of certain labels. -/
structure Offer where
  routines : Array Routine
  known : Set Label

/-- A machine offers what is expected. -/
structure Offer.Holds (offer : Offer) (machine : Machine) : Prop where
  routines : machine.routines = offer.routines
  known : ∀ label ∈ offer.known, (machine.memory.address? label).isSome = true

/-- A computation never goes wrong on a machine that offers what is expected, and
leaves such a machine behind. -/
def Harmless (offer : Offer) {α : Type} (part : Exec α) (returns : α → Prop) : Prop :=
  ∀ machine, offer.Holds machine →
    (∃ result final, part machine = .ok result final ∧ offer.Holds final ∧ returns result) ∨
    ∃ reason final, part machine = .error reason final ∧ offer.Holds final ∧ reason.isWrong = false

/-- A computation of whose result nothing is said. -/
abbrev IsHarmless (offer : Offer) {α : Type} (part : Exec α) : Prop :=
  Harmless offer part fun _ => True

namespace Harmless

variable {offer : Offer} {α β : Type} {part : Exec α} {next : α → Exec β}
  {returns : α → Prop}

theorem pure {value : α} (holds : returns value) : Harmless offer (pure value) returns :=
  fun machine offered => .inl ⟨value, machine, rfl, offered, holds⟩

theorem raise {fault : Fault} (expected : fault.isWrong = false) :
    Harmless offer (raise fault : Exec α) returns :=
  fun machine offered => .inr ⟨_, machine, rfl, offered, expected⟩

theorem bind {returnsNext : β → Prop} (left : Harmless offer part returns)
    (right : ∀ value, returns value → Harmless offer (next value) returnsNext) :
    Harmless offer (part >>= next) returnsNext := by
  intro machine offered
  rcases left machine offered with
    ⟨value, middle, done, offered, holds⟩ | ⟨reason, final, failed, offered, expected⟩
  · rcases right value holds middle offered with
      ⟨result, final, nextDone, offered, holds⟩ | ⟨reason, final, failed, offered, expected⟩
    · exact .inl ⟨result, final, bind_eq_ok.mpr ⟨_, _, done, nextDone⟩, offered, holds⟩
    · exact .inr ⟨reason, final, bind_eq_error.mpr (.inr ⟨_, _, done, failed⟩), offered, expected⟩
  · exact .inr ⟨reason, final, bind_eq_error.mpr (.inl failed), offered, expected⟩

theorem mono {returnsAlso : α → Prop} (harmless : Harmless offer part returns)
    (returning : ∀ result, returns result → returnsAlso result) :
    Harmless offer part returnsAlso := by
  intro machine offered
  rcases harmless machine offered with
    ⟨result, final, done, offered, holds⟩ | ⟨reason, final, failed, offered, expected⟩
  · exact .inl ⟨result, final, done, offered, returning result holds⟩
  · exact .inr ⟨reason, final, failed, offered, expected⟩

/-- A step that reads the machine or fails, without changing it. -/
theorem of_reads {part : Exec α}
    (reads : ∀ machine, offer.Holds machine → (∃ result, part machine = .ok result machine) ∨
      ∃ fault, part machine = .error (.fault fault) machine ∧ fault.isWrong = false) :
    IsHarmless offer part := by
  intro machine offered
  rcases reads machine offered with ⟨result, done⟩ | ⟨fault, failed, expected⟩
  · exact .inl ⟨result, machine, done, offered, trivial⟩
  · exact .inr ⟨_, machine, failed, offered, expected⟩

end Harmless

/-! ### What the machine does itself -/

section Primitives

variable {offer : Offer}

theorem harmless_get : IsHarmless offer (get : Exec Machine) :=
  .of_reads fun machine _ => .inl ⟨machine, rfl⟩

theorem memory_loadInt_expected {memory : Memory} {address : Int} {fault : Fault}
    (failed : memory.loadInt address = .error fault) : fault.isWrong = false := by
  unfold Memory.loadInt at failed
  split at failed
  · cases failed
  · obtain rfl := Except.error.inj failed
    rfl
  · obtain rfl := Except.error.inj failed
    rfl

theorem harmless_loadInt (address : Int) : IsHarmless offer (loadInt address) := by
  refine .of_reads fun machine _ => ?_
  unfold loadInt
  cases found : machine.memory.loadInt address with
  | ok value => exact .inl ⟨value, rfl⟩
  | error fault => exact .inr ⟨fault, rfl, memory_loadInt_expected found⟩

theorem Offer.Holds.writeWord {machine : Machine} (offered : offer.Holds machine) (address : Int)
    (value : Value) : offer.Holds (machine.writeWord address value) :=
  ⟨offered.routines, offered.known⟩

theorem Offer.Holds.registerPointers {machine : Machine} (offered : offer.Holds machine) :
    offer.Holds machine.registerPointers where
  routines := offered.routines
  known label member := by
    change (((machine.memory.labels.insert _ _).insert _ _).get? label).isSome = true
    rw [Table.get?_insert, Table.get?_insert]
    split
    · rfl
    · split
      · rfl
      · exact offered.known label member

theorem harmless_storeInt (address value : Int) : IsHarmless offer (storeInt address value) := by
  intro machine offered
  unfold storeInt
  split
  · exact .inl ⟨(), _, rfl, offered.writeWord address (.int value), trivial⟩
  · exact .inr ⟨_, machine, rfl, offered, rfl⟩

theorem harmless_storeInts (address : Int) (values : List Int) :
    IsHarmless offer (storeInts address values) := by
  induction values generalizing address with
  | nil => exact .pure trivial
  | cons value rest ih => exact (harmless_storeInt address value).bind fun _ _ => ih _

theorem harmless_labelAddress {label : Label} (known : label ∈ offer.known) :
    IsHarmless offer (labelAddress label) := by
  refine .of_reads fun machine offered => ?_
  obtain ⟨address, found⟩ := Option.isSome_iff_exists.mp (offered.known label known)
  refine .inl ⟨address, ?_⟩
  unfold labelAddress
  rw [found]

theorem harmless_compute (operator : Operator) (left right : Int) :
    IsHarmless offer (compute operator left right) := by
  unfold compute
  split
  · exact .pure trivial
  · exact .raise rfl

theorem harmless_write (piece : String) : IsHarmless offer (write piece) := by
  rintro ⟨memory, routines, random, output, framePointer, stackPointer⟩ offered
  cases output with
  | none => exact .inl ⟨(), _, rfl, offered, trivial⟩
  | some sink =>
      unfold write
      cases written : sink.write piece with
      | ok _ later =>
          refine .inl ⟨(), _, by simp only [written]; rfl, ?_, trivial⟩
          exact ⟨offered.routines, offered.known⟩
      | error reason later =>
          refine .inr ⟨_, _, by simp only [written]; rfl, ?_, rfl⟩
          exact ⟨offered.routines, offered.known⟩

theorem harmless_printLine (line : String) : IsHarmless offer (printLine line) :=
  (harmless_write line).bind fun _ _ => harmless_write _

theorem harmless_loadText (address : Int) : IsHarmless offer (loadText address) := by
  refine .of_reads fun machine _ => ?_
  unfold loadText
  cases found : machine.memory.load address with
  | ok value =>
      cases value with
      | str text => exact .inl ⟨text, rfl⟩
      | int _ | code _ => exact .inr ⟨_, rfl, rfl⟩
  | error fault =>
      refine .inr ⟨fault, rfl, ?_⟩
      unfold Memory.load at found
      split at found
      · cases found
      · obtain rfl := Except.error.inj found
        rfl

theorem harmless_drawInt (low high : Int) : IsHarmless offer (drawInt low high) := by
  intro machine offered
  unfold drawInt
  split
  · cases machine.random.draw? low high with
    | none => exact .inr ⟨_, machine, rfl, offered, rfl⟩
    | some drawn => exact .inl ⟨_, _, rfl, ⟨offered.routines, offered.known⟩, trivial⟩
  · exact .inr ⟨_, machine, rfl, offered, rfl⟩

theorem harmless_reseed (seed : Int) : IsHarmless offer (reseed seed) :=
  fun _ offered => .inl ⟨(), _, rfl, ⟨offered.routines, offered.known⟩, trivial⟩

theorem harmless_callBuiltin (builtin : Builtin) (arguments : List Int) :
    IsHarmless offer (callBuiltin builtin arguments) := by
  unfold callBuiltin
  split
  · exact (harmless_printLine _).bind fun _ _ => .pure trivial
  · exact (harmless_loadText _).bind fun _ _ =>
      (harmless_printLine _).bind fun _ _ => .pure trivial
  · exact (harmless_printLine _).bind fun _ _ => .pure trivial
  · exact harmless_drawInt _ _
  · exact (harmless_reseed _).bind fun _ _ => .pure trivial
  · exact .raise rfl

end Primitives

/-! ### Calls -/

section Calls

variable {offer : Offer} {body : Array Stmt → Table Label Nat → Exec Unit}

/-- All functions that a machine offers are flat, and running them is harmless. -/
def RunsHarmlessly (offer : Offer) (body : Array Stmt → Table Label Nat → Exec Unit) : Prop :=
  ∀ routine ∈ offer.routines, ∃ jumps, routine.jumps? = some jumps ∧
    IsHarmless offer (body routine.statements jumps)

theorem harmless_enter {routine : Routine} {jumps : Table Label Nat}
    (flat : routine.jumps? = some jumps) :
    Harmless offer (enter routine) fun result => result = jumps := by
  rintro ⟨memory, routines, random, output, framePointer, stackPointer⟩ offered
  unfold enter
  rw [flat]
  dsimp only
  split
  · exact .inr ⟨_, _, rfl, offered, rfl⟩
  · split
    · refine .inl ⟨jumps, _, rfl, Offer.Holds.registerPointers ?_, rfl⟩
      exact ⟨offered.routines, offered.known⟩
    · exact .inr ⟨_, _, rfl, offered, rfl⟩

theorem harmless_leave (routine : Routine) : IsHarmless offer (leave routine) := by
  have returns : IsHarmless offer (modify fun machine : Machine =>
      { machine with stackPointer := machine.framePointer }) :=
    fun machine offered => .inl ⟨_, _, rfl, ⟨offered.routines, offered.known⟩, trivial⟩
  refine returns.bind fun _ _ => ?_
  refine harmless_get.bind fun _ _ => ?_
  refine (harmless_loadInt _).bind fun saved _ machine offered => ?_
  refine .inl ⟨_, _, rfl, Offer.Holds.registerPointers ?_, trivial⟩
  exact ⟨offered.routines, offered.known⟩

theorem harmless_invoke (harmless : RunsHarmlessly offer body) {routine : Routine}
    (member : routine ∈ offer.routines) : IsHarmless offer (invoke body routine) := by
  obtain ⟨jumps, flat, runs⟩ := harmless routine member
  refine (harmless_enter flat).bind fun result same => ?_
  rw [same]
  exact runs.bind fun _ _ => harmless_leave routine

/-- What a label stands for is one of the functions of the machine. -/
theorem mem_of_routine? {machine : Machine} {label : Label} {routine : Routine}
    (found : machine.routine? label = some routine) : routine ∈ machine.routines := by
  unfold routine? at found
  split at found
  · exact Array.mem_of_getElem? found
  · cases found

theorem harmless_callRoutine (harmless : RunsHarmlessly offer body) (label : Label)
    (arguments : List Int) : IsHarmless offer (callLabel.callRoutine body label arguments) := by
  intro machine offered
  unfold callLabel.callRoutine
  cases found : machine.routine? label with
  | none =>
      refine .inr ⟨.fault (.notCallable label), machine, ?_, offered, rfl⟩
      refine bind_eq_error.mpr (.inr ⟨machine, machine, rfl, ?_⟩)
      rw [found]
      rfl
  | some routine =>
      have member : routine ∈ offer.routines := offered.routines ▸ mem_of_routine? found
      have calls : IsHarmless offer (do
          storeInts (← get).stackPointer arguments
          invoke body routine
          loadInt (← get).stackPointer) := by
        refine harmless_get.bind fun _ _ => (harmless_storeInts _ _).bind fun _ _ => ?_
        exact (harmless_invoke harmless member).bind fun _ _ =>
          harmless_get.bind fun _ _ => harmless_loadInt _
      rcases calls machine offered with
        ⟨result, final, done, offered, holds⟩ | ⟨reason, final, failed, offered, expected⟩
      · refine .inl ⟨result, final, bind_eq_ok.mpr ⟨machine, machine, rfl, ?_⟩, offered, holds⟩
        rw [found]
        exact done
      · refine .inr ⟨reason, final, bind_eq_error.mpr (.inr ⟨machine, machine, rfl, ?_⟩), offered,
          expected⟩
        rw [found]
        exact failed

theorem harmless_callLabel (harmless : RunsHarmlessly offer body) (label : Label)
    (arguments : List Int) : IsHarmless offer (callLabel body label arguments) := by
  unfold callLabel
  split
  · split
    · exact harmless_callBuiltin _ _
    · exact harmless_callRoutine harmless _ _
  · exact harmless_callRoutine harmless _ _

end Calls

end TreeBackend.Machine
