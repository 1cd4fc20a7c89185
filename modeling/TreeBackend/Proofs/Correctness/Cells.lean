import Mathlib.Data.List.Nodup
import TreeBackend.Proofs.Calls.Hosting
import TreeBackend.Proofs.Source.Evaluation

/-!
# Where the cells of an evaluation lie

Each activation that has not come to an end is carried out by a call of the machine, and its
cells are words in the frame of that call.  No two cells share a word, and what a call does
below its saved pointer, where it passes arguments and where its callees have their frames,
reaches no cell at all.
-/

namespace TreeBackend

open Source
open Machine (Memory)
open IR (Chunk)

/-- A machine into which the chunks of a program have been loaded, before it runs, with what
its memory holds. -/
structure Furnished (program : Program) (table : FrameTable) (chunks : List Chunk)
    (start : Machine) : Prop extends Hosts program table start where
  code : ∀ function ∈ program.functions, ∃ frame items,
    table.frame? function.node.id = some frame ∧
      function.CompilesTo program table chunks items ∧
      (Flattening.definedLabels items).Nodup ∧ Machine.NoBuiltin frame.label ∧
      start.routine? frame.label = some (.ofBody frame (.seq items))
  text : ∀ slot text, .data slot text ∈ chunks →
    slot.label ≠ .framePointer ∧ slot.label ≠ .stackPointer ∧
      ∃ address, start.memory.address? slot.label = some address ∧
        start.memory.read? address = some (.str text)
  zero : ∀ definition slot, table.storage? definition = some (.global slot) →
    ∃ address, start.memory.address? slot.label = some address ∧
      start.memory.read? address = some (.int 0)
  apartGlobals : ∀ definition slot other otherSlot,
    table.storage? definition = some (.global slot) →
    table.storage? other = some (.global otherSlot) →
    start.memory.address? slot.label = start.memory.address? otherSlot.label →
      definition = other
  blank : start.memory.IsBlankFrom start.memory.staticTop

/-- A call and the activation that it carries out. -/
structure LiveCall where
  call : Call
  activation : Nat

/-- The calls that carry out activations, the innermost one first. -/
abbrev callsOf (live : List LiveCall) : List Call := live.map LiveCall.call

/-! ### Frames apart -/

namespace Call

variable {base floor : Int} {calls : List Call}

/-- What an inner call owns lies below the saved pointers of the calls around it. -/
theorem Stacked.pairwise (stacked : Stacked base floor calls) :
    calls.Pairwise fun newer older =>
      newer.framePointer + Word.size * newer.function.parameters.length < older.savedAt := by
  induction calls with
  | nil => exact .nil
  | cons call older ih =>
      refine .cons (fun other member => ?_) (ih stacked.2)
      cases older with
      | nil => cases member
      | cons caller rest =>
          have passed := stacked.1.passed caller rfl
          have same : call.framePointer = caller.top := stacked.1.framePointer
          obtain ⟨low, high⟩ := stacked.2.1.bounds
          unfold callSize at passed
          rcases List.mem_cons.mp member with rfl | member
          · unfold Word.size at *
            omega
          · have above := List.rel_of_pairwise_cons (ih stacked.2) member
            unfold Word.size at *
            omega

theorem Stacked.of_mem {call : Call} (stacked : Stacked base floor calls) (member : call ∈ calls) :
    ∃ older, Stacked base floor (call :: older) := by
  obtain ⟨newer, older, rfl⟩ := List.append_of_mem member
  exact ⟨older, stacked.of_append⟩

end Call

/-! ### The places of cells -/

/-- Calls that carry out different activations, with frames that lie one below the other. -/
structure IsLive (program : Program) (table : FrameTable) (start : Machine)
    (live : List LiveCall) : Prop where
  stack : IsStack program table start (callsOf live)
  once : (live.map LiveCall.activation).Nodup
  /-- Activation zero is that of the global variables. -/
  positive : ∀ here ∈ live, 0 < here.activation

/-- A cell lies at an address: that of a global variable, or that of a word in the frame of the
call that carries out its activation. -/
inductive Source.Cell.LiesAt (table : FrameTable) (start : Machine) (live : List LiveCall)
    (cell : Cell) (address : Int) : Prop where
  | global {slot : GlobalSlot} :
      cell.activation = 0 → table.storage? cell.definition = some (.global slot) →
      start.memory.address? slot.label = some address → LiesAt table start live cell address
  | stack {here : LiveCall} :
      here ∈ live → cell.activation = here.activation →
      cell.definition ∈ here.call.function.ownedIds →
      address = here.call.framePointer + table.offset cell.definition →
      LiesAt table start live cell address

/-- A word that no cell and no frame needs while certain calls are open: above the static area
and below what the innermost call has saved. -/
def IsScratch (start : Machine) (calls : List Call) (address : Int) : Prop :=
  start.memory.staticTop ≤ address ∧ address ≤ start.memory.size - Word.size ∧
    ∀ call ∈ calls.head?, address < call.savedAt

section Cells

variable {program : Program} {table : FrameTable} {start : Machine} {live : List LiveCall}
  {chunks : List Chunk} {here there : LiveCall} {cell other : Cell} {address place : Int}
  {definition : NodeId}

theorem IsLive.function_mem (isLive : IsLive program table start live) (member : here ∈ live) :
    here.call.function ∈ program.functions :=
  isLive.stack.nested.mem_of_mem (List.mem_map.mpr ⟨here, member, rfl⟩)

theorem IsLive.offset_bounds (hosts : Hosts program table start)
    (isLive : IsLive program table start live) (member : here ∈ live)
    (owned : definition ∈ here.call.function.ownedIds) :
    table.offset definition % Word.size = 0 ∧ table.offset definition ≠ 0 ∧
      here.call.savedAt < here.call.framePointer + table.offset definition ∧
      table.offset definition ≤ Word.size * here.call.function.parameters.length := by
  have isOpen : here.call ∈ callsOf live := List.mem_map.mpr ⟨here, member, rfl⟩
  obtain ⟨aligned, nonzero, low, high⟩ := isLive.stack.offset_bounds hosts isOpen owned
  obtain ⟨older, stacked⟩ := isLive.stack.stacked.of_mem isOpen
  have saved := stacked.1.bounds.1
  refine ⟨aligned, nonzero, ?_, high⟩
  unfold Word.size at *
  omega

theorem IsLive.apart (isLive : IsLive program table start live) (member : here ∈ live)
    (otherMember : there ∈ live) (differ : here ≠ there) :
    here.call.framePointer + Word.size * here.call.function.parameters.length <
        there.call.savedAt ∨
      there.call.framePointer + Word.size * there.call.function.parameters.length <
        here.call.savedAt := by
  let isBelow := fun inner outer : LiveCall => inner.call.framePointer +
    Word.size * inner.call.function.parameters.length < outer.call.savedAt
  have below : live.Pairwise isBelow := List.pairwise_map.mp isLive.stack.stacked.pairwise
  have symmetric : Std.Symm fun first second => isBelow first second ∨ isBelow second first :=
    ⟨fun _ _ => Or.symm⟩
  have apart : live.Pairwise fun first second => isBelow first second ∨ isBelow second first :=
    below.imp Or.inl
  exact apart.forall member otherMember differ

theorem IsLive.eq_of_activation_eq (isLive : IsLive program table start live)
    (member : here ∈ live) (otherMember : there ∈ live)
    (same : here.activation = there.activation) : here = there :=
  List.inj_on_of_nodup_map isLive.once member otherMember same

theorem IsStack.aligned (hosts : Hosts program table start) {calls : List Call}
    (stack : IsStack program table start calls) :
    Call.stackPointerOf (start.memory.size - Word.size) calls % Word.size = 0 ∧
      ∀ call ∈ calls, call.framePointer % Word.size = 0 := by
  induction calls with
  | nil =>
      refine ⟨?_, by simp⟩
      simp only [Call.stackPointerOf, Memory.size]
      unfold Word.size
      omega
  | cons call older ih =>
      obtain ⟨above, others⟩ := ih ((@IsStack.of_append _ _ _ _ [call]) stack)
      have isFunction := stack.function_mem
      have runs := stack.routines call (List.mem_cons_self ..)
      obtain ⟨labels, laid⟩ := hosts.laidOut isFunction
      obtain ⟨label, -, isFrame⟩ := laid.frame
      have arguments := (argumentsSize_frame program.resolution call.function label).2.1
      rw [← Option.some_inj.mp (runs.frame.symm.trans isFrame)] at arguments
      have same := stack.stacked.1.framePointer
      obtain ⟨low, high⟩ := stack.stacked.1.bounds
      have aligned := stack.stacked.1.aligned
      rw [← same] at above
      refine ⟨?_, List.forall_mem_cons.mpr ⟨above, others⟩⟩
      simp only [Call.stackPointerOf]
      unfold Word.size at *
      omega

/-- A cell lies at a word of the memory, and all of the stack lies above the static area. -/
theorem Source.Cell.LiesAt.isAddress (hosts : Hosts program table start)
    (isLive : IsLive program table start live) (lies : cell.LiesAt table start live address) :
    start.memory.isAddress address = true := by
  cases lies with
  | global _ stored known =>
      obtain ⟨-, -, place, -, knownPlace, value, found⟩ := hosts.global _ _ stored
      obtain rfl := Option.some_inj.mp (known.symm.trans knownPlace)
      unfold Memory.read? at found
      split at found
      · assumption
      · cases found
  | @stack here member _ owned same =>
      subst same
      obtain ⟨aligned, -, low, high⟩ := isLive.offset_bounds hosts member owned
      have isCall : here.call ∈ callsOf live := List.mem_map.mpr ⟨here, member, rfl⟩
      have whole := (isLive.stack.aligned hosts).2 here.call isCall
      obtain ⟨older, stacked⟩ := isLive.stack.stacked.of_mem isCall
      obtain ⟨floor, above, below⟩ := stacked.placed
      have staticTop := hosts.staticTop
      rw [Memory.isAddress_iff]
      refine ⟨by unfold Word.size at *; omega, by unfold Word.size at *; omega, ?_⟩
      cases older with
      | nil =>
          rw [stacked.1.outermost rfl] at high
          simp only [List.length_nil] at high
          unfold Word.size at *
          omega
      | cons caller rest =>
          have inner := List.rel_of_pairwise_cons stacked.pairwise
            (List.mem_cons_self ..)
          have outer := stacked.2.placed.2.2
          have saved := stacked.2.1.bounds.1
          unfold Word.size at *
          omega

/-- A global variable lies in the static area. -/
theorem Hosts.global_lt (hosts : Hosts program table start) {slot : GlobalSlot}
    (stored : table.storage? definition = some (.global slot))
    (known : start.memory.address? slot.label = some address) :
    address < start.memory.staticTop := by
  obtain ⟨-, -, place, below, knownPlace, -⟩ := hosts.global _ _ stored
  obtain rfl := Option.some_inj.mp (known.symm.trans knownPlace)
  exact below

/-- What a call owns lies above the static area. -/
theorem IsLive.staticTop_lt (hosts : Hosts program table start)
    (isLive : IsLive program table start live) (member : here ∈ live)
    (owned : definition ∈ here.call.function.ownedIds) :
    start.memory.staticTop < here.call.framePointer + table.offset definition := by
  obtain ⟨older, stacked⟩ := isLive.stack.stacked.of_mem (List.mem_map.mpr ⟨here, member, rfl⟩)
  obtain ⟨floor, above, -⟩ := stacked.placed
  have low := (isLive.offset_bounds hosts member owned).2.2.1
  unfold Word.size at *
  omega

namespace Source.Cell.LiesAt

theorem address_eq (isLive : IsLive program table start live)
    (lies : cell.LiesAt table start live address) (again : cell.LiesAt table start live place) :
    address = place := by
  cases lies with
  | global outermost stored known =>
      cases again with
      | global _ storedAgain knownAgain =>
          obtain rfl := Storage.global.inj (Option.some_inj.mp (stored.symm.trans storedAgain))
          exact Option.some_inj.mp (known.symm.trans knownAgain)
      | stack member activation =>
          have positive := isLive.positive _ member
          omega
  | stack member activation owned same =>
      cases again with
      | global outermost =>
          have positive := isLive.positive _ member
          omega
      | stack otherMember otherActivation otherOwned otherSame =>
          rw [same, otherSame, isLive.eq_of_activation_eq member otherMember
            (activation.symm.trans otherActivation)]

theorem cell_eq (furnished : Furnished program table chunks start)
    (isLive : IsLive program table start live) (lies : cell.LiesAt table start live address)
    (otherLies : other.LiesAt table start live address) : cell = other := by
  have hosts := furnished.toHosts
  have sameCell (activation : cell.activation = other.activation)
      (definition : cell.definition = other.definition) : cell = other := by
    cases cell
    cases other
    simp_all
  cases lies with
  | global outermost stored known =>
      cases otherLies with
      | global otherOutermost otherStored otherKnown =>
          exact sameCell (outermost.trans otherOutermost.symm) (furnished.apartGlobals _ _ _ _
            stored otherStored (known.trans otherKnown.symm))
      | stack member _ owned same =>
          have below := hosts.global_lt stored known
          have above := isLive.staticTop_lt hosts member owned
          omega
  | @stack here member activation owned same =>
      cases otherLies with
      | global _ otherStored otherKnown =>
          have below := hosts.global_lt otherStored otherKnown
          have above := isLive.staticTop_lt hosts member owned
          omega
      | @stack there otherMember otherActivation otherOwned otherSame =>
          obtain ⟨-, -, low, high⟩ := isLive.offset_bounds hosts member owned
          obtain ⟨-, -, otherLow, otherHigh⟩ :=
            isLive.offset_bounds hosts otherMember otherOwned
          -- In one frame offsets tell cells apart, and two frames have no word in common.
          by_cases differ : here = there
          · subst differ
            have isFunction := isLive.function_mem member
            obtain ⟨labels, laid⟩ := hosts.laidOut isFunction
            exact sameCell (activation.trans otherActivation.symm) (laid.offset_injective
              (hosts.scope.rooms _ isFunction) (hosts.frameFits isFunction) owned otherOwned
              (by omega))
          · rcases isLive.apart member otherMember differ with apart | apart <;> omega

/-- What no cell and no frame needs is the word of no cell. -/
theorem ne_of_isScratch (hosts : Hosts program table start)
    (isLive : IsLive program table start live) (lies : cell.LiesAt table start live address)
    (scratch : IsScratch start (callsOf live) place) : address ≠ place := by
  obtain ⟨floor, -, below⟩ := scratch
  cases lies with
  | global _ stored known =>
      have inside := hosts.global_lt stored known
      omega
  | @stack here member _ owned same =>
      obtain ⟨-, -, low, -⟩ := isLive.offset_bounds hosts member owned
      cases live with
      | nil => cases member
      | cons innermost older =>
          have belowInnermost := below innermost.call rfl
          rcases List.mem_cons.mp member with rfl | member
          · omega
          · have outer := List.rel_of_pairwise_cons isLive.stack.stacked.pairwise
              (List.mem_map.mpr ⟨here, member, rfl⟩)
            have saved := isLive.stack.stacked.1.bounds.1
            unfold Word.size at *
            omega

theorem ne_of_mem_keptWords (hosts : Hosts program table start)
    (isLive : IsLive program table start live) (lies : cell.LiesAt table start live address) :
    ∀ word ∈ keptWordsIn start (callsOf live), word.1 ≠ address := by
  cases lies with
  | global _ stored known =>
      have inside := hosts.global_lt stored known
      refine isLive.stack.stacked.ne_of_lt fun call isHead => ?_
      obtain ⟨rest, split⟩ := List.head?_eq_some_iff.mp isHead
      have stacked := isLive.stack.stacked
      rw [split] at stacked
      have placed := stacked.placed.1
      have arguments := stacked.1.arguments
      unfold Word.size
      omega
  | @stack here member _ owned same =>
      have isOpen : here.call ∈ callsOf live := List.mem_map.mpr ⟨here, member, rfl⟩
      obtain ⟨-, nonzero, low, high⟩ := isLive.stack.offset_bounds hosts isOpen owned
      have stacked := isLive.stack.stacked
      obtain ⟨newer, older, split⟩ : ∃ newer older, callsOf live = newer ++ here.call :: older :=
        List.append_of_mem isOpen
      rw [split] at stacked
      rw [split, same]
      exact stacked.ne_of_offset nonzero low high

theorem mono {more : List LiveCall} (lies : cell.LiesAt table start live address)
    (includes : live ⊆ more) : cell.LiesAt table start more address := by
  cases lies with
  | global outermost stored known => exact .global outermost stored known
  | stack member activation owned same => exact .stack (includes member) activation owned same

end Source.Cell.LiesAt

/-- What no cell and no frame needs is no kept word. -/
theorem IsScratch.ne_of_mem_keptWords {calls : List Call}
    (stacked : Call.Stacked (start.memory.size - Word.size) start.memory.staticTop calls)
    (scratch : IsScratch start calls address) :
    ∀ word ∈ keptWordsIn start calls, word.1 ≠ address := by
  refine stacked.ne_of_lt fun call isHead => ?_
  obtain ⟨older, rfl⟩ := List.head?_eq_some_iff.mp isHead
  have below := scratch.2.2 call rfl
  have saved := stacked.1.bounds.2
  omega

theorem IsScratch.isAddress {calls : List Call} (hosts : Hosts program table start)
    (scratch : IsScratch start calls address) (aligned : address % Word.size = 0) :
    start.memory.isAddress address = true := by
  obtain ⟨low, high, -⟩ := scratch
  have staticTop := hosts.staticTop
  rw [Memory.isAddress_iff]
  unfold Word.size at *
  omega

end Cells

end TreeBackend
