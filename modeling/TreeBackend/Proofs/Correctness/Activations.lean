import TreeBackend.Proofs.Correctness.Representation

/-!
# Beginning and ending an activation

The caller stores the static link and the arguments in words that nothing else needs, and they
are the parameters of the new activation.  When it ends, the result is where the static link
was, and the machine represents the same evaluation for the calls that remain.
-/

namespace TreeBackend

open Source
open Machine (Memory Keeps Routine)
open IR (Chunk Stmt)

section Words

variable {program : Program} {table : FrameTable} {chunks : List Chunk} {start machine : Machine}
  {live : List LiveCall} {world : World} {calls : List Call} {address : Int}

/-- Storing words that no cell and no frame needs. -/
theorem Represents.scratchWords (furnished : Furnished program table chunks start)
    (isLive : IsLive program table start live) (values : List Int)
    (represents : Represents table start live world machine)
    (scratch : ∀ position < values.length,
      IsScratch start (callsOf live) (address + Word.size * position))
    (aligned : address % Word.size = 0) :
    Machine.storeInts address values machine = .ok () (machine.writeWords address values) ∧
      Represents table start live world (machine.writeWords address values) ∧
      (∀ (position : Nat) (value : Int), values[position]? = some value →
        (machine.writeWords address values).memory.read? (address + Word.size * position) =
          some (.int value)) ∧
      ∀ place < address,
        (machine.writeWords address values).memory.read? place = machine.memory.read? place := by
  induction values generalizing address machine with
  | nil => exact ⟨rfl, represents, by simp, fun _ _ => rfl⟩
  | cons value rest ih =>
      have here : IsScratch start (callsOf live) address := by
        simpa using scratch 0 (Nat.zero_lt_succ _)
      obtain ⟨valid, representsFirst⟩ := represents.scratch furnished isLive here aligned value
      have others (position : Nat) (less : position < rest.length) :
          IsScratch start (callsOf live) (address + Word.size + Word.size * position) := by
        have next := scratch (position + 1) (Nat.succ_lt_succ less)
        have same : address + Word.size * ((position + 1 : Nat) : Int) =
            address + Word.size + Word.size * position := by
          unfold Word.size
          omega
        rwa [same] at next
      obtain ⟨stores, representsRest, words, below⟩ := ih representsFirst others (by
        unfold Word.size at *
        omega)
      have first : Machine.storeInt address value machine =
          .ok () (machine.writeWord address (.int value)) :=
        Machine.storeInt_eq_ok.mpr ⟨valid, rfl⟩
      refine ⟨Outcome.bind_eq_ok.mpr ⟨(), _, first, stores⟩, representsRest, ?_, ?_⟩
      · intro position found isThere
        cases position with
        | zero =>
            obtain rfl : value = found := by simpa using isThere
            have kept := below address (by unfold Word.size; omega)
            rw [Machine.read?_writeWord _ _ _ valid, if_pos rfl] at kept
            simpa [Machine.writeWords] using kept
        | succ position =>
            have same : address + Word.size * ((position + 1 : Nat) : Int) =
                address + Word.size + Word.size * position := by
              unfold Word.size
              omega
            rw [same]
            exact words position found (by simpa using isThere)
      · intro place less
        have kept := below place (by unfold Word.size; omega)
        rw [Machine.read?_writeWord _ _ _ valid, if_neg (by omega)] at kept
        exact kept

/-- What lies below the stack pointer, or at it, is needed by nothing. -/
theorem isScratch_of_le
    (stacked : Call.Stacked (start.memory.size - Word.size) start.memory.staticTop calls)
    (above : start.memory.staticTop ≤ address)
    (below : address ≤ Call.stackPointerOf (start.memory.size - Word.size) calls) :
    IsScratch start calls address := by
  have highest := stacked.stackPointerOf_le.1
  refine ⟨above, below.trans highest, fun call isHead => ?_⟩
  obtain ⟨older, rfl⟩ := List.head?_eq_some_iff.mp isHead
  have placed := stacked.placed.2.1
  simp only [Call.stackPointerOf] at below
  unfold Word.size at placed
  omega

/-- The words for what is passed in a call are needed by nothing else. -/
theorem isScratch_of_passed {callee : Source.Function} {routine : Routine} {position : Nat}
    (stack : IsStack program table start calls) (can : CanCall program table calls callee routine)
    (above : start.memory.staticTop ≤
      Call.stackPointerOf (start.memory.size - Word.size) calls)
    (inside : position ≤ callee.parameters.length) :
    IsScratch start calls
      (Call.stackPointerOf (start.memory.size - Word.size) calls + Word.size * position) := by
  cases calls with
  | nil =>
      have none : callee.parameters.length = 0 := by rw [can.passed.2]; rfl
      obtain rfl : position = 0 := by omega
      simp only [Call.stackPointerOf] at above ⊢
      exact ⟨by simpa using above, by simp, by simp⟩
  | cons caller older =>
      have room := can.passed.2
      obtain ⟨low, high⟩ := stack.stacked.1.bounds
      have below := stack.stacked.placed.2.2
      simp only [Call.stackPointerOf] at above ⊢
      refine ⟨by unfold Word.size; omega, ?_, ?_⟩
      · unfold callSize Word.size at *
        omega
      · rintro _ ⟨rfl⟩
        unfold callSize Word.size at *
        omega

end Words

/-! ### Entering -/

section Entering

variable {program : Program} {table : FrameTable} {chunks : List Chunk}
  {start machine : Machine} {live : List LiveCall} {world after : World} {here : LiveCall}
  {callee : Source.Function} {routine : Routine} {jumps : Table Label Nat} {values : List Int}

def newLive (start : Machine) (live : List LiveCall) (world : World) (callee : Source.Function)
    (routine : Routine) : LiveCall :=
  ⟨newCall start (callsOf live) callee routine, world.activations⟩

theorem IsLive.cons (isLive : IsLive program table start live)
    (represents : Represents table start live world machine)
    (stack : IsStack program table start
      (newCall start (callsOf live) callee routine :: callsOf live)) :
    IsLive program table start (newLive start live world callee routine :: live) where
  stack := stack
  once := by
    refine List.nodup_cons.mpr ⟨fun member => ?_, isLive.once⟩
    obtain ⟨other, isThere, same⟩ := List.mem_map.mp member
    have less := represents.numbered other isThere
    have same : other.activation = world.activations := same
    omega
  positive := List.forall_mem_cons.mpr ⟨represents.counted, isLive.positive⟩

theorem IsLive.tail (isLive : IsLive program table start (here :: live)) :
    IsLive program table start live where
  stack := (@IsStack.of_append _ _ _ _ [here.call]) isLive.stack
  once := (List.nodup_cons.mp isLive.once).2
  positive := (List.forall_mem_cons.mp isLive.positive).2

/-- The parameters lie one word above the other, above the static link. -/
theorem offset_of_parameter (hosts : Hosts program table start)
    (member : callee ∈ program.functions) {index : Nat} {parameter : Parameter}
    (found : callee.parameters[index]? = some parameter) :
    table.offset parameter.node.id = Word.size * ((index + 1 : Nat) : Int) := by
  obtain ⟨labels, laid⟩ := hosts.laidOut member
  have words := (hosts.scope.rooms callee member).parameters
  rw [FrameTable.offset, laid.parameters.getElem? words found]
  dsimp only
  unfold Word.size
  omega

theorem Stores.enter (hosts : Hosts program table start)
    (isLive : IsLive program table start (newLive start live world callee routine :: live))
    (stores : Stores table start live world machine)
    (assigned : Evaluation.assignAll world.activations callee.parameters values
      { world with activations := world.activations + 1 } = some ((), after))
    (passed : ∀ (index : Nat) (value : Int), values[index]? = some value →
      machine.memory.read? (Call.stackPointerOf (start.memory.size - Word.size) (callsOf live) +
        Word.size * ((index + 1 : Nat) : Int)) = some (.int value)) :
    Stores table start (newLive start live world callee routine :: live) after machine := by
  obtain ⟨-, activations, output, cells⟩ := assignAll_eq_some assigned
  have isFunction : callee ∈ program.functions := isLive.stack.function_mem
  refine ⟨?_, stores.constants, output ▸ stores.output, ?_, ?_, ?_⟩
  · intro cell address value lies found
    rcases cells cell value found with found | ⟨index, parameter, isThere, rfl, isValue⟩
    · have begun := stores.begun cell value found
      refine stores.cells cell address value ?_ found
      cases lies with
      | global outermost stored known => exact .global outermost stored known
      | stack member activation owned same =>
          rcases List.mem_cons.mp member with rfl | member
          · have isNew : cell.activation = world.activations := activation
            omega
          · exact .stack member activation owned same
    · have owned : parameter.node.id ∈ callee.ownedIds :=
        List.mem_append_left _ (List.mem_map_of_mem (List.mem_of_getElem? isThere))
      have isOwn : Cell.LiesAt table start (newLive start live world callee routine :: live)
          ⟨world.activations, parameter.node.id⟩ _ :=
        .stack (List.mem_cons_self ..) rfl owned rfl
      rw [lies.address_eq isLive isOwn, offset_of_parameter hosts isFunction isThere]
      exact passed index value isValue
  · intro cell value found
    rw [activations]
    rcases cells cell value found with found | ⟨index, parameter, isThere, rfl, isValue⟩
    · exact Nat.lt_succ_of_lt (stores.begun cell value found)
    · exact Nat.lt_succ_self _
  · intro other member
    rw [activations]
    rcases List.mem_cons.mp member with rfl | member
    · exact Nat.lt_succ_self _
    · exact Nat.lt_succ_of_lt (stores.numbered other member)
  · rw [activations]
    exact Nat.succ_pos _

/-- Other pointers leave the cells as they are. -/
theorem Stores.withPointers (stores : Stores table start live world machine)
    (framePointer stackPointer : Int) :
    Stores table start live world (machine.withPointers framePointer stackPointer) where
  cells := stores.cells
  constants := stores.constants
  output := stores.output
  begun := stores.begun
  numbered := stores.numbered
  counted := stores.counted

/-- The static link and the arguments of a call are passed where its frame will be. -/
theorem Represents.pass (furnished : Furnished program table chunks start)
    (isLive : IsLive program table start live)
    (represents : Represents table start live world machine)
    (can : CanCall program table (callsOf live) callee routine)
    (fits : start.memory.staticTop ≤ (newCall start (callsOf live) callee routine).top)
    (counted : values.length = callee.parameters.length) :
    ∃ stored,
      Machine.storeInts machine.stackPointer (Call.linkOf callee (callsOf live) :: values) machine =
        .ok () stored ∧
      Represents table start live world stored ∧
      Keeps start (callsOf live)
        ((Call.stackPointerOf (start.memory.size - Word.size) (callsOf live),
          Call.linkOf callee (callsOf live)) :: keptWordsIn start (callsOf live)) stored ∧
      ∀ (index : Nat) (value : Int), values[index]? = some value →
        stored.memory.read? (Call.stackPointerOf (start.memory.size - Word.size) (callsOf live) +
          Word.size * ((index + 1 : Nat) : Int)) = some (.int value) := by
  have hosts := furnished.toHosts
  have newStack := isLive.stack.cons hosts can fits
  have above : start.memory.staticTop ≤
      (newCall start (callsOf live) callee routine).framePointer := by
    have placed := newStack.stacked.placed
    have saved := newStack.stacked.1.bounds.1
    unfold Word.size at *
    omega
  obtain ⟨stores, stored, words, -⟩ := represents.scratchWords furnished isLive
    (Call.linkOf callee (callsOf live) :: values)
    (fun position inside => isScratch_of_passed isLive.stack can above
      (by simp only [List.length_cons] at inside; omega)) (isLive.stack.aligned hosts).1
  rw [← represents.keeps.points.stackPointer] at stores
  refine ⟨_, stores, ?_⟩
  rw [represents.keeps.points.stackPointer]
  have linked := words 0 _ rfl
  rw [Nat.cast_zero, Int.mul_zero, Int.add_zero] at linked
  refine ⟨stored, ⟨stored.keeps.steady, stored.keeps.points,
    List.forall_mem_cons.mpr ⟨linked, stored.keeps.words⟩⟩, fun index value found => ?_⟩
  exact words (index + 1) value (by simpa using found)

/-- The pointer of the caller is saved in a word that nothing else needs. -/
theorem IsStack.isScratch_savedAt (hosts : Hosts program table start) {call : Call}
    {older : List Call} (stack : IsStack program table start (call :: older)) :
    IsScratch start older call.savedAt ∧ call.savedAt % Word.size = 0 := by
  have whole := (stack.aligned hosts).2 call (List.mem_cons_self ..)
  have floor := stack.stacked.placed.1
  have below := stack.stacked.1.bounds
  have locals := stack.stacked.1.aligned
  have arguments := stack.stacked.1.arguments
  have pointer : call.framePointer = _ := stack.stacked.1.framePointer
  refine ⟨isScratch_of_le stack.stacked.2 ?_ ?_, ?_⟩ <;>
  · unfold Word.size at *
    omega

/-- A call passes the static link and the arguments, and makes a frame for the activation. -/
theorem Represents.enter (furnished : Furnished program table chunks start)
    (isLive : IsLive program table start live)
    (represents : Represents table start live world machine)
    (can : CanCall program table (callsOf live) callee routine)
    (fits : start.memory.staticTop ≤ (newCall start (callsOf live) callee routine).top)
    (isFlat : routine.jumps? = some jumps)
    (assigned : Evaluation.assignAll world.activations callee.parameters values
      { world with activations := world.activations + 1 } = some ((), after)) :
    ∃ stored entered,
      Machine.storeInts machine.stackPointer (Call.linkOf callee (callsOf live) :: values) machine =
        .ok () stored ∧
      Machine.enter routine stored = .ok jumps entered ∧
      IsLive program table start (newLive start live world callee routine :: live) ∧
      Represents table start (newLive start live world callee routine :: live) after entered := by
  have hosts := furnished.toHosts
  have newStack := isLive.stack.cons hosts can fits
  have newIsLive := isLive.cons represents newStack
  obtain ⟨stored, stores, representsStored, passed, words⟩ :=
    represents.pass furnished isLive can fits (assignAll_eq_some assigned).1
  obtain ⟨scratch, whole⟩ := newStack.isScratch_savedAt hosts
  obtain ⟨valid, saved⟩ := representsStored.scratch furnished isLive scratch whole
    stored.framePointer
  have top := representsStored.keeps.points.stackPointer
  have entered := @Machine.enter_eq stored routine jumps isFlat
    (by rw [top, representsStored.keeps.steady.staticTop]; exact fits)
    (by rw [top]; exact valid)
  refine ⟨stored, _, stores, entered, newIsLive, ⟨?_, (enter_keeps hosts isLive.stack can passed
    entered).2⟩⟩
  rw [top]
  -- The pointer is saved below the words that were passed.
  refine Stores.withPointers (saved.toStores.enter hosts newIsLive assigned ?_) _ _
  intro index value found
  refine (Machine.read?_writeWord _ _ _ valid).trans ((if_neg ?_).trans (words index value found))
  have below := newStack.stacked.1.bounds.1
  have pointer : (newCall start (callsOf live) callee routine).framePointer =
      Call.stackPointerOf (start.memory.size - Word.size) (callsOf live) := rfl
  unfold Word.size at *
  omega

end Entering

/-! ### Leaving -/

section Leaving

variable {program : Program} {table : FrameTable} {chunks : List Chunk} {start machine : Machine}
  {live more : List LiveCall} {world : World} {here : LiveCall}

/-- Fewer calls have fewer cells. -/
theorem Stores.mono (stores : Stores table start more world machine) (includes : live ⊆ more) :
    Stores table start live world machine where
  cells cell address value lies := stores.cells cell address value (lies.mono includes)
  constants := stores.constants
  output := stores.output
  begun := stores.begun
  numbered other member := stores.numbered other (includes member)
  counted := stores.counted

/-- A call that has stored its result leaves the cells of the others, and the result is where
the stack pointer points. -/
theorem Represents.leave (furnished : Furnished program table chunks start)
    (isLive : IsLive program table start (here :: live))
    (represents : Represents table start (here :: live) world machine) (result : Int) :
    machine.memory.isAddress here.call.framePointer = true ∧ ∃ final,
      Machine.leave here.call.routine
        (machine.writeWord here.call.framePointer (.int result)) = .ok () final ∧
      Represents table start live world final ∧
      final.memory.read? final.stackPointer = some (.int result) := by
  have hosts := furnished.toHosts
  have stacked := isLive.stack.stacked
  have pointer : here.call.framePointer =
      Call.stackPointerOf (start.memory.size - Word.size) (callsOf live) := stacked.1.framePointer
  have scratch : IsScratch start (callsOf live) here.call.framePointer := by
    have placed := stacked.placed
    have saved := stacked.1.bounds.1
    refine isScratch_of_le isLive.tail.stack.stacked ?_ (Int.le_of_eq pointer)
    unfold Word.size at *
    omega
  have startValid := scratch.isAddress hosts
    ((isLive.stack.aligned hosts).2 _ (List.mem_cons_self ..))
  have valid := represents.keeps.isAddress startValid
  have finished := (represents.keeps.mono (Call.finishedWords_subset ..)).writeWord result valid
    stacked.ne_framePointer
  have stores := (represents.toStores.mono (List.subset_cons_self ..)).writeWord valid
    (furnished.blank _ scratch.1 startValid)
    (fun cell place lies => lies.ne_of_isScratch hosts isLive.tail scratch) result
  have saved := finished.words _ (List.mem_cons_self ..)
  have points := finished.points.framePointer
  have left := @Machine.leave_eq (machine.writeWord here.call.framePointer (.int result))
    here.call.routine _ (by rw [points]; exact saved)
  refine ⟨valid, _, left, ⟨stores.withPointers _ _, leave_keeps isLive.stack finished left⟩, ?_⟩
  rw [Machine.stackPointer_withPointers, Machine.read?_withPointers, points,
    Machine.read?_writeWord _ _ _ valid]
  exact if_pos rfl

end Leaving

end TreeBackend
