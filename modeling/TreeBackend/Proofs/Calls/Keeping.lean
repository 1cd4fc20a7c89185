import TreeBackend.Proofs.Calls.Stack
import TreeBackend.Proofs.Lowering.Discipline
import TreeBackend.Proofs.Machine.FlatRun
import TreeBackend.Proofs.Machine.Steady

/-!
# What code finds in the frames of calls

As long as the kept words of all frames hold what they should, the static links lead from
the frame of a call to those of the functions around it, and the cells to which its code
stores are none of the kept words.
-/

namespace TreeBackend

open Source Lowering
open IR (Stmt)
open Machine (Exec Temps Points eval)

/-- A routine is the code of a function. -/
structure Source.Function.RunsAs (program : Program) (table : FrameTable) (function : Function)
    (routine : Machine.Routine) : Prop where
  frame : table.frame? function.node.id = some routine.frame
  flat : routine.jumps?.isSome = true
  code : ∃ before result, routine.statements = (bodyOf before result).toArray ∧
    KeepsBody (function.discipline program table) before result

/-- The frames of a program have sizes that a word can hold. -/
def Source.Program.FramesFit (program : Program) : Prop :=
  ∀ function ∈ program.functions, Word.Fits (function.frameExtent program.resolution)

instance (program : Program) : Decidable program.FramesFit :=
  inferInstanceAs (Decidable (∀ function ∈ program.functions, _))

/-- A machine into which a lexically scoped program has been loaded, before it runs. -/
structure Hosts (program : Program) (table : FrameTable) (start : Machine) : Prop where
  scope : program.IsConfined
  laid : ∃ labels, program.LaidOut table labels
  fits : program.FramesFit
  size : Word.Fits start.memory.size
  staticTop : 0 ≤ start.memory.staticTop
  points : start.Points (start.memory.size - Word.size) (start.memory.size - Word.size)
  routine : ∀ label routine, label ≠ .framePointer → label ≠ .stackPointer →
    start.routine? label = some routine → routine.frame.label = label ∧
      ∃ function ∈ program.functions, function.RunsAs program table routine
  apart : ∀ function ∈ program.functions, ∀ other ∈ program.functions, ∀ frame otherFrame,
    table.frame? function.node.id = some frame → table.frame? other.node.id = some otherFrame →
    frame.label = otherFrame.label → function = other
  noPointer : ∀ function ∈ program.functions, ∀ frame, table.frame? function.node.id = some frame →
    frame.label ≠ .framePointer ∧ frame.label ≠ .stackPointer
  global : ∀ definition slot, table.storage? definition = some (.global slot) →
    slot.label ≠ .framePointer ∧ slot.label ≠ .stackPointer ∧
      ∃ address < start.memory.staticTop, start.memory.address? slot.label = some address ∧
        ∃ value, start.memory.read? address = some (.int value)

namespace Machine

variable {start machine : Machine}

/-- While the innermost one of some calls runs, or none does, certain words hold what they
should. -/
structure Keeps (start : Machine) (calls : List Call) (words : List (Int × Int))
    (machine : Machine) : Prop where
  steady : Steady start machine
  points : machine.Points (Call.framePointerOf (start.memory.size - Word.size) calls)
    (Call.stackPointerOf (start.memory.size - Word.size) calls)
  words : ∀ word ∈ words, machine.memory.read? word.1 = some (.int word.2)

variable {calls : List Call} {words fewer : List (Int × Int)}

theorem Keeps.mono (keeps : Keeps start calls words machine) (includes : fewer ⊆ words) :
    Keeps start calls fewer machine :=
  ⟨keeps.steady, keeps.points, fun word member => keeps.words word (includes member)⟩

/-- While the same calls are open, all labels have the same addresses. -/
theorem Keeps.sameLabels {other : Machine} {otherWords : List (Int × Int)}
    (keeps : Keeps start calls words machine) (otherKeeps : Keeps start calls otherWords other) :
    SameLabels machine other := by
  intro label
  by_cases isFrame : label = .framePointer
  · rw [isFrame, keeps.points.frameLabel, otherKeeps.points.frameLabel]
  · by_cases isStack : label = .stackPointer
    · rw [isStack, keeps.points.stackLabel, otherKeeps.points.stackLabel]
    · rw [keeps.steady.labels label isFrame isStack, otherKeeps.steady.labels label isFrame isStack]

/-- A store elsewhere leaves the words as they are. -/
theorem Keeps.writeWord (keeps : Keeps start calls words machine) {address : Int} (value : Int)
    (valid : machine.memory.isAddress address = true) (free : ∀ word ∈ words, word.1 ≠ address) :
    Keeps start calls words (machine.writeWord address (.int value)) where
  steady := keeps.steady.writeWord value valid
  points := ⟨keeps.points.framePointer, keeps.points.stackPointer, keeps.points.frameLabel,
    keeps.points.stackLabel⟩
  words word member := by
    rw [read?_writeWord _ _ _ valid, if_neg (free word member).symm]
    exact keeps.words word member

/-- Output and random numbers are apart from memory. -/
theorem Keeps.withEffects (keeps : Keeps start calls words machine) (random : Random.Source)
    (output : Option Sink) : Keeps start calls words { machine with random, output } where
  steady := ⟨keeps.steady.size, keeps.steady.staticTop, keeps.steady.routines,
    keeps.steady.labels, keeps.steady.codes⟩
  points := ⟨keeps.points.framePointer, keeps.points.stackPointer, keeps.points.frameLabel,
    keeps.points.stackLabel⟩
  words := keeps.words

end Machine

open Machine (Keeps)

/-- The calls that have not returned, the innermost one first. -/
structure IsStack (program : Program) (table : FrameTable) (start : Machine) (calls : List Call) :
    Prop where
  stacked : Call.Stacked (start.memory.size - Word.size) start.memory.staticTop calls
  nested : Call.Nested program calls
  routines : ∀ call ∈ calls, call.function.RunsAs program table call.routine

/-- The words of the frames of calls that must not change in a machine. -/
abbrev keptWordsIn (start : Machine) (calls : List Call) : List (Int × Int) :=
  Call.keptWords (start.memory.size - Word.size) calls

abbrev finishedWordsIn (start : Machine) (calls : List Call) : List (Int × Int) :=
  Call.finishedWords (start.memory.size - Word.size) calls

/-- The value of an expression while certain calls are open, whatever else memory holds. -/
def Denotes (start : Machine) (calls : List Call) (expression : IR.Expr) (value : Int) : Prop :=
  ∀ (call : Label → List Int → Exec Int) (temps : Temps) (machine : Machine),
    Keeps start calls (keptWordsIn start calls) machine →
      eval call temps expression machine = .ok value machine

section Denotes

variable {program : Program} {table : FrameTable} {start : Machine} {call : Call}
  {older calls : List Call}

theorem IsStack.function_mem (stack : IsStack program table start (call :: older)) :
    call.function ∈ program.functions := stack.nested.mem_functions

theorem IsStack.of_append {newer : List Call}
    (stack : IsStack program table start (newer ++ calls)) :
    IsStack program table start calls :=
  ⟨stack.stacked.of_append, stack.nested.of_append,
    fun call member => stack.routines call (List.mem_append_right _ member)⟩

theorem keptWordsIn_of_append {newer : List Call} :
    keptWordsIn start calls ⊆ keptWordsIn start (newer ++ calls) := by
  induction newer with
  | nil => exact List.Subset.refl _
  | cons call newer ih =>
      exact fun word member => List.mem_cons_of_mem _ (List.mem_cons_of_mem _ (ih member))

theorem Call.Nested.linkOf_eq (distinct : program.definitionIds.Nodup) {inner : List Call}
    {found : Call} (nested : Call.Nested program (inner ++ found :: older)) {function : Function}
    (direct : function.around.head? = some found.function.node.id)
    (within : ∀ other ∈ inner, found.function.node.id ∈ other.function.around) :
    Call.linkOf function (inner ++ found :: older) = found.framePointer := by
  have latest := (nested.latest?_append distinct within).1
  obtain ⟨rest, split⟩ := List.head?_eq_some_iff.mp direct
  simp [Call.linkOf, split, latest]

theorem eval_framePointer {eval' : Label → List Int → Exec Int} {temps : Temps} {machine : Machine}
    {words : List (Int × Int)} (keeps : Keeps start (call :: older) words machine) :
    eval eval' temps .framePointer machine = .ok call.framePointer machine := by
  rw [IR.Expr.framePointer, Machine.eval_name]
  exact Machine.labelAddress_eq_ok.mpr ⟨keeps.points.frameLabel, rfl⟩

/-- Static links lead from the frame of a call to the frame of each function around it: that
of the latest call of the function. -/
theorem IsStack.denotes_enclosingFrame (distinct : program.definitionIds.Nodup)
    (stack : IsStack program table start (call :: older)) {hops : Nat} {outer : Function}
    (outerMember : outer ∈ program.functions)
    (isThere : (call.function.node.id :: call.function.around)[hops]? = some outer.node.id) :
    ∃ inner found outermost, call :: older = inner ++ found :: outermost ∧
      found.function = outer ∧ (∀ other ∈ inner, outer.node.id ∈ other.function.around) ∧
      Denotes start (call :: older) (enclosingFrame hops) found.framePointer := by
  induction hops generalizing outer with
  | zero =>
      have same : call.function.node.id = outer.node.id := by simpa using isThere
      refine ⟨[], call, older, rfl, ?_, by simp, fun _ _ _ => eval_framePointer⟩
      exact Program.eq_of_id_eq distinct stack.nested.mem_functions outerMember same
  | succ hops ih =>
      obtain ⟨inner, innerMember, isInner, direct⟩ :=
        Program.exists_inner distinct stack.nested.mem_functions outerMember isThere
      obtain ⟨newer, found, rest, split, rfl, within, denotes⟩ := ih innerMember isInner
      rw [split] at stack denotes ⊢
      obtain ⟨caller, older, rfl, visible⟩ :=
        stack.of_append.nested.exists_caller (by simp [direct])
      have olderStack := (@IsStack.of_append _ _ _ _ [found]) stack.of_append
      obtain ⟨between, next, outermost, later, same, withinNext⟩ :=
        olderStack.nested.exists_latest distinct (visible outer.node.id (by simp [direct]))
      rw [later] at stack olderStack denotes ⊢
      have linked := olderStack.nested.linkOf_eq distinct
        (show found.function.around.head? = _ by rw [direct, same]; rfl) (same ▸ withinNext)
      have nextMember := olderStack.nested.of_append.mem_functions
      refine ⟨newer ++ found :: between, next, outermost, by simp,
        Program.eq_of_id_eq distinct nextMember outerMember same, ?_, fun _ _ machine keeps => ?_⟩
      · refine List.forall_mem_append.mpr ⟨fun other member => ?_, ?_⟩
        · obtain ⟨_, outside⟩ := Program.around_split distinct
            (stack.nested.mem_of_mem (List.mem_append_left _ member)) innerMember
              (within other member)
          rw [outside, direct]
          simp
        · exact List.forall_mem_cons.mpr ⟨by simp [direct], withinNext⟩
      · refine Machine.eval_mem_eq_ok.mpr ⟨found.framePointer, denotes _ _ machine keeps, ?_⟩
        have kept : (found.framePointer, next.framePointer) ∈
            keptWordsIn start (newer ++ found :: (between ++ next :: outermost)) :=
          keptWordsIn_of_append (linked ▸ List.mem_cons_of_mem _ (List.mem_cons_self ..))
        exact Machine.memory_loadInt_eq_ok.mpr (keeps.words _ kept)

/-! ### What the code of a function stores and calls -/

/-- The layout of the frame of a function. -/
theorem Hosts.laidOut (hosts : Hosts program table start) {function : Function}
    (member : function ∈ program.functions) : ∃ labels,
      function.LaidOut program.resolution table {} labels := by
  obtain ⟨labels, laid⟩ := hosts.laid
  exact ⟨labels, laid.functions.each function member⟩

theorem Hosts.frameFits (hosts : Hosts program table start) {function : Function}
    (member : function ∈ program.functions) : function.FrameFits program.resolution :=
  ⟨fun owned isLocal => Int.le_trans (by decide)
    ((hosts.scope.rooms function member).locals owned isLocal).1, hosts.fits function member⟩

theorem Hosts.size_frame (hosts : Hosts program table start) {function : Function}
    (member : function ∈ program.functions) {frame : Frame}
    (found : table.frame? function.node.id = some frame) :
    frame.size = function.frameExtent program.resolution := by
  obtain ⟨labels, laid⟩ := hosts.laidOut member
  obtain ⟨label, -, isFrame⟩ := laid.frame
  obtain rfl := Option.some_inj.mp (found.symm.trans isFrame)
  exact (hosts.frameFits member).size_frame label

theorem Hosts.frame_parts (hosts : Hosts program table start) {function : Function}
    (member : function ∈ program.functions) {frame : Frame}
    (found : table.frame? function.node.id = some frame) :
    frame.localsSize = function.localsExtent program.resolution ∧ 0 ≤ frame.localsSize ∧
      frame.localsSize % Word.size = 0 ∧ 0 ≤ frame.argumentsSize ∧
      frame.argumentsSize % Word.size = 0 ∧
      frame.savedPointerOffset = frame.localsSize + Word.size ∧
      frame.size = frame.savedPointerOffset + Word.size + frame.argumentsSize ∧
      frame.size < 9223372036854775808 := by
  obtain ⟨labels, laid⟩ := hosts.laidOut member
  obtain ⟨label, -, isFrame⟩ := laid.frame
  obtain rfl := Option.some_inj.mp (found.symm.trans isFrame)
  have fits := hosts.frameFits member
  have locals := TakeRoom.totalExtent (hosts.scope.rooms function member).locals
  obtain ⟨above, whole, -⟩ := argumentsSize_frame program.resolution function label
  have size := fits.size_frame label
  have limit := fits.fits.2
  rw [fits.localsSize_frame, fits.savedPointerOffset_frame, size]
  have parts : function.frameExtent program.resolution = function.localsExtent program.resolution +
      2 * Word.size + (function.frame program.resolution label).argumentsSize := rfl
  unfold Function.localsExtent at *
  unfold Word.size at *
  omega

/-- A frame is measured from its frame pointer without loss. -/
theorem Hosts.frame_at (hosts : Hosts program table start) {function : Function}
    (member : function ∈ program.functions) {frame : Frame}
    (found : table.frame? function.node.id = some frame) {base : Int} (low : -Word.size ≤ base)
    (high : Word.Fits base) : frame.topAt base = base - frame.size ∧
      frame.savedAt base = base - frame.savedPointerOffset := by
  obtain ⟨-, locals, wholeLocals, arguments, wholeArguments, saved, size, limit⟩ :=
    hosts.frame_parts member found
  constructor
  all_goals
    apply Word.wrap_of_fits
    unfold Word.Fits at *
    unfold Word.size at *
    omega

theorem Hosts.base_fits (hosts : Hosts program table start) :
    Word.Fits (start.memory.size - Word.size) := by
  have fits := hosts.size
  have positive : 0 ≤ start.memory.size := by
    unfold Machine.Memory.size Word.size
    omega
  unfold Word.Fits Word.size at *
  omega

theorem Call.Stacked.placed {base floor : Int} (stacked : Call.Stacked base floor (call :: older)) :
    floor ≤ call.top ∧ call.top + Word.size ≤ call.savedAt ∧ call.framePointer ≤ base := by
  obtain ⟨low, high⟩ := stacked.1.bounds
  exact ⟨stacked.1.floor, by have := stacked.1.arguments; omega, stacked.stackPointerOf_le.2⟩

theorem Call.Stacked.fits {base floor : Int} {newer : List Call}
    (stacked : Call.Stacked base floor (newer ++ call :: older)) (lower : 0 ≤ floor)
    (upper : Word.Fits base) {offset : Int}
    (low : -call.routine.frame.localsSize ≤ offset)
    (high : offset ≤ Word.size * call.function.parameters.length) :
    Word.Fits (call.framePointer + offset) := by
  have here := stacked.of_append
  obtain ⟨aboveFloor, aboveTop, belowBase⟩ := here.placed
  have saved := here.1.bounds.1
  unfold Word.Fits Word.size at *
  cases older with
  | nil =>
      have none : call.function.parameters.length = 0 := by rw [here.1.outermost rfl]; rfl
      omega
  | cons caller older =>
      have passed := here.1.passed caller rfl
      have same : call.framePointer = caller.top := here.1.framePointer
      obtain ⟨callerLow, callerHigh⟩ := here.2.1.bounds
      have callerBelow := here.2.placed.2.2
      unfold callSize Word.size at *
      omega

/-- An address lies above the static area, or is that of a global variable. -/
def IsVariablePlace (table : FrameTable) (start : Machine) (place : Int) : Prop :=
  start.memory.staticTop ≤ place ∨ ∃ definition slot,
    table.storage? definition = some (.global slot) ∧
      start.memory.address? slot.label = some place

theorem Hosts.denotes_global (hosts : Hosts program table start) {definition : NodeId}
    {slot : GlobalSlot} {address : Int} (stored : table.storage? definition = some (.global slot))
    (known : start.memory.address? slot.label = some address) :
    Denotes start calls (.name slot.label) address := by
  obtain ⟨noFrame, noStack, -⟩ := hosts.global definition slot stored
  intro run temps machine keeps
  rw [Machine.eval_name]
  refine Machine.labelAddress_eq_ok.mpr ⟨?_, rfl⟩
  rw [keeps.steady.labels _ noFrame noStack, known]

theorem IsStack.offset_bounds (hosts : Hosts program table start)
    (stack : IsStack program table start calls) (member : call ∈ calls) {definition : NodeId}
    (owned : definition ∈ call.function.ownedIds) :
    table.offset definition % Word.size = 0 ∧ table.offset definition ≠ 0 ∧
      -call.routine.frame.localsSize ≤ table.offset definition ∧
      table.offset definition ≤ Word.size * call.function.parameters.length := by
  have isFunction := stack.nested.mem_of_mem member
  obtain ⟨labels, laid⟩ := hosts.laidOut isFunction
  rw [(hosts.frame_parts isFunction (stack.routines call member).frame).1]
  exact laid.offset_bounds (hosts.scope.rooms _ isFunction) (hosts.frameFits isFunction) owned

theorem IsStack.denotes_owned (hosts : Hosts program table start)
    (stack : IsStack program table start (call :: older)) {hops : Nat} {owner : Function}
    (ownerMember : owner ∈ program.functions)
    (isThere : (call.function.node.id :: call.function.around)[hops]? = some owner.node.id)
    {definition : NodeId} (owned : definition ∈ owner.ownedIds) :
    ∃ inner found outermost, call :: older = inner ++ found :: outermost ∧
      found.function = owner ∧ (∀ other ∈ inner, owner.node.id ∈ other.function.around) ∧
      Denotes start (call :: older)
        (.binop .add (enclosingFrame hops) (.const (table.offset definition)))
        (found.framePointer + table.offset definition) := by
  obtain ⟨inner, found, outermost, split, rfl, within, denotes⟩ :=
    stack.denotes_enclosingFrame hosts.scope.distinct ownerMember isThere
  obtain ⟨-, -, low, high⟩ := stack.offset_bounds hosts
    (split ▸ List.mem_append_right _ (List.mem_cons_self ..)) owned
  have stacked := stack.stacked
  rw [split] at stacked
  have fits := stacked.fits hosts.staticTop hosts.base_fits low high
  refine ⟨inner, found, outermost, split, rfl, within, fun run temps machine keeps => ?_⟩
  refine Machine.eval_binop_eq_ok.mpr ⟨_, machine, _, denotes run temps machine keeps,
    Machine.eval_const_eq_ok.mpr ⟨rfl, rfl⟩, ?_⟩
  rw [Operator.apply, Word.wrap_of_fits fits]

/-- The address of a cell to which the code of a function may store is known while its call is
the innermost one, and is that of no kept word. -/
theorem IsStack.denotes_cell (hosts : Hosts program table start)
    (stack : IsStack program table start (call :: older)) {address : IR.Expr}
    (isCell : (call.function.discipline program table).isCell address) :
    ∃ place, Denotes start (call :: older) address place ∧ IsVariablePlace table start place ∧
      ∀ word ∈ keptWordsIn start (call :: older), word.1 ≠ place := by
  rcases isCell with ⟨definition, slot, stored, rfl⟩ |
    ⟨hops, owner, ownerMember, isThere, definition, owned, rfl⟩
  · obtain ⟨-, -, place, below, known, -⟩ := hosts.global definition slot stored
    refine ⟨place, hosts.denotes_global stored known, .inr ⟨definition, slot, stored, known⟩,
      stack.stacked.ne_of_lt ?_⟩
    rintro _ ⟨rfl⟩
    have placed := stack.stacked.placed.1
    have arguments := stack.stacked.1.arguments
    unfold Word.size
    omega
  · obtain ⟨newer, found, outermost, split, rfl, -, denotes⟩ :=
      stack.denotes_owned hosts ownerMember isThere owned
    obtain ⟨-, nonzero, low, high⟩ := stack.offset_bounds hosts
      (split ▸ List.mem_append_right _ (List.mem_cons_self ..)) owned
    have stacked := stack.stacked
    rw [split] at stacked
    refine ⟨_, denotes, .inl ?_, ?_⟩
    · have above := stacked.of_append.placed.1
      have bounds := stacked.of_append.1.bounds
      have arguments := stacked.of_append.1.arguments
      unfold Word.size at *
      omega
    · rw [split]
      exact stacked.ne_of_offset nonzero low high

theorem IsStack.denotes_staticLink (distinct : program.definitionIds.Nodup)
    (stack : IsStack program table start (call :: older)) {callee : Function}
    (calleeMember : callee ∈ program.functions) (visible : callee.IsVisibleFrom call.function) :
    Denotes start (call :: older) (staticLink call.function.depth callee.depth)
      (Call.linkOf callee (call :: older)) := by
  have member := stack.nested.mem_functions
  rcases Program.around_eq calleeMember with outermost | ⟨outer, outerMember, direct⟩
  · have shallow : callee.depth ≤ 1 := by simp [Function.depth, outermost]
    simp only [staticLink, if_pos shallow, Call.linkOf, outermost]
    exact fun _ _ _ _ => Machine.eval_const_eq_ok.mpr ⟨rfl, rfl⟩
  · have isThere := visible outer.node.id (by simp [direct])
    have deep : callee.depth = outer.depth + 1 := by simp [Function.depth, direct]
    have outerDeep : 1 ≤ outer.depth := Nat.le_add_left ..
    have notDeeper : outer.depth ≤ call.function.depth := by
      rcases List.mem_cons.mp isThere with same | isAround
      · rw [Program.eq_of_id_eq distinct outerMember member same]
      · exact Nat.le_of_lt (Program.depth_lt distinct member outerMember isAround)
    have same : staticLink call.function.depth callee.depth =
        enclosingFrame (call.function.depth - outer.depth) := by
      rw [staticLink, if_neg (by omega)]
      split
      · rw [show call.function.depth - outer.depth = 0 by omega]
        rfl
      · congr 1
        omega
    obtain ⟨inner, found, outermost, split, rfl, within, denotes⟩ :=
      stack.denotes_enclosingFrame distinct outerMember
        (Program.getElem?_around distinct member outerMember isThere)
    rw [same]
    have nested := stack.nested
    rw [split] at nested denotes ⊢
    rw [nested.linkOf_eq distinct (by simp [direct]) within]
    exact denotes

theorem IsStack.denotes_saved (hosts : Hosts program table start)
    (stack : IsStack program table start (call :: older)) {offset : Int}
    (isSaved : (call.function.discipline program table).isSaved offset) :
    0 < offset ∧ Denotes start (call :: older) (.binop .sub .stackPointer (.const offset))
      (call.top - offset) := by
  obtain ⟨callee, member, frame, found, rfl⟩ := isSaved
  obtain ⟨-, locals, -, arguments, -, saved, size, limit⟩ := hosts.frame_parts member found
  have fits := hosts.base_fits
  have staticTop := hosts.staticTop
  obtain ⟨above, aboveTop, below⟩ := stack.stacked.placed
  have savedBounds := stack.stacked.1.bounds.1
  refine ⟨?_, fun _ _ machine keeps => ?_⟩
  · unfold Word.size at *
    omega
  · refine Machine.eval_binop_eq_ok.mpr ⟨call.top, machine, _, ?_,
      Machine.eval_const_eq_ok.mpr ⟨rfl, rfl⟩, ?_⟩
    · rw [IR.Expr.stackPointer, Machine.eval_name]
      exact Machine.labelAddress_eq_ok.mpr ⟨keeps.points.stackLabel, rfl⟩
    · rw [Operator.apply, Word.wrap_of_fits]
      unfold Word.Fits Word.size at *
      omega

end Denotes

end TreeBackend
