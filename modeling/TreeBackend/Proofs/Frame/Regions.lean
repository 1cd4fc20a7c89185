import TreeBackend.Proofs.Frame.Extents
import TreeBackend.Proofs.Frame.Program
import TreeBackend.Proofs.Tiling
import TreeBackend.Source.Assembly

/-!
# The regions of a frame

Every variable and parameter of a function has a region of its frame, and so have the
static link, the saved pointer, the return address and the outgoing arguments.  The
regions above the frame pointer lie one after the other without overlap or gap, and so do
the ones below it, provided that no array has a negative length and that the size of the
frame fits into a word.
-/

namespace TreeBackend

open Source

/-! ### The regions of a function -/

/-- The bytes of a slot, by their offsets from the frame pointer. -/
def StackSlot.region (slot : StackSlot) : Set Int :=
  Set.Ico slot.offset (slot.offset + slot.size)

/-- The bytes of a variable or a parameter, by their offsets from the frame pointer. -/
def FrameTable.region (table : FrameTable) (definition : NodeId) : Set Int :=
  match table.storage? definition with
  | some (.localVar slot) | some (.parameter slot) => slot.region
  | _ => ∅

theorem FrameTable.region_parameter {table : FrameTable} {definition : NodeId} {slot : StackSlot}
    (stored : table.storage? definition = some (.parameter slot)) :
    table.region definition = slot.region := by
  rw [FrameTable.region, stored]

theorem FrameTable.region_localVar {table : FrameTable} {definition : NodeId} {slot : StackSlot}
    (stored : table.storage? definition = some (.localVar slot)) :
    table.region definition = slot.region := by
  rw [FrameTable.region, stored]

namespace Frame

/-- The word at the frame pointer, which holds the static link and later the result. -/
def staticLinkRegion : Set Int := Set.Ico 0 Word.size

def savedPointerRegion (frame : Frame) : Set Int :=
  Set.Ico (-frame.savedPointerOffset) (-frame.savedPointerOffset + Word.size)

def returnAddressRegion (frame : Frame) : Set Int :=
  Set.Ico (-frame.savedPointerOffset - Word.size) (-frame.savedPointerOffset)

/-- The bytes of the arguments of calls that the function makes. -/
def argumentsRegion (frame : Frame) : Set Int :=
  Set.Ico (-frame.size) (-frame.size + frame.argumentsSize)

end Frame

/-- A slot has the given size and level, lies between two offsets, and is aligned. -/
structure StackSlot.LiesIn (slot : StackSlot) (size : Int) (level : Nat) (low high : Int) :
    Prop where
  size_eq : slot.size = size
  level_eq : slot.level = level
  low_le : low ≤ slot.offset
  le_high : slot.offset + slot.size ≤ high
  aligned : Word.size ∣ slot.offset ∧ Word.size ∣ slot.size

/-- A function has regions of its own for all that it keeps in its frame. Those above the
frame pointer fill the incoming area, and those below it fill the frame. -/
structure Source.Function.HasRegions (resolution : Resolution) (table : FrameTable)
    (frame : Frame) (function : Function) : Prop where
  parameters : ∀ parameter ∈ function.parameters, ∃ slot,
    table.storage? parameter.node.id = some (.parameter slot) ∧
      slot.LiesIn (resolution.parameterSize parameter.node.id) frame.level Word.size
        frame.parametersSize
  locals : ∀ owned ∈ function.contents.locals, ∃ slot,
    table.storage? owned.node.id = some (.localVar slot) ∧
      slot.LiesIn (resolution.extent owned.node.id) frame.level (-frame.localsSize) 0
  apart : ∀ first ∈ function.ownedIds, ∀ second ∈ function.ownedIds, first ≠ second →
    Disjoint (table.region first) (table.region second)
  incoming : Tiles 0 frame.parametersSize
    (Frame.staticLinkRegion :: function.parameters.map (table.region ·.node.id))
  localsFill : Tiles (-frame.localsSize) 0
    (function.contents.locals.map (table.region ·.node.id))
  reserved : Tiles (-frame.size) 0
    (function.contents.locals.map (table.region ·.node.id) ++
      [frame.savedPointerRegion, frame.returnAddressRegion, frame.argumentsRegion])
  aligned : ∀ size ∈ [frame.parametersSize, frame.localsSize, frame.argumentsSize,
    frame.savedPointerOffset, frame.size], Word.size ∣ size

/-! ### Sizes of types -/

namespace Source

/-- Whether the arrays that a variable of a type stores have no negative lengths. -/
def Ty.hasLengths : Ty → Bool
  | .int | .log | .str | .void => true
  | .array length element => 0 ≤ length && element.hasLengths
  | .function _ result => result.hasLengths

/-- Whether the arrays among the variables of a program have no negative lengths. -/
def Program.hasLengths (program : Program) : Bool :=
  program.contents.ownedIds.all fun id => (program.resolution.typeOf? id).all Ty.hasLengths

/-- A number of bytes that makes up whole words. -/
def IsWords (size : Int) : Prop := 0 ≤ size ∧ Word.size ∣ size

theorem IsWords.zero : IsWords 0 := ⟨le_refl 0, Int.dvd_zero _⟩

theorem IsWords.word : IsWords Word.size := ⟨by decide, Int.dvd_refl _⟩

theorem IsWords.add {first second : Int} (left : IsWords first) (right : IsWords second) :
    IsWords (first + second) :=
  ⟨Int.add_nonneg left.1 right.1, Int.dvd_add left.2 right.2⟩

theorem IsWords.sum {sizes : List Int} (each : ∀ size ∈ sizes, IsWords size) :
    IsWords sizes.sum := by
  induction sizes with
  | nil => exact .zero
  | cons size rest ih =>
      rw [List.sum_cons]
      exact (each size (by simp)).add (ih fun other member => each other (by simp [member]))

theorem Ty.isWords_parameterSize (ty : Ty) : IsWords ty.parameterSize := by
  cases ty with
  | void => exact .zero
  | int | log | str | array | function => exact .word

theorem Ty.isWords_extent : {ty : Ty} → ty.hasLengths = true → IsWords ty.extent
  | .int, _ | .log, _ | .str, _ => .word
  | .void, _ => .zero
  | .array length element, lengths => by
      rw [Ty.hasLengths, Bool.and_eq_true, decide_eq_true_eq] at lengths
      have words := isWords_extent lengths.2
      exact ⟨Int.mul_nonneg lengths.1 words.1, Int.dvd_mul_of_dvd_right words.2⟩
  | .function parameters result, lengths => by
      rw [Ty.hasLengths] at lengths
      refine (isWords_extent lengths).add (.sum fun size member => ?_)
      obtain ⟨parameter, -, rfl⟩ := List.mem_map.mp member
      exact parameter.isWords_parameterSize

variable {resolution : Resolution} {definition : NodeId}

theorem Resolution.isWords_parameterSize : IsWords (resolution.parameterSize definition) := by
  unfold parameterSize
  cases resolution.typeOf? definition with
  | none => exact .zero
  | some ty => exact ty.isWords_parameterSize

theorem Resolution.isWords_extent
    (lengths : (resolution.typeOf? definition).all Ty.hasLengths = true) :
    IsWords (resolution.extent definition) := by
  unfold extent
  cases known : resolution.typeOf? definition with
  | none => exact .zero
  | some ty => exact Ty.isWords_extent (by simpa [known] using lengths)

theorem isWords_callSize (arguments : Nat) : IsWords (callSize arguments) :=
  IsWords.add ⟨by unfold Word.size; omega, Int.dvd_mul_right _ _⟩ .word

/-- The room for the largest one of some calls is whole words. -/
theorem isWords_foldl_max (calls : List Nat) {start : Int} (words : IsWords start) :
    IsWords (calls.foldl (fun size arguments => max size (callSize arguments)) start) := by
  induction calls generalizing start with
  | nil => exact words
  | cons count rest ih =>
      rw [List.foldl_cons]
      refine ih ?_
      rcases max_choice start (callSize count) with same | same <;> rw [same]
      · exact words
      · exact isWords_callSize count

end Source

/-! ### Parameters and locals in a row -/

section Placed

variable {resolution : Resolution} {table : FrameTable} {level : Nat}

theorem ParametersPlaced.tiles {offset : Int} {parameters : List Parameter}
    (placed : ParametersPlaced resolution table level offset parameters) :
    Tiles offset
      (offset + (parameters.map fun parameter => resolution.parameterSize parameter.node.id).sum)
      (parameters.map (table.region ·.node.id)) := by
  induction parameters generalizing offset with
  | nil => simpa using Tiles.nil offset
  | cons parameter rest ih =>
      have words := @Resolution.isWords_parameterSize resolution parameter.node.id
      have first := Tiles.single (show offset ≤ offset + resolution.parameterSize parameter.node.id
        from Int.le_add_of_nonneg_right words.1)
      have others := first.append (ih placed.2)
      simpa [FrameTable.region_parameter placed.1, StackSlot.region, Int.add_assoc] using others

theorem ParametersPlaced.liesIn {offset : Int} {parameters : List Parameter}
    (placed : ParametersPlaced resolution table level offset parameters)
    (aligned : Word.size ∣ offset) {parameter : Parameter} (member : parameter ∈ parameters) :
    ∃ slot, table.storage? parameter.node.id = some (.parameter slot) ∧
      slot.LiesIn (resolution.parameterSize parameter.node.id) level offset (offset +
        (parameters.map fun parameter => resolution.parameterSize parameter.node.id).sum) := by
  induction parameters generalizing offset with
  | nil => simp at member
  | cons head rest ih =>
      have words := @Resolution.isWords_parameterSize resolution head.node.id
      rw [List.map_cons, List.sum_cons]
      rcases List.mem_cons.mp member with rfl | member
      · have others := placed.2.tiles.ordered
        exact ⟨_, placed.1, rfl, rfl, Int.le_refl _, by dsimp only; omega, aligned, words.2⟩
      · obtain ⟨slot, stored, lies⟩ := ih placed.2 (Int.dvd_add aligned words.2) member
        have above := lies.low_le
        have below := lies.le_high
        have := words.1
        exact ⟨slot, stored, lies.size_eq, lies.level_eq, by omega, by omega, lies.aligned⟩

theorem LocalsStacked.tiles {used : Int} {locals : List Variable}
    (stacked : LocalsStacked resolution table level used locals)
    (words : ∀ owned ∈ locals, IsWords (resolution.extent owned.node.id)) :
    Tiles (-(used + resolution.totalExtent locals)) (-used)
      (locals.map (table.region ·.node.id)) := by
  induction locals generalizing used with
  | nil => simpa using Tiles.nil (-used)
  | cons owned rest ih =>
      obtain ⟨headWords, restWords⟩ := List.forall_mem_cons.mp words
      have first := Tiles.single (show -(used + resolution.extent owned.node.id) ≤ -used by
        have := headWords.1
        omega)
      have others := ih stacked.2 restWords
      have all := first.appendBelow others
      simpa [FrameTable.region_localVar stacked.1, StackSlot.region, Int.add_assoc] using all

theorem LocalsStacked.liesIn {used : Int} {locals : List Variable}
    (stacked : LocalsStacked resolution table level used locals)
    (words : ∀ owned ∈ locals, IsWords (resolution.extent owned.node.id))
    (aligned : Word.size ∣ used) {owned : Variable} (member : owned ∈ locals) :
    ∃ slot, table.storage? owned.node.id = some (.localVar slot) ∧
      slot.LiesIn (resolution.extent owned.node.id) level
        (-(used + resolution.totalExtent locals)) (-used) := by
  induction locals generalizing used with
  | nil => simp at member
  | cons head rest ih =>
      obtain ⟨headWords, restWords⟩ := List.forall_mem_cons.mp words
      have grown := Int.dvd_add aligned headWords.2
      rw [totalExtent_cons]
      rcases List.mem_cons.mp member with rfl | member
      · have others := (stacked.2.tiles restWords).ordered
        refine ⟨_, stacked.1, rfl, rfl, ?_, ?_, Int.dvd_neg.mpr grown, headWords.2⟩
        · dsimp only
          omega
        · dsimp only
          omega
      · obtain ⟨slot, stored, lies⟩ := ih stacked.2 restWords grown member
        have above := lies.low_le
        have below := lies.le_high
        have := headWords.1
        exact ⟨slot, stored, lies.size_eq, lies.level_eq, by omega, by omega, lies.aligned⟩

end Placed

/-! ### The frame as a whole -/

namespace Source.Function

variable {resolution : Resolution} {table : FrameTable} {first last : LabelSupply}
  {function : Function} {label : Label}

theorem parametersSize_frame_eq : (function.frame resolution label).parametersSize = Word.size +
    (function.parameters.map fun parameter =>
      resolution.parameterSize parameter.node.id).sum := by
  simp [Function.frame, Frame.withContents, Frame.withParameters, Frame.initial,
    Frame.reserveParameter]

theorem isWords_argumentsSize_frame :
    IsWords (function.frame resolution label).argumentsSize :=
  isWords_foldl_max function.contents.calls .zero

theorem LaidOut.tiles_incoming (laid : function.LaidOut resolution table first last)
    (label : Label) :
    Tiles 0 (function.frame resolution label).parametersSize
      (Frame.staticLinkRegion :: function.parameters.map (table.region ·.node.id)) := by
  rw [parametersSize_frame_eq]
  exact (Tiles.single (show (0 : Int) ≤ Word.size by decide)).append laid.parameters.tiles

theorem LaidOut.tiles_locals (laid : function.LaidOut resolution table first last)
    (fits : function.FrameFits resolution)
    (words : ∀ owned ∈ function.contents.locals, IsWords (resolution.extent owned.node.id))
    (label : Label) :
    Tiles (-(function.frame resolution label).localsSize) 0
      (function.contents.locals.map (table.region ·.node.id)) := by
  have tiles := (fits.locals_stacked laid).tiles words
  rwa [Int.zero_add, Int.neg_zero, ← localsExtent, ← fits.localsSize_frame label] at tiles

theorem tiles_reserved (fits : function.FrameFits resolution) {regions : List (Set Int)}
    (locals : Tiles (-(function.frame resolution label).localsSize) 0 regions) :
    Tiles (-(function.frame resolution label).size) 0 (regions ++
      [(function.frame resolution label).savedPointerRegion,
        (function.frame resolution label).returnAddressRegion,
        (function.frame resolution label).argumentsRegion]) := by
  have localsSize := fits.localsSize_frame label
  have savedPointer := fits.savedPointerOffset_frame label
  have size := fits.size_frame label
  have room : 0 ≤ (function.frame resolution label).argumentsSize :=
    isWords_argumentsSize_frame.1
  have reserved : (function.frame resolution label).size =
      (function.frame resolution label).savedPointerOffset + Word.size +
        (function.frame resolution label).argumentsSize := by
    rw [size, savedPointer, frameExtent]
    change _ + 2 * Word.size + (function.frame resolution label).argumentsSize = _
    unfold Word.size
    omega
  generalize function.frame resolution label = frame at *
  have top : -frame.savedPointerOffset + Word.size = -frame.localsSize := by omega
  have bottom : -frame.size + frame.argumentsSize = -frame.savedPointerOffset - Word.size := by
    omega
  have word : 0 ≤ Word.size := by decide
  have saved : Tiles (-frame.savedPointerOffset) (-frame.localsSize)
      [frame.savedPointerRegion] := top ▸ .single (by omega)
  have returnAddress : Tiles (-frame.savedPointerOffset - Word.size) (-frame.savedPointerOffset)
      [frame.returnAddressRegion] := .single (by omega)
  have arguments : Tiles (-frame.size) (-frame.savedPointerOffset - Word.size)
      [frame.argumentsRegion] := bottom ▸ .single (by omega)
  exact locals.appendBelow (saved.appendBelow (returnAddress.appendBelow arguments))

/-- The variables and parameters of a function have regions apart from each other. -/
theorem LaidOut.disjoint_regions (laid : function.LaidOut resolution table first last)
    (fits : function.FrameFits resolution)
    (words : ∀ owned ∈ function.contents.locals, IsWords (resolution.extent owned.node.id))
    {one other : NodeId} (isOwned : one ∈ function.ownedIds)
    (otherOwned : other ∈ function.ownedIds)
    (different : one ≠ other) : Disjoint (table.region one) (table.region other) := by
  obtain ⟨label, -, -⟩ := laid.frame
  have all := (laid.tiles_incoming label).appendBelow (laid.tiles_locals fits words label)
  have apart : (function.ownedIds.map table.region).Pairwise Disjoint := by
    have owned := all.disjoint.of_cons
    rwa [ownedIds, List.map_append, List.map_map, List.map_map]
  have symmetric : Std.Symm fun id next => Disjoint (table.region id) (table.region next) :=
    ⟨fun _ _ disjoint => disjoint.symm⟩
  rw [List.pairwise_map] at apart
  exact apart.forall isOwned otherOwned different

theorem LaidOut.hasRegions (laid : function.LaidOut resolution table first last)
    (fits : function.FrameFits resolution)
    (words : ∀ owned ∈ function.contents.locals, IsWords (resolution.extent owned.node.id)) :
    function.HasRegions resolution table (function.frame resolution label) where
  parameters parameter member := by
    rw [parametersSize_frame_eq]
    exact laid.parameters.liesIn (Int.dvd_refl _) member
  locals owned member := by
    have stacked := (fits.locals_stacked laid).liesIn words (Int.dvd_zero _) member
    rwa [Int.zero_add, Int.neg_zero, ← localsExtent, ← fits.localsSize_frame label] at stacked
  apart one isOwned other otherOwned different :=
    laid.disjoint_regions fits words isOwned otherOwned different
  incoming := laid.tiles_incoming label
  localsFill := laid.tiles_locals fits words label
  reserved := tiles_reserved fits (laid.tiles_locals fits words label)
  aligned := by
    have parameters : IsWords (function.frame resolution label).parametersSize := by
      rw [parametersSize_frame_eq]
      refine IsWords.word.add (.sum fun size member => ?_)
      obtain ⟨parameter, -, rfl⟩ := List.mem_map.mp member
      exact Resolution.isWords_parameterSize
    have locals : IsWords (function.localsExtent resolution) := by
      refine .sum fun size member => ?_
      obtain ⟨owned, isLocal, rfl⟩ := List.mem_map.mp member
      exact words owned isLocal
    have arguments := @isWords_argumentsSize_frame resolution function label
    have saved := locals.add .word
    have size := (locals.add (IsWords.word.add .word)).add arguments
    simp only [List.mem_cons, List.not_mem_nil, or_false, forall_eq_or_imp, forall_eq]
    rw [fits.localsSize_frame, fits.savedPointerOffset_frame, fits.size_frame]
    exact ⟨parameters.2, locals.2, arguments.2, saved.2, size.2⟩

end Source.Function

/-- In a program that can be laid out, every function whose frame fits into a word has one in
which all that it keeps has a region of its own. -/
theorem layout_hasRegions {program : Program} {table : FrameTable} {first last : LabelSupply}
    (distinct : program.definitionIds.Nodup) (lengths : program.hasLengths = true)
    (laid : Layout.ofProgram program first = .ok (table, last)) {function : Function}
    (member : function ∈ program.functions)
    (fits : Word.Fits (function.frameExtent program.resolution)) :
    ∃ frame, table.frame? function.node.id = some frame ∧ frame.level = function.depth ∧
      function.HasRegions program.resolution table frame := by
  have words : ∀ owned ∈ function.contents.locals,
      IsWords (program.resolution.extent owned.node.id) := by
    intro owned isLocal
    apply Resolution.isWords_extent
    apply List.all_eq_true.mp lengths owned.node.id
    refine List.mem_append_right _ (List.mem_flatMap.mpr ⟨function, member, ?_⟩)
    exact List.mem_append_right _ (List.mem_map.mpr ⟨owned, isLocal, rfl⟩)
  unfold Layout.ofProgram at laid
  split at laid
  · next final walked =>
      obtain ⟨rfl, rfl⟩ := Prod.mk.inj (Except.ok.inj laid)
      obtain ⟨enters, -, -⟩ := Layout.ofDefs_outermost_succeeds walked
      have described := (enters.functions distinct).each function member
      obtain ⟨label, -, found⟩ := described.frame
      have frameFits : function.FrameFits program.resolution :=
        ⟨fun owned isLocal => (words owned isLocal).1, fits⟩
      exact ⟨_, found, rfl, described.hasRegions frameFits words⟩
  · cases laid

namespace Demo

open Source.Assembler

/-- A function with arrays around a nested one that calls it with arguments. -/
def arrays : Program := assemble do
  let row ← declareParameter "row" (.array 3 .int)
  let width ← declareParameter "width" .int
  let main ← declareFunction "main" [row, width] .int
  let square ← declareVariable "square" (.array 2 (.array 3 .int))
  let empty ← declareVariable "empty" (.array 0 .log)
  let index ← declareVariable "index" .int
  let mark ← declareVariable "mark" .log
  let inner ← declareFunction "inner" [] .int
  let again ← call main [← name row, ← int 2]
  let innerBody ← whereIn again [mark.toDef]
  let body ← whereIn (← call inner [])
    [square.toDef, defineFunction inner innerBody, empty.toDef, index.toDef]
  return [defineFunction main body]

end Demo

/-- The arrays of a function and a variable between nested definitions lie apart. -/
theorem layout_hasRegions_arrays :
    Demo.arrays.definitionIds.Nodup ∧ Demo.arrays.hasLengths = true ∧
      ∃ table last, Layout.ofProgram Demo.arrays {} = .ok (table, last) ∧
        ∃ function ∈ Demo.arrays.functions, function.name = "main" ∧
          Word.Fits (function.frameExtent Demo.arrays.resolution) ∧
          ∃ frame, table.frame? function.node.id = some frame ∧ frame.level = function.depth ∧
            function.HasRegions Demo.arrays.resolution table frame := by
  have distinct : Demo.arrays.definitionIds.Nodup := by decide +kernel
  have lengths : Demo.arrays.hasLengths = true := by decide +kernel
  have runs : (match Layout.ofProgram Demo.arrays {} with
      | .ok _ => Demo.arrays.functions.any fun function => function.name = "main" &&
          decide (Word.Fits (function.frameExtent Demo.arrays.resolution))
      | .error _ => false) = true := by decide +kernel
  refine ⟨distinct, lengths, ?_⟩
  split at runs
  · next result laid =>
      obtain ⟨function, member, holds⟩ := List.any_eq_true.mp runs
      rw [Bool.and_eq_true, decide_eq_true_eq, decide_eq_true_eq] at holds
      exact ⟨result.1, result.2, laid, function, member, holds.1, holds.2,
        layout_hasRegions distinct lengths laid member holds.2⟩
  · cases runs

namespace Demo

open Source.Assembler

/-- A function with a table that is larger than a word can tell, and a number behind it. -/
def oversized : Program := assemble do
  let main ← declareFunction "main" [] .int
  let table ← declareVariable "table" (.array 4611686018427387903 .int)
  let x ← declareVariable "x" .int
  let body ← whereIn (← name x) [table.toDef, x.toDef]
  return [defineFunction main body]

end Demo

/-- Where the size of a frame does not fit into a word, variables need not lie among the locals:
behind the oversized table, the number lies in the word of the static link. -/
theorem oversized_table_misplaces_variable :
    Demo.oversized.definitionIds.Nodup ∧ Demo.oversized.hasLengths = true ∧
      ∃ table last, Layout.ofProgram Demo.oversized {} = .ok (table, last) ∧
        ∃ function ∈ Demo.oversized.functions, ∃ owned ∈ function.contents.locals, ∃ frame,
          table.frame? function.node.id = some frame ∧ frame.localsSize = 0 ∧
          table.region owned.node.id = Frame.staticLinkRegion ∧
          ¬function.HasRegions Demo.oversized.resolution table frame := by
  have runs : (match Layout.ofProgram Demo.oversized {} with
      | .ok (table, _) => Demo.oversized.functions.any fun function =>
          function.contents.locals.any fun owned =>
            table.storage? owned.node.id = some (.localVar ⟨Word.size, 0, 1⟩) &&
              (table.frame? function.node.id).any fun frame => frame.localsSize = 0
      | .error _ => false) = true := by decide +kernel
  refine ⟨by decide +kernel, by decide +kernel, ?_⟩
  split at runs
  · next table last laid =>
      obtain ⟨function, member, holds⟩ := List.any_eq_true.mp runs
      obtain ⟨owned, isLocal, holds⟩ := List.any_eq_true.mp holds
      rw [Bool.and_eq_true, decide_eq_true_eq] at holds
      obtain ⟨frame, found, empty⟩ := (Option.any_eq_true ..).mp holds.2
      rw [decide_eq_true_eq] at empty
      refine ⟨table, last, laid, function, member, owned, isLocal, frame, found, empty, ?_,
        fun regions => ?_⟩
      · rw [FrameTable.region_localVar holds.1]
        rfl
      · obtain ⟨slot, stored, lies⟩ := regions.locals owned isLocal
        obtain rfl := Storage.localVar.inj (Option.some_inj.mp (holds.1.symm.trans stored))
        have above := lies.le_high
        exact absurd above (by decide)
  · cases runs

end TreeBackend
