import TreeBackend.Proofs.Frame.Extents
import TreeBackend.Proofs.Frame.Program
import TreeBackend.Proofs.Source.Scoping

/-!
# Where the variables of a frame lie

If all parameters of a function take a word, then they lie one word above the other, from the
word above the frame pointer on.  If all locals take a word at least, then they lie one below the
other, from the word below it on.
-/

namespace TreeBackend

open Source

/-- The offset of a variable or a parameter from the frame pointer of its function. -/
def FrameTable.offset (table : FrameTable) (definition : NodeId) : Int :=
  match table.storage? definition with
  | some (.localVar slot) | some (.parameter slot) => slot.offset
  | _ => 0

section Sizes

variable {resolution : Resolution} {locals : List Variable}

theorem sum_parameterSize_of_words {parameters : List Parameter}
    (words : ∀ parameter ∈ parameters, resolution.parameterSize parameter.node.id = Word.size) :
    (parameters.map fun parameter => resolution.parameterSize parameter.node.id).sum =
      Word.size * parameters.length := by
  induction parameters with
  | nil => rfl
  | cons parameter rest ih =>
      obtain ⟨first, others⟩ := List.forall_mem_cons.mp words
      rw [List.map_cons, List.sum_cons, first, ih others, List.length_cons]
      unfold Word.size
      omega

def TakeRoom (resolution : Resolution) (locals : List Variable) : Prop :=
  ∀ owned ∈ locals,
    Word.size ≤ resolution.extent owned.node.id ∧ Word.size ∣ resolution.extent owned.node.id

theorem TakeRoom.totalExtent (room : TakeRoom resolution locals) :
    Word.size * locals.length ≤ resolution.totalExtent locals ∧
      Word.size ∣ resolution.totalExtent locals := by
  induction locals with
  | nil => exact ⟨Int.le_refl 0, Int.dvd_zero _⟩
  | cons owned rest ih =>
      obtain ⟨first, others⟩ := List.forall_mem_cons.mp room
      obtain ⟨above, whole⟩ := ih others
      rw [totalExtent_cons, List.length_cons]
      refine ⟨?_, Int.dvd_add first.2 whole⟩
      unfold Word.size at *
      omega

theorem TakeRoom.totalExtent_take_lt (room : TakeRoom resolution locals) {fewer more : Nat}
    (less : fewer < more) (inside : more ≤ locals.length) :
    resolution.totalExtent (locals.take fewer) + Word.size ≤
      resolution.totalExtent (locals.take more) := by
  have split : locals.take more = locals.take fewer ++ (locals.take more).drop fewer := by
    have fewerFirst : locals.take fewer = (locals.take more).take fewer := by
      rw [List.take_take, Nat.min_eq_left less.le]
    rw [fewerFirst, List.take_append_drop]
  have roomBetween : TakeRoom resolution ((locals.take more).drop fewer) :=
    fun owned member => room owned (List.mem_of_mem_take (List.mem_of_mem_drop member))
  have between := roomBetween.totalExtent.1
  rw [split, totalExtent_append]
  rw [List.length_drop, List.length_take_of_le inside] at between
  unfold Word.size at *
  omega

/-- The first ones of some variables take a word at least. -/
theorem TakeRoom.word_le_totalExtent_take (room : TakeRoom resolution locals) {index : Nat}
    (inside : index < locals.length) :
    Word.size ≤ resolution.totalExtent (locals.take (index + 1)) := by
  have above := room.totalExtent_take_lt index.zero_lt_succ inside
  rwa [List.take_zero, totalExtent_nil, Int.zero_add] at above

end Sizes

/-! ### Offsets -/

section Offsets

variable {resolution : Resolution} {table : FrameTable} {level : Nat}

theorem ParametersPlaced.offset_of_getElem? {offset : Int} {parameters : List Parameter}
    (placed : ParametersPlaced resolution table level offset parameters)
    {index : Nat} {parameter : Parameter} (found : parameters[index]? = some parameter) :
    table.storage? parameter.node.id = some (.parameter
      ⟨resolution.parameterSize parameter.node.id, offset + ((parameters.take index).map fun
        earlier => resolution.parameterSize earlier.node.id).sum, level⟩) := by
  induction parameters generalizing offset index with
  | nil => simp at found
  | cons head rest ih =>
      obtain ⟨first, others⟩ := placed
      cases index with
      | zero =>
          obtain rfl : head = parameter := by simpa using found
          simpa using first
      | succ index =>
          rw [ih others (by simpa using found), List.take_succ_cons, List.map_cons, List.sum_cons,
            Int.add_assoc]

/-- The parameters of one word each, by their positions. -/
theorem ParametersPlaced.getElem? {offset : Int} {parameters : List Parameter}
    (placed : ParametersPlaced resolution table level offset parameters)
    (words : ∀ parameter ∈ parameters, resolution.parameterSize parameter.node.id = Word.size)
    {index : Nat} {parameter : Parameter} (found : parameters[index]? = some parameter) :
    table.storage? parameter.node.id =
      some (.parameter ⟨Word.size, offset + Word.size * index, level⟩) := by
  have inside := (List.getElem?_eq_some_iff.mp found).1
  have sum := sum_parameterSize_of_words fun earlier (member : earlier ∈ parameters.take index) =>
    words earlier (List.mem_of_mem_take member)
  rw [placed.offset_of_getElem? found, sum, List.length_take_of_le inside.le,
    words parameter (List.mem_of_getElem? found)]

/-- A local lies below the ones before it, by what they and itself take. -/
theorem LocalsStacked.getElem? {used : Int} {locals : List Variable}
    (stacked : LocalsStacked resolution table level used locals) {index : Nat} {owned : Variable}
    (found : locals[index]? = some owned) :
    table.storage? owned.node.id = some (.localVar ⟨resolution.extent owned.node.id,
      -(used + resolution.totalExtent (locals.take (index + 1))), level⟩) := by
  induction locals generalizing used index with
  | nil => simp at found
  | cons head rest ih =>
      obtain ⟨first, others⟩ := stacked
      rw [List.take_succ_cons, totalExtent_cons]
      cases index with
      | zero =>
          obtain rfl : head = owned := by simpa using found
          simpa using first
      | succ index =>
          rw [ih others (by simpa using found), Int.add_assoc]

variable {function : Function} {first last : LabelSupply}

theorem Source.Function.LaidOut.offset_eq (laid : function.LaidOut resolution table first last)
    (room : function.TakesRoom resolution) (fits : function.FrameFits resolution)
    {definition : NodeId} (owned : definition ∈ function.ownedIds) :
    (∃ (index : Nat) (parameter : Parameter), function.parameters[index]? = some parameter ∧
      parameter.node.id = definition ∧ table.offset definition = Word.size * (index + 1) ∧
      table.storage? definition =
        some (.parameter ⟨Word.size, table.offset definition, function.depth⟩)) ∨
    ∃ (index : Nat) (owned : Variable), function.contents.locals[index]? = some owned ∧
      owned.node.id = definition ∧ table.offset definition =
        -resolution.totalExtent (function.contents.locals.take (index + 1)) ∧
      table.storage? definition = some (.localVar
        ⟨resolution.extent definition, table.offset definition, function.depth⟩) := by
  rcases List.mem_append.mp owned with isParameter | isLocal
  · obtain ⟨parameter, member, rfl⟩ := List.mem_map.mp isParameter
    obtain ⟨index, found⟩ := List.mem_iff_getElem?.mp member
    have stored := laid.parameters.getElem? room.parameters found
    have offset : table.offset parameter.node.id = Word.size * (index + 1) := by
      rw [FrameTable.offset, stored]
      dsimp only
      unfold Word.size
      omega
    refine .inl ⟨index, parameter, found, rfl, offset, ?_⟩
    rw [stored, FrameTable.offset, stored]
  · obtain ⟨owner, member, rfl⟩ := List.mem_map.mp isLocal
    obtain ⟨index, found⟩ := List.mem_iff_getElem?.mp member
    have stored := (fits.locals_stacked laid).getElem? found
    rw [Int.zero_add] at stored
    have offset : table.offset owner.node.id =
        -resolution.totalExtent (function.contents.locals.take (index + 1)) := by
      rw [FrameTable.offset, stored]
    exact .inr ⟨index, owner, found, rfl, offset, by rw [stored, offset]⟩

/-- The words of a frame: its variables and parameters have words of their own, off the
static link and above the saved pointer. -/
theorem Source.Function.LaidOut.offset_bounds
    (laid : function.LaidOut resolution table first last) (room : function.TakesRoom resolution)
    (fits : function.FrameFits resolution) {definition : NodeId}
    (owned : definition ∈ function.ownedIds) :
    table.offset definition % Word.size = 0 ∧ table.offset definition ≠ 0 ∧
      -function.localsExtent resolution ≤ table.offset definition ∧
      table.offset definition ≤ Word.size * function.parameters.length := by
  have locals := (TakeRoom.totalExtent room.locals).1
  rcases laid.offset_eq room fits owned with
    ⟨index, _, found, -, offset, -⟩ | ⟨index, _, found, -, offset, -⟩
  · have inside := (List.getElem?_eq_some_iff.mp found).1
    unfold Function.localsExtent
    unfold Word.size at *
    omega
  · have inside := (List.getElem?_eq_some_iff.mp found).1
    have roomTo : TakeRoom resolution (function.contents.locals.take (index + 1)) :=
      fun owned member => room.locals owned (List.mem_of_mem_take member)
    have roomBehind : TakeRoom resolution (function.contents.locals.drop (index + 1)) :=
      fun owned member => room.locals owned (List.mem_of_mem_drop member)
    have whole := roomTo.totalExtent.2
    have above := TakeRoom.word_le_totalExtent_take room.locals inside
    have below : resolution.totalExtent (function.contents.locals.take (index + 1)) ≤
        function.localsExtent resolution := by
      have rest := roomBehind.totalExtent.1
      have split := totalExtent_append resolution (function.contents.locals.take (index + 1))
        (function.contents.locals.drop (index + 1))
      rw [List.take_append_drop] at split
      rw [Function.localsExtent, split]
      unfold Word.size at rest
      omega
    rw [offset]
    unfold Word.size at *
    omega

theorem Source.Function.LaidOut.offset_injective
    (laid : function.LaidOut resolution table first last) (room : function.TakesRoom resolution)
    (fits : function.FrameFits resolution) {definition other : NodeId}
    (owned : definition ∈ function.ownedIds) (otherOwned : other ∈ function.ownedIds)
    (same : table.offset definition = table.offset other) : definition = other := by
  rcases laid.offset_eq room fits owned with
    ⟨index, _, found, rfl, offset, -⟩ | ⟨index, _, found, rfl, offset, -⟩
  · rcases laid.offset_eq room fits otherOwned with
      ⟨next, _, otherFound, rfl, otherOffset, -⟩ | ⟨next, _, otherFound, rfl, otherOffset, -⟩
    · obtain rfl : index = next := by unfold Word.size at *; omega
      rw [found] at otherFound
      rw [Option.some_inj.mp otherFound]
    · have inside := (List.getElem?_eq_some_iff.mp otherFound).1
      have below := TakeRoom.word_le_totalExtent_take room.locals inside
      unfold Word.size at *
      omega
  · have inside := (List.getElem?_eq_some_iff.mp found).1
    rcases laid.offset_eq room fits otherOwned with
      ⟨next, _, -, rfl, otherOffset, -⟩ | ⟨next, _, otherFound, rfl, otherOffset, -⟩
    · have below := TakeRoom.word_le_totalExtent_take room.locals inside
      unfold Word.size at *
      omega
    · have otherInside := (List.getElem?_eq_some_iff.mp otherFound).1
      have same : resolution.totalExtent (function.contents.locals.take (index + 1)) =
          resolution.totalExtent (function.contents.locals.take (next + 1)) := by omega
      obtain less | rfl | greater := Nat.lt_trichotomy index next
      · have apart := TakeRoom.totalExtent_take_lt room.locals (Nat.add_lt_add_right less 1)
          otherInside
        unfold Word.size at apart
        omega
      · rw [found] at otherFound
        rw [Option.some_inj.mp otherFound]
      · have apart := TakeRoom.totalExtent_take_lt room.locals (Nat.add_lt_add_right greater 1)
          inside
        unfold Word.size at apart
        omega

end Offsets

end TreeBackend
