import Mathlib.Data.List.Basic
import TreeBackend.Text.Blank

/-!
# Tokens

A token is a stretch of characters of one class.  In front of a character outside of the
class it ends, so it can be told from what follows.  Numerals are such tokens, and they
denote different numbers if they differ.  Words are such tokens, too: a row of words with
single spaces between them can be taken apart again.
-/

namespace TreeBackend.Text

theorem token_append_inj (within : Char → Bool) {first second rest others : List Char}
    {stop otherStop : Char} (firstWithin : ∀ c ∈ first, within c = true)
    (secondWithin : ∀ c ∈ second, within c = true) (outside : within stop = false)
    (otherOutside : within otherStop = false)
    (same : first ++ stop :: rest = second ++ otherStop :: others) :
    first = second ∧ stop :: rest = otherStop :: others := by
  have tokens := congrArg (List.takeWhile within) same
  rw [List.takeWhile_append_of_pos firstWithin, List.takeWhile_append_of_pos secondWithin,
    List.takeWhile_cons_of_neg (by simp [outside]),
    List.takeWhile_cons_of_neg (by simp [otherOutside]), List.append_nil, List.append_nil] at tokens
  subst tokens
  exact ⟨rfl, List.append_cancel_left same⟩

/-- Whether a character can stand in a decimal numeral. -/
def isNumeric (c : Char) : Bool := c == '-' || c.isDigit

theorem isDigit_of_mem_toString {number : Nat} {c : Char}
    (member : c ∈ (toString number).toList) : c.isDigit = true := by
  rw [Nat.toString_eq_repr, Nat.toList_repr] at member
  exact Nat.isDigit_of_mem_toDigits (by decide) (by decide) member

theorem toString_ne_empty (number : Nat) : (toString number).toList ≠ [] := by
  rw [Nat.toString_eq_repr, Nat.toList_repr]
  exact Nat.toDigits_ne_nil

/-- Different numbers have different numerals. -/
theorem toString_nat_inj {first second : Nat} :
    (toString first).toList = (toString second).toList ↔ first = second := by
  rw [Nat.toString_eq_repr, Nat.toString_eq_repr, Nat.toList_repr, Nat.toList_repr]
  refine ⟨fun same => ?_, fun same => by rw [same]⟩
  have value := congrArg (Nat.ofDigitChars 10 · 0) same
  simpa only [Nat.ofDigitChars_ten_toDigits] using value

/-- Different integers have different numerals. -/
theorem toString_int_inj {first second : Int} :
    (toString first).toList = (toString second).toList ↔ first = second := by
  refine ⟨fun same => ?_, fun same => by rw [same]⟩
  have noSign (number : Nat) : '-' ∉ (toString number).toList :=
    fun member => absurd (isDigit_of_mem_toString member) (by decide)
  rw [Int.toString_eq_repr, Int.toString_eq_repr, Int.repr_eq_if, Int.repr_eq_if] at same
  split at same <;> split at same
  · have := toString_nat_inj.mp same
    omega
  · exact absurd (same ▸ by simp) (noSign first.toNat)
  · exact absurd (same ▸ by simp) (noSign second.toNat)
  · have := toString_nat_inj.mp (by simpa [String.toList_append] using same)
    omega

theorem isNumeric_of_mem_toString {value : Int} {c : Char}
    (member : c ∈ (toString value).toList) : isNumeric c = true := by
  rw [Int.toString_eq_repr, Int.repr_eq_if] at member
  have digits {number : Nat} (member : c ∈ (toString number).toList) : isNumeric c = true := by
    rw [isNumeric, isDigit_of_mem_toString member, Bool.or_true]
  split at member
  · exact digits member
  · rw [String.toList_append, List.mem_append] at member
    rcases member with isSign | member
    · obtain rfl : c = '-' := by simpa using isSign
      rfl
    · exact digits member

/-! ### Words -/

/-- Whether a text is a word: it has characters, and no blanks among them. -/
def isWord (text : String) : Bool := !text.toList.isEmpty && text.toList.all (!isBlank ·)

theorem isWord_iff {text : String} :
    isWord text = true ↔ text.toList ≠ [] ∧ ∀ c ∈ text.toList, isBlank c = false := by
  simp [isWord]

theorem isBlank_of_isNumeric {c : Char} (numeric : isNumeric c = true) : isBlank c = false := by
  rw [isNumeric, Bool.or_eq_true, beq_iff_eq] at numeric
  rcases numeric with rfl | digit
  · rfl
  · obtain ⟨lower, upper⟩ : 48 ≤ c.toNat ∧ c.toNat ≤ 57 := by
      simpa [Char.isDigit, UInt32.le_iff_toNat_le] using digit
    simp [isBlank, inRanges, blankRanges]
    omega

theorem isWord_append {first second : String} (head : isWord first = true)
    (tail : ∀ c ∈ second.toList, isBlank c = false) : isWord (first ++ second) = true := by
  rw [isWord_iff] at head ⊢
  rw [String.toList_append]
  exact ⟨by simp [head.1], fun c member => (List.mem_append.mp member).elim (head.2 c) (tail c)⟩

theorem isWord_toString (value : Int) : isWord (toString value) = true := by
  refine isWord_iff.mpr
    ⟨?_, fun c member => isBlank_of_isNumeric (isNumeric_of_mem_toString member)⟩
  rw [Int.toString_eq_repr, Int.repr_eq_if]
  split
  · exact toString_ne_empty value.toNat
  · simp

def spaced (words : List String) : String := String.intercalate " " words

/-- Texts can be told apart in a row, if what separates them does not occur in them. -/
theorem splitOn_intercalate_texts (separator : String) (mark : Char)
    (single : separator.toList = [mark]) {texts : List String}
    (free : ∀ text ∈ texts, mark ∉ text.toList) (some : texts ≠ []) :
    (List.splitOn mark (separator.intercalate texts).toList).map String.ofList = texts := by
  rw [String.toList_intercalate, single, List.splitOn_intercalate mark ?_ (by simpa using some),
    List.map_map]
  · simp
  · rintro _ member
    obtain ⟨text, isThere, rfl⟩ := List.mem_map.mp member
    exact free text isThere

/-- Different rows of words have different texts. -/
theorem spaced_inj {first second : List String} (firstWords : ∀ text ∈ first, isWord text = true)
    (secondWords : ∀ text ∈ second, isWord text = true) (some : first ≠ []) (others : second ≠ []) :
    spaced first = spaced second ↔ first = second := by
  refine ⟨fun same => ?_, fun same => by rw [same]⟩
  have noSpace {text : String} (word : isWord text = true) : ' ' ∉ text.toList :=
    fun member => absurd ((isWord_iff.mp word).2 _ member) (by decide)
  rw [← splitOn_intercalate_texts " " ' ' rfl (fun _ member => noSpace (firstWords _ member)) some,
    ← splitOn_intercalate_texts " " ' ' rfl (fun _ member => noSpace (secondWords _ member)) others]
  exact congrArg (fun text => (List.splitOn ' ' text.toList).map String.ofList) same

/-! ### Rows -/

/-- A text that begins and ends with something other than blanks, and has no blanks but spaces
in between. -/
structure IsRow (text : String) : Prop where
  starts : ∃ first rest, text.toList = first :: rest ∧ isBlank first = false
  ends : ∃ front last, text.toList = front ++ [last] ∧ isBlank last = false
  within : ∀ c ∈ text.toList, c = ' ' ∨ isBlank c = false

theorem spaced_cons_cons (first second : String) (rest : List String) :
    (spaced (first :: second :: rest)).toList =
      first.toList ++ ' ' :: (spaced (second :: rest)).toList := by
  simp [spaced, String.toList_intercalate]

theorem isRow_of_isWord {word : String} (isWord : isWord word = true) : IsRow word := by
  obtain ⟨some, noBlank⟩ := isWord_iff.mp isWord
  refine ⟨?_, ?_, fun c member => .inr (noBlank c member)⟩
  · obtain ⟨first, rest, same⟩ := List.exists_cons_of_ne_nil some
    exact ⟨first, rest, same, noBlank first (by simp [same])⟩
  · obtain ⟨front, last, same⟩ := (List.eq_nil_or_concat' _).resolve_left some
    exact ⟨front, last, same, noBlank last (by simp [same])⟩

theorem isRow_spaced {first : String} {rest : List String} (isWord : Text.isWord first = true)
    (areWords : ∀ word ∈ rest, Text.isWord word = true) : IsRow (spaced (first :: rest)) := by
  induction rest generalizing first with
  | nil =>
      rw [spaced, String.intercalate_singleton]
      exact isRow_of_isWord isWord
  | cons second rest ih =>
      obtain ⟨secondIsWord, restAreWords⟩ := List.forall_mem_cons.mp areWords
      have head := isRow_of_isWord isWord
      have tail := ih secondIsWord restAreWords
      refine ⟨?_, ?_, ?_⟩
      · obtain ⟨c, others, same, noBlank⟩ := head.starts
        exact ⟨c, _, by rw [spaced_cons_cons, same]; rfl, noBlank⟩
      · obtain ⟨front, c, same, noBlank⟩ := tail.ends
        exact ⟨first.toList ++ ' ' :: front, c, by rw [spaced_cons_cons, same]; simp, noBlank⟩
      · intro c member
        rw [spaced_cons_cons, List.mem_append, List.mem_cons] at member
        rcases member with inHead | rfl | inTail
        · exact head.within c inHead
        · exact .inl rfl
        · exact tail.within c inTail

theorem trimEnd_eq_self {text : String}
    (ends : ∃ front last, text.toList = front ++ [last] ∧ isBlank last = false) :
    trimEnd text = text := by
  obtain ⟨front, last, same, noBlank⟩ := ends
  rw [trimEnd, dropBlankEnd, same, List.reverse_append, List.reverse_singleton,
    List.singleton_append, List.dropWhile_cons_of_neg (by simp [noBlank]), List.reverse_cons,
    List.reverse_reverse, ← same, String.ofList_toList]

/-- What stands behind the separators ends the whole text. -/
theorem exists_intercalate_concat (separator : String) (texts : List String) (last : String) :
    ∃ front, (separator.intercalate (texts ++ [last])).toList = front ++ last.toList := by
  induction texts with
  | nil => exact ⟨[], by simp⟩
  | cons text rest ih =>
      obtain ⟨front, same⟩ := ih
      obtain ⟨next, others, split⟩ : ∃ next others, rest ++ [last] = next :: others :=
        List.exists_cons_of_ne_nil (by simp)
      refine ⟨text.toList ++ separator.toList ++ front, ?_⟩
      rw [List.append_assoc, ← same, String.toList_intercalate, String.toList_intercalate,
        List.cons_append, split, List.map_cons, List.map_cons, List.intercalate_cons_cons,
        List.append_assoc]

end TreeBackend.Text
