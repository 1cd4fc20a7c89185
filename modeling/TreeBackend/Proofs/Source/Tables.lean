import Mathlib
import TreeBackend.Proofs.Source.Extents

/-!
# Tables

A table is a word, or an array of tables.  Its elements lie in a row: the first subscript
counts in steps of the size of what one subscript leaves, and the subscripts behind it count
within that.  If a word can hold the size of the table, then it can hold that of each element, so
subscripts in range lead into the table, and different ones to different bytes.
-/

namespace TreeBackend.Source.Ty

/-- Whether a type is one of words, or of arrays of such with at least one element. -/
def isTable : Ty → Bool
  | .int | .log | .str => true
  | .array length element => decide (0 < length) && element.isTable
  | .void | .function .. => false

/-- The type that a number of subscripts leaves. -/
def after? : Ty → (subscripts : Nat) → Option Ty
  | ty, 0 => some ty
  | .array _ element, subscripts + 1 => element.after? subscripts
  | _, _ + 1 => none

/-- The sizes of the types that one subscript leaves, two subscripts, and so on. -/
def strides : Ty → List Int
  | .array _ element => element.storageSize :: element.strides
  | _ => []

/-- Subscripts that are indices of the arrays to which they are applied. -/
def InRange : Ty → List Int → Prop
  | _, [] => True
  | .array length element, index :: rest => (0 ≤ index ∧ index < length) ∧ element.InRange rest
  | _, _ :: _ => False

/-- How far an element lies behind the beginning of a table. -/
def offset (ty : Ty) (indices : List Int) : Int := (List.zipWith (· * ·) indices ty.strides).sum

/-- The bytes of an element of a table that begins at an address. -/
def elementRegion (ty : Ty) (base : Int) (indices : List Int) : Set Int :=
  Set.Ico (base + ty.offset indices)
    (base + ty.offset indices + ((ty.after? indices.length).elim 0 storageSize))

variable {ty element : Ty} {length index : Int} {indices others : List Int}

@[simp] theorem after?_zero : ty.after? 0 = some ty := by cases ty <;> rfl

@[simp] theorem offset_nil : ty.offset [] = 0 := rfl

@[simp] theorem offset_cons :
    (array length element).offset (index :: indices) =
      index * element.storageSize + element.offset indices := rfl

/-- A stride is the size of what is left behind the subscript. -/
theorem getElem?_strides (ty : Ty) (subscripts : Nat) :
    ty.strides[subscripts]? = (ty.after? (subscripts + 1)).map storageSize := by
  induction subscripts generalizing ty with
  | zero => cases ty <;> simp [strides, after?]
  | succ subscripts ih =>
      cases ty with
      | array length element => exact ih element
      | int | log | str | void | function => rfl

theorem extent_pos : {ty : Ty} → ty.isTable = true → 0 < ty.extent
  | .int, _ | .log, _ | .str, _ => by decide
  | .array length element, isTable => by
      obtain ⟨positive, elements⟩ : 0 < length ∧ element.isTable = true := by
        simpa [Ty.isTable] using isTable
      exact Int.mul_pos positive (extent_pos elements)

theorem storageSize_pos (isTable : ty.isTable = true) (fits : Word.Fits ty.extent) :
    0 < ty.storageSize := by
  rw [storageSize_eq fits]
  exact extent_pos isTable

/-- The elements of an array are tables that fit into a word if the array does, and the array is as
large as all of them. -/
theorem elements_of_isTable (isTable : (array length element).isTable = true)
    (fits : Word.Fits (array length element).extent) :
    element.isTable = true ∧ Word.Fits element.extent ∧
      (array length element).storageSize = length * element.storageSize := by
  obtain ⟨positive, elements⟩ : 0 < length ∧ element.isTable = true := by
    simpa [Ty.isTable] using isTable
  have size := extent_pos elements
  have le : 1 * element.extent ≤ length * element.extent :=
    Int.mul_le_mul_of_nonneg_right positive size.le
  have whole : (array length element).extent = length * element.extent := rfl
  have fitsElement : Word.Fits element.extent := by
    unfold Word.Fits at *
    omega
  refine ⟨elements, fitsElement, ?_⟩
  rw [storageSize_eq fits, storageSize_eq fitsElement, whole]

/-- The step behind an index of an array ends inside the array. -/
theorem step_le (inside : index < length) (size : 0 ≤ element.storageSize) :
    index * element.storageSize + element.storageSize ≤ length * element.storageSize :=
  calc index * element.storageSize + element.storageSize
      = (index + 1) * element.storageSize := by rw [Int.add_mul, Int.one_mul]
    _ ≤ length * element.storageSize := Int.mul_le_mul_of_nonneg_right inside size

/-- Subscripts in range lead to an element that lies inside the table. -/
theorem offset_bounds (isTable : ty.isTable = true) (fits : Word.Fits ty.extent)
    (inRange : ty.InRange indices) :
    0 ≤ ty.offset indices ∧ ∃ left, ty.after? indices.length = some left ∧
      0 < left.storageSize ∧ ty.offset indices + left.storageSize ≤ ty.storageSize := by
  induction indices generalizing ty with
  | nil => exact ⟨Int.le_refl 0, ty, after?_zero, storageSize_pos isTable fits, by simp⟩
  | cons index rest ih =>
      cases ty with
      | array length element =>
          obtain ⟨⟨above, below⟩, others⟩ := inRange
          obtain ⟨elements, fitsElement, whole⟩ := elements_of_isTable isTable fits
          obtain ⟨nonneg, left, isLeft, positive, inside⟩ := ih elements fitsElement others
          have size := (storageSize_pos elements fitsElement).le
          have step := step_le below size
          have start := Int.mul_nonneg above size
          rw [offset_cons, whole]
          exact ⟨by omega, left, isLeft, positive, by omega⟩
      | int | log | str | void | function => exact inRange.elim

theorem elementRegion_subset (isTable : ty.isTable = true) (fits : Word.Fits ty.extent)
    (inRange : ty.InRange indices) (base : Int) :
    ty.elementRegion base indices ⊆ Set.Ico base (base + ty.storageSize) := by
  obtain ⟨nonneg, left, isLeft, -, inside⟩ := offset_bounds isTable fits inRange
  rw [elementRegion, isLeft]
  exact Set.Ico_subset_Ico (by omega) (by simpa [Int.add_assoc] using inside)

/-- The elements of an array that have different indices do not share a byte. -/
theorem disjoint_steps {other : Int} (different : index ≠ other) (size : 0 ≤ element.storageSize)
    (base : Int) :
    Disjoint
      (Set.Ico (base + index * element.storageSize)
        (base + index * element.storageSize + element.storageSize))
      (Set.Ico (base + other * element.storageSize)
        (base + other * element.storageSize + element.storageSize)) := by
  rw [Set.Ico_disjoint_Ico]
  rcases lt_or_gt_of_ne different with less | greater
  · have step := step_le less size
    omega
  · have step := step_le greater size
    omega

theorem disjoint_elementRegion (isTable : ty.isTable = true) (fits : Word.Fits ty.extent)
    (inRange : ty.InRange indices) (otherInRange : ty.InRange others)
    (asMany : indices.length = others.length)
    (different : indices ≠ others) (base : Int) :
    Disjoint (ty.elementRegion base indices) (ty.elementRegion base others) := by
  induction indices generalizing ty others base with
  | nil => exact (different (List.eq_nil_of_length_eq_zero asMany.symm).symm).elim
  | cons index rest ih =>
      cases others with
      | nil => cases asMany
      | cons other otherRest =>
          cases ty with
          | array length element =>
              obtain ⟨-, inside⟩ := inRange
              obtain ⟨-, otherInside⟩ := otherInRange
              obtain ⟨elements, fitsElement, -⟩ := elements_of_isTable isTable fits
              have region (step : Int) (within : List Int) :
                  (array length element).elementRegion base (step :: within) =
                    element.elementRegion (base + step * element.storageSize) within := by
                simp only [elementRegion, offset_cons, List.length_cons, after?, Int.add_assoc]
              rw [region, region]
              by_cases same : index = other
              · subst same
                exact ih elements fitsElement inside otherInside (Nat.succ.inj asMany)
                  (fun equal => different (by rw [equal])) _
              · exact (disjoint_steps same (storageSize_pos elements fitsElement).le base).mono
                  (elementRegion_subset elements fitsElement inside _)
                  (elementRegion_subset elements fitsElement otherInside _)
          | int | log | str | void | function => exact inRange.elim

/-! ### One more subscript -/

theorem after?_succ {subscripts : Nat} (left : ty.after? subscripts = some (array length element)) :
    ty.after? (subscripts + 1) = some element := by
  induction subscripts generalizing ty with
  | zero =>
      obtain rfl := Option.some_inj.mp (after?_zero.symm.trans left)
      exact after?_zero
  | succ subscripts ih =>
      cases ty with
      | array => exact ih left
      | int | log | str | void | function => cases left

section Snoc

variable (left : ty.after? indices.length = some (array length element))

include left

theorem inRange_snoc :
    ty.InRange (indices ++ [index]) ↔ ty.InRange indices ∧ 0 ≤ index ∧ index < length := by
  induction indices generalizing ty with
  | nil =>
      obtain rfl := Option.some_inj.mp (after?_zero.symm.trans left)
      simp [InRange]
  | cons first rest ih =>
      cases ty with
      | array =>
          rw [List.cons_append, InRange, InRange, ih left, and_assoc, and_assoc, and_assoc]
      | int | log | str | void | function => cases left

theorem offset_snoc :
    ty.offset (indices ++ [index]) = ty.offset indices + index * element.storageSize := by
  induction indices generalizing ty with
  | nil =>
      obtain rfl := Option.some_inj.mp (after?_zero.symm.trans left)
      simp
  | cons first rest ih =>
      cases ty with
      | array => rw [List.cons_append, offset_cons, offset_cons, ih left, Int.add_assoc]
      | int | log | str | void | function => cases left

end Snoc

end TreeBackend.Source.Ty
