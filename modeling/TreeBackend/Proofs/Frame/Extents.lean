import Mathlib.Algebra.Order.BigOperators.Group.List
import Mathlib.Algebra.Order.Ring.Int
import TreeBackend.Proofs.Frame.Description

/-!
# Frames that fit into a word

The locals of a function are added up in words.  If what a frame takes fits into a word, and no
local takes less than nothing, then nothing is lost on the way: each local lies directly below
the one before it, and the sizes of the frame are what its parts take together.
-/

namespace TreeBackend

open Source

/-! ### Extents of frames -/

theorem foldl_max_bounds (calls : List Nat) (start : Int) (aligned : start % Word.size = 0) :
    start ≤ calls.foldl (fun size arguments => max size (callSize arguments)) start ∧
      calls.foldl (fun size arguments => max size (callSize arguments)) start % Word.size = 0 ∧
      ∀ count ∈ calls,
        callSize count ≤ calls.foldl (fun size arguments => max size (callSize arguments)) start := by
  induction calls generalizing start with
  | nil => simp [aligned]
  | cons count rest ih =>
      have nextAligned : max start (callSize count) % Word.size = 0 := by
        unfold callSize Word.size at *
        omega
      obtain ⟨above, whole, each⟩ := ih (max start (callSize count)) nextAligned
      rw [List.foldl_cons]
      refine ⟨by omega, whole, fun other member => ?_⟩
      rcases List.mem_cons.mp member with rfl | member
      · omega
      · exact each other member

/-- What is as large as each of some calls is as large as the largest one of them. -/
theorem foldl_max_le {calls : List Nat} {start bound : Int} (above : start ≤ bound)
    (each : ∀ count ∈ calls, callSize count ≤ bound) :
    calls.foldl (fun size arguments => max size (callSize arguments)) start ≤ bound := by
  induction calls generalizing start with
  | nil => exact above
  | cons count rest ih =>
      rw [List.forall_mem_cons] at each
      have next : max start (callSize count) ≤ bound :=
        Int.max_le.mpr ⟨above, each.1⟩
      exact ih next each.2

theorem argumentsSize_frame (resolution : Resolution) (function : Function) (label : Label) :
    0 ≤ (function.frame resolution label).argumentsSize ∧
      (function.frame resolution label).argumentsSize % Word.size = 0 ∧
      ∀ count ∈ function.contents.calls,
        callSize count ≤ (function.frame resolution label).argumentsSize :=
  foldl_max_bounds function.contents.calls 0 rfl

def Source.Resolution.totalExtent (resolution : Resolution) (locals : List Variable) : Int :=
  (locals.map fun owned => resolution.extent owned.node.id).sum

@[simp] theorem totalExtent_nil (resolution : Resolution) : resolution.totalExtent [] = 0 := rfl

@[simp] theorem totalExtent_cons (resolution : Resolution) (owned : Variable)
    (rest : List Variable) : resolution.totalExtent (owned :: rest) =
      resolution.extent owned.node.id + resolution.totalExtent rest := List.sum_cons

theorem totalExtent_append (resolution : Resolution) (first second : List Variable) :
    resolution.totalExtent (first ++ second) =
      resolution.totalExtent first + resolution.totalExtent second := by
  simp [Resolution.totalExtent]

namespace Source.Function

variable (resolution : Resolution) (function : Function)

def localsExtent : Int := resolution.totalExtent function.contents.locals

/-- The bytes of the frame of a function: its locals, the saved frame pointer, the return address
and the arguments of its largest call. -/
def frameExtent : Int :=
  function.localsExtent resolution + 2 * Word.size +
    function.contents.calls.foldl (fun size arguments => max size (callSize arguments)) 0

/-- A word can hold the size of the frame of a function, and no local takes less than nothing. -/
structure FrameFits : Prop where
  nonneg : ∀ owned ∈ function.contents.locals, 0 ≤ resolution.extent owned.node.id
  fits : Word.Fits (function.frameExtent resolution)

end Source.Function

/-! ### Locals without gaps -/

section Stacked

variable {resolution : Resolution} {table : FrameTable} {level : Nat} {used : Int}
  {locals : List Variable}

/-- Variables lie one below the other, below the ones that take the given room. -/
def LocalsStacked (resolution : Resolution) (table : FrameTable) (level : Nat) :
    (used : Int) → List Variable → Prop
  | _, [] => True
  | used, owned :: rest =>
      let size := resolution.extent owned.node.id
      table.storage? owned.node.id = some (.localVar ⟨size, -(used + size), level⟩) ∧
        LocalsStacked resolution table level (used + size) rest

/-- A size within the bounds of a word is exact. -/
theorem storageSize_eq_extent {definition : NodeId} (lower : 0 ≤ resolution.extent definition)
    (upper : resolution.extent definition < 9223372036854775808) :
    resolution.storageSize definition = resolution.extent definition := by
  rw [resolution.storageSize_eq_wrap]
  apply Word.wrap_of_fits
  unfold Word.Fits
  omega

theorem totalExtent_nonneg (nonneg : ∀ owned ∈ locals, 0 ≤ resolution.extent owned.node.id) :
    0 ≤ resolution.totalExtent locals :=
  List.sum_nonneg (List.forall_mem_map.mpr nonneg)

/-- As long as a word can hold what locals take together, their sizes add up to it, and they lie
directly below each other. -/
theorem LocalsPlaced.stacked (placed : LocalsPlaced resolution table level used locals)
    (lower : 0 ≤ used) (nonneg : ∀ owned ∈ locals, 0 ≤ resolution.extent owned.node.id)
    (upper : used + resolution.totalExtent locals < 9223372036854775808) :
    LocalsStacked resolution table level used locals := by
  induction locals generalizing used with
  | nil => trivial
  | cons owned rest ih =>
      obtain ⟨first, others⟩ := List.forall_mem_cons.mp nonneg
      have behind := totalExtent_nonneg others
      rw [totalExtent_cons] at upper
      have size := storageSize_eq_extent first (by omega)
      have grown : Word.wrap (used + resolution.extent owned.node.id) =
          used + resolution.extent owned.node.id := by
        apply Word.wrap_of_fits
        unfold Word.Fits
        omega
      have offset : Word.wrap (-(used + resolution.extent owned.node.id)) =
          -(used + resolution.extent owned.node.id) := by
        apply Word.wrap_of_fits
        unfold Word.Fits
        omega
      obtain ⟨stored, placed⟩ := placed
      rw [size, grown, offset] at stored
      rw [size, grown] at placed
      exact ⟨stored, ih placed (by omega) others (by omega)⟩

theorem foldl_wrap_eq (lower : 0 ≤ used)
    (nonneg : ∀ owned ∈ locals, 0 ≤ resolution.extent owned.node.id)
    (upper : used + resolution.totalExtent locals < 9223372036854775808) :
    locals.foldl (fun size owned => Word.wrap (size + resolution.storageSize owned.node.id)) used =
      used + resolution.totalExtent locals := by
  induction locals generalizing used with
  | nil => exact (Int.add_zero used).symm
  | cons owned rest ih =>
      obtain ⟨first, others⟩ := List.forall_mem_cons.mp nonneg
      have behind := totalExtent_nonneg others
      rw [totalExtent_cons] at upper ⊢
      have size := storageSize_eq_extent first (by omega)
      have grown : Word.wrap (used + resolution.extent owned.node.id) =
          used + resolution.extent owned.node.id := by
        apply Word.wrap_of_fits
        unfold Word.Fits
        omega
      rw [List.foldl_cons, size, grown, ih (by omega) others (by omega), Int.add_assoc]

end Stacked

/-! ### Sizes of frames -/

namespace Source.Function.FrameFits

variable {resolution : Resolution} {table : FrameTable} {first last : LabelSupply}
  {function : Function} (fits : function.FrameFits resolution)
include fits

/-- All parts of a frame are smaller than what a word can hold. -/
theorem bounds (label : Label) : 0 ≤ function.localsExtent resolution ∧
    function.localsExtent resolution + 2 * Word.size +
      (function.frame resolution label).argumentsSize < 9223372036854775808 :=
  ⟨totalExtent_nonneg fits.nonneg, fits.fits.2⟩

theorem localsSize_frame (label : Label) :
    (function.frame resolution label).localsSize = function.localsExtent resolution := by
  have upper := (fits.bounds label).2
  have arguments := (argumentsSize_frame resolution function label).1
  have locals := @foldl_wrap_eq resolution 0 _ (Int.le_refl 0) fits.nonneg (by
    unfold localsExtent Word.size at upper
    omega)
  rw [Int.zero_add] at locals
  exact locals

theorem savedPointerOffset_frame (label : Label) :
    (function.frame resolution label).savedPointerOffset =
      function.localsExtent resolution + Word.size := by
  obtain ⟨lower, upper⟩ := fits.bounds label
  have arguments := (argumentsSize_frame resolution function label).1
  rw [Frame.savedPointerOffset, fits.localsSize_frame]
  apply Word.wrap_of_fits
  unfold Word.Fits
  unfold Word.size at *
  omega

theorem size_frame (label : Label) :
    (function.frame resolution label).size = function.frameExtent resolution := by
  rw [Frame.size, fits.localsSize_frame]
  exact Word.wrap_of_fits fits.fits

/-- The locals of a function lie directly below each other, from the frame pointer on. -/
theorem locals_stacked (laid : function.LaidOut resolution table first last) :
    LocalsStacked resolution table function.depth 0 function.contents.locals := by
  obtain ⟨label, -, -⟩ := laid.frame
  obtain ⟨-, upper⟩ := fits.bounds label
  have arguments := (argumentsSize_frame resolution function label).1
  refine laid.locals.stacked (Int.le_refl 0) fits.nonneg ?_
  unfold localsExtent Word.size at upper
  omega

end Source.Function.FrameFits

end TreeBackend
