import Mathlib

/-!
# Ranges in a row

Regions of memory that lie one behind the other, without overlap or gap.
-/

namespace TreeBackend

/-- Regions that cover the range between two offsets, each part of it once. -/
structure Tiles (low high : Int) (regions : List (Set Int)) : Prop where
  ordered : low ≤ high
  disjoint : regions.Pairwise Disjoint
  union : ⋃ region ∈ regions, region = Set.Ico low high

namespace Tiles

variable {low middle high : Int} {regions others : List (Set Int)}

theorem nil (offset : Int) : Tiles offset offset [] where
  ordered := le_refl offset
  disjoint := .nil
  union := by simp

theorem single (ordered : low ≤ high) : Tiles low high [Set.Ico low high] where
  ordered := ordered
  disjoint := List.pairwise_singleton ..
  union := by simp

theorem subset (tiles : Tiles low high regions) {region : Set Int} (member : region ∈ regions) :
    region ⊆ Set.Ico low high :=
  tiles.union ▸ Set.subset_biUnion_of_mem (u := fun region : Set Int => region) member

theorem append (below : Tiles low middle regions) (above : Tiles middle high others) :
    Tiles low high (regions ++ others) where
  ordered := below.ordered.trans above.ordered
  disjoint := by
    refine List.pairwise_append.mpr ⟨below.disjoint, above.disjoint, ?_⟩
    intro region member other otherMember
    refine Set.disjoint_of_subset (below.subset member) (above.subset otherMember) ?_
    exact Set.Ico_disjoint_Ico_same
  union := by
    rw [← Set.Ico_union_Ico_eq_Ico below.ordered above.ordered, ← below.union, ← above.union]
    ext offset
    simp only [List.mem_append, Set.mem_iUnion, Set.mem_union, exists_prop]
    grind

/-- Regions may also be named from the highest one down. -/
theorem appendBelow (above : Tiles middle high regions) (below : Tiles low middle others) :
    Tiles low high (regions ++ others) where
  ordered := below.ordered.trans above.ordered
  disjoint := (List.perm_append_comm.pairwise_iff fun apart => Disjoint.symm apart).mp
    (below.append above).disjoint
  union := by
    rw [← (below.append above).union]
    ext offset
    simp [or_comm]

end Tiles

end TreeBackend
