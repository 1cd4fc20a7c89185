import Mathlib.Data.List.Nodup
import TreeBackend.Proofs.Flattening.Labels
import TreeBackend.Proofs.Flattening.Plain
import TreeBackend.Proofs.Machine.Leads

/-!
# The jumps of a function

The table of the jumps of a function sends each label of a flat body to its
statement, provided that no label occurs twice there.
-/

namespace TreeBackend

namespace Table

variable {κ α : Type} [DecidableEq κ]

/-- The entries that are written leave the other keys alone, and the last one with
a key counts. -/
theorem get?_foldl_insert {key : κ} {value : α} (entries : List (κ × α)) (table : Table κ α)
    (once : (entries.map Prod.fst).Nodup)
    (written : (key, value) ∈ entries ∨ key ∉ entries.map Prod.fst ∧ table.get? key = some value) :
    (entries.foldl (fun table entry => table.insert entry.1 entry.2) table).get? key =
      some value := by
  induction entries generalizing table with
  | nil => simpa using written
  | cons entry rest ih =>
      rw [List.map_cons, List.nodup_cons] at once
      rw [List.foldl_cons]
      refine ih (table.insert entry.1 entry.2) once.2 ?_
      rcases written with member | ⟨absent, found⟩
      · rcases List.mem_cons.mp member with rfl | member
        · exact .inr ⟨once.1, by rw [get?_insert, if_pos rfl]⟩
        · exact .inl member
      · rw [List.map_cons, List.mem_cons, not_or] at absent
        exact .inr ⟨absent.2, by rw [get?_insert, if_neg (Ne.symm absent.1), found]⟩

theorem get?_ofList {key : κ} {value : α} {entries : List (κ × α)}
    (once : (entries.map Prod.fst).Nodup) (member : (key, value) ∈ entries) :
    (ofList entries).get? key = some value :=
  get?_foldl_insert entries {} once (.inl member)

end Table

namespace Machine

open IR (Stmt Chunk)
open Flattening (definedLabels ArePlain)

namespace Routine

theorem map_labelPositions (position : Nat) (items : List Stmt) :
    (labelPositions position items).map Prod.fst = definedLabels items := by
  induction items generalizing position with
  | nil => rfl
  | cons statement rest ih =>
      cases statement <;> simp [labelPositions, definedLabels, ih]

theorem mem_labelPositions {items : List Stmt} {index : Nat} {label : Label} (position : Nat)
    (found : items[index]? = some (.label label)) :
    (label, position + index) ∈ labelPositions position items := by
  induction items generalizing position index with
  | nil => simp at found
  | cons statement rest ih =>
      cases index with
      | zero =>
          obtain rfl : statement = .label label := by simpa using found
          exact List.mem_cons_self ..
      | succ index =>
          have inRest := ih (position + 1) (by simpa using found)
          rw [Nat.add_assoc, Nat.add_comm 1] at inRest
          cases statement with
          | label _ => exact List.mem_cons_of_mem _ inRest
          | seq | jump | cjump | exp | move => exact inRest

/-- The jumps of a function with a flat body. -/
def jumpsOf (items : List Stmt) : Table Label Nat := .ofList (labelPositions 0 items)

theorem jumps?_ofBody (frame : Frame) {items : List Stmt} (plain : ArePlain items) :
    (ofBody frame (.seq items)).jumps? = some (jumpsOf items) :=
  if_pos (List.all_eq_true.mpr plain)

/-- A flat body stands at its own beginning. -/
theorem placed_ofBody {items : List Stmt} (once : (definedLabels items).Nodup) :
    (Code.ofBody items.toArray (jumpsOf items)).Placed 0 items where
  statement found := by simpa [Code.ofBody] using found
  target {index label} found := by
    have member := mem_labelPositions 0 found
    exact Table.get?_ofList (by rwa [map_labelPositions]) member

end Routine

end Machine

end TreeBackend
