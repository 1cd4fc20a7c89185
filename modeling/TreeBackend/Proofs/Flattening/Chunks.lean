import Mathlib.Data.List.Forall2
import TreeBackend.Proofs.Flattening.Supply

/-!
# Flattened chunks

Flattening goes through the chunks of a program in their order, changes the bodies
of functions and nothing else.
-/

namespace TreeBackend.Flattening

open IR (Stmt TempSupply Chunk)

def Flattens (supply : TempSupply) : Chunk → Chunk → Prop
  | .code frame body, flat => ∃ first last items, supply.issued ≤ first.issued ∧
      ofStmt body first = .ok (items, last) ∧ flat = .code frame (.seq items)
  | chunk, flat => flat = chunk

variable {supply rest : TempSupply}

theorem Flattens.mono {earlier : TempSupply} {chunk flat : Chunk}
    (flattens : Flattens supply chunk flat) (le : earlier.issued ≤ supply.issued) :
    Flattens earlier chunk flat := by
  cases chunk with
  | code frame body =>
      obtain ⟨first, last, items, above, flattened, same⟩ := flattens
      exact ⟨first, last, items, le.trans above, flattened, same⟩
  | data slot text => exact flattens
  | global slot => exact flattens

theorem ofChunk_flattens {chunk flat : Chunk}
    (flattened : ofChunk chunk supply = .ok (flat, rest)) :
    Flattens supply chunk flat ∧ supply.issued ≤ rest.issued := by
  cases chunk with
  | code frame body =>
      simp only [ofChunk, bind_eq_ok, pure_eq_ok] at flattened
      obtain ⟨items, last, bodied, rfl, rfl⟩ := flattened
      exact ⟨⟨supply, _, items, Nat.le_refl _, bodied, rfl⟩, ofStmt_issued_le body bodied⟩
  | data slot text =>
      obtain ⟨rfl, rfl⟩ := pure_eq_ok.mp flattened
      exact ⟨rfl, Nat.le_refl _⟩
  | global slot =>
      obtain ⟨rfl, rfl⟩ := pure_eq_ok.mp flattened
      exact ⟨rfl, Nat.le_refl _⟩

theorem ofChunks_flattens {chunks flat : List Chunk}
    (flattened : ofChunks chunks supply = .ok (flat, rest)) :
    List.Forall₂ (Flattens supply) chunks flat := by
  induction chunks generalizing supply flat with
  | nil =>
      obtain ⟨rfl, -⟩ := pure_eq_ok.mp flattened
      exact .nil
  | cons chunk others ih =>
      simp only [ofChunks, bind_eq_ok, pure_eq_ok] at flattened
      obtain ⟨first, middle, chunkFlat, last, _, othersFlat, rfl, rfl⟩ := flattened
      obtain ⟨flattens, le⟩ := ofChunk_flattens chunkFlat
      exact .cons flattens ((ih othersFlat).imp fun chunk flat flattens => flattens.mono le)

section Members

variable {chunks flat : List Chunk}

theorem exists_flattened (flattened : ofChunks chunks supply = .ok (flat, rest)) {chunk : Chunk}
    (member : chunk ∈ chunks) : ∃ result ∈ flat, Flattens supply chunk result := by
  have pairs := ofChunks_flattens flattened
  clear flattened
  induction pairs with
  | nil => simp at member
  | cons flattens _ ih =>
      rcases List.mem_cons.mp member with rfl | member
      · exact ⟨_, List.mem_cons_self .., flattens⟩
      · obtain ⟨result, inRest, flattens⟩ := ih member
        exact ⟨result, List.mem_cons_of_mem _ inRest, flattens⟩

theorem exists_unflattened (flattened : ofChunks chunks supply = .ok (flat, rest))
    {result : Chunk} (member : result ∈ flat) : ∃ chunk ∈ chunks, Flattens supply chunk result := by
  have pairs := ofChunks_flattens flattened
  clear flattened
  induction pairs with
  | nil => simp at member
  | cons flattens _ ih =>
      rcases List.mem_cons.mp member with rfl | member
      · exact ⟨_, List.mem_cons_self .., flattens⟩
      · obtain ⟨chunk, inRest, flattens⟩ := ih member
        exact ⟨chunk, List.mem_cons_of_mem _ inRest, flattens⟩

/-- Whatever is no function stays as it is. -/
theorem mem_flattened (flattened : ofChunks chunks supply = .ok (flat, rest)) {chunk : Chunk}
    (noCode : ∀ frame body, chunk ≠ .code frame body) (member : chunk ∈ chunks) :
    chunk ∈ flat := by
  obtain ⟨result, isThere, flattens⟩ := exists_flattened flattened member
  cases chunk with
  | code frame body => exact (noCode frame body rfl).elim
  | data slot text =>
      obtain rfl := flattens
      exact isThere
  | global slot =>
      obtain rfl := flattens
      exact isThere

end Members

end TreeBackend.Flattening
