import TreeBackend.Proofs.Flattening.Failures

/-!
# When flattening succeeds

Flattening succeeds if all stores go to temporaries and cells, which a look at the
tree decides.
-/

namespace TreeBackend

open IR (Expr Stmt)

mutual

/-- Whether all stores inside an expression go to temporaries and cells. -/
def IR.Expr.isFlattenable : Expr → Bool
  | .const _ | .name _ | .temp _ => true
  | .mem address => address.isFlattenable
  | .binop _ left right => left.isFlattenable && right.isFlattenable
  | .call _ arguments => Expr.areFlattenable arguments
  | .eseq effect value => effect.isFlattenable && value.isFlattenable

/-- Whether all stores inside expressions go to temporaries and cells. -/
def IR.Expr.areFlattenable : List Expr → Bool
  | [] => true
  | expression :: rest => expression.isFlattenable && Expr.areFlattenable rest

/-- Whether all stores of a statement go to temporaries and cells. -/
def IR.Stmt.isFlattenable : Stmt → Bool
  | .seq items => Stmt.areFlattenable items
  | .label _ | .jump _ => true
  | .cjump condition _ _ => condition.isFlattenable
  | .exp value => value.isFlattenable
  | .move target source => source.isFlattenable && target.isFlattenable && target.isTarget

/-- Whether all stores of statements go to temporaries and cells. -/
def IR.Stmt.areFlattenable : List Stmt → Bool
  | [] => true
  | statement :: rest => statement.isFlattenable && Stmt.areFlattenable rest

end

theorem IR.Expr.forall_mem_storeTargetsUpTo {holds : Expr → Prop} {target : Expr}
    (expression : Expr) : (∀ other ∈ expression.storeTargetsUpTo target, holds other) ↔
      (∀ other ∈ expression.storeTargets, holds other) ∧ holds target := by
  cases expression with
  | const | name | temp => simp [Expr.storeTargetsUpTo, Expr.storeTargets]
  | mem | binop | call =>
      rw [and_comm]
      simp [Expr.storeTargetsUpTo, Expr.storeTargets]
  | eseq effect value =>
      rw [Expr.storeTargetsUpTo, Expr.storeTargets, List.forall_mem_append,
        List.forall_mem_append, Expr.forall_mem_storeTargetsUpTo value, and_assoc]

mutual

theorem IR.Expr.isFlattenable_iff : (expression : Expr) → (expression.isFlattenable = true ↔
    ∀ target ∈ expression.storeTargets, target.isTarget = true)
  | .const _ | .name _ | .temp _ => by simp [Expr.isFlattenable, Expr.storeTargets]
  | .mem address => address.isFlattenable_iff
  | .binop _ left right => by
      rw [Expr.isFlattenable, Expr.storeTargets, List.forall_mem_append, Bool.and_eq_true,
        left.isFlattenable_iff, right.isFlattenable_iff]
  | .call _ arguments => Expr.areFlattenable_iff arguments
  | .eseq effect value => by
      rw [Expr.isFlattenable, Expr.storeTargets, List.forall_mem_append, Bool.and_eq_true,
        effect.isFlattenable_iff, value.isFlattenable_iff]

theorem IR.Expr.areFlattenable_iff : (expressions : List Expr) →
    (Expr.areFlattenable expressions = true ↔
      ∀ target ∈ Expr.storeTargetsOfList expressions, target.isTarget = true)
  | [] => by simp [Expr.areFlattenable, Expr.storeTargetsOfList]
  | expression :: rest => by
      rw [Expr.areFlattenable, Expr.storeTargetsOfList, List.forall_mem_append,
        Bool.and_eq_true, expression.isFlattenable_iff, Expr.areFlattenable_iff rest]

theorem IR.Stmt.isFlattenable_iff : (statement : Stmt) → (statement.isFlattenable = true ↔
    ∀ target ∈ statement.storeTargets, target.isTarget = true)
  | .seq items => Stmt.areFlattenable_iff items
  | .label _ | .jump _ => by simp [Stmt.isFlattenable, Stmt.storeTargets]
  | .cjump condition _ _ => condition.isFlattenable_iff
  | .exp value => value.isFlattenable_iff
  | .move target source => by
      rw [Stmt.isFlattenable, Stmt.storeTargets, List.forall_mem_append,
        Expr.forall_mem_storeTargetsUpTo target, Bool.and_eq_true, Bool.and_eq_true,
        source.isFlattenable_iff, target.isFlattenable_iff, and_assoc, and_comm, and_assoc]

theorem IR.Stmt.areFlattenable_iff : (statements : List Stmt) →
    (Stmt.areFlattenable statements = true ↔
      ∀ target ∈ Stmt.storeTargetsOfList statements, target.isTarget = true)
  | [] => by simp [Stmt.areFlattenable, Stmt.storeTargetsOfList]
  | statement :: rest => by
      rw [Stmt.areFlattenable, Stmt.storeTargetsOfList, List.forall_mem_append,
        Bool.and_eq_true, statement.isFlattenable_iff, Stmt.areFlattenable_iff rest]

end

namespace Flattening

/-- A part of flattening succeeds exactly under a condition, and otherwise reports
a store that cannot be flattened. -/
def Decides {α : Type} (part : Flattening α) (condition : Prop) : Prop :=
  ∀ supply, (condition ∧ ∃ result rest, part supply = .ok (result, rest)) ∨
    (¬condition ∧ ∃ what, part supply = .error (.unflattenable what))

namespace Decides

variable {α β : Type} {part : Flattening α} {next : α → Flattening β} {first second : Prop}

theorem pure (value : α) : Decides (pure value : Flattening α) True :=
  fun supply => .inl ⟨trivial, value, supply, rfl⟩

theorem bind (left : Decides part first) (right : ∀ value, Decides (next value) second) :
    Decides (part >>= next) (first ∧ second) := by
  intro supply
  change (_ ∧ ∃ result rest, (part supply >>= fun step => next step.1 step.2) = _) ∨
    (_ ∧ ∃ what, (part supply >>= fun step => next step.1 step.2) = _)
  rcases left supply with ⟨holds, value, middle, done⟩ | ⟨fails, what, failed⟩
  · rcases right value middle with ⟨alsoHolds, done'⟩ | ⟨fails, failed⟩
    · exact .inl ⟨⟨holds, alsoHolds⟩, by rw [done]; exact done'⟩
    · exact .inr ⟨fun both => fails both.2, by rw [done]; exact failed⟩
  · exact .inr ⟨fun both => fails both.1, what, by rw [failed]; rfl⟩

theorem congr (decides : Decides part first) (same : first ↔ second) : Decides part second := by
  rwa [propext same] at decides

/-- A part that never fails. -/
theorem then_pure (decides : Decides part first) (finish : α → β) :
    Decides (part >>= fun value => Pure.pure (finish value)) first :=
  (decides.bind fun value => pure (finish value)).congr (and_iff_left trivial)

end Decides

theorem Reaches.decides {α : Type} {part : Flattening α} {targets : List Expr}
    (reaches : Reaches part targets) :
    Decides part (∀ target ∈ targets, target.isTarget = true) := by
  intro supply
  have reached := reaches supply
  rw [← Expr.firstMisplaced?_eq_none_iff]
  cases found : Expr.firstMisplaced? targets with
  | none =>
      rw [found] at reached
      exact .inl ⟨rfl, reached⟩
  | some target =>
      rw [found] at reached
      exact .inr ⟨Option.some_ne_none target, _, reached⟩

theorem decides_ofStmt (statement : Stmt) :
    Decides (ofStmt statement) (statement.isFlattenable = true) :=
  (reaches_ofStmt statement).decides.congr statement.isFlattenable_iff.symm

def isFlattenable : IR.Chunk → Bool
  | .code _ body => body.isFlattenable
  | .data .. | .global _ => true

theorem decides_ofChunk (chunk : IR.Chunk) : Decides (ofChunk chunk) (isFlattenable chunk = true) :=
  match chunk with
  | .code _ body => (decides_ofStmt body).then_pure _
  | .data .. | .global _ => (Decides.pure _).congr (iff_of_true trivial rfl)

theorem decides_ofChunks (chunks : List IR.Chunk) :
    Decides (ofChunks chunks) (∀ chunk ∈ chunks, isFlattenable chunk = true) := by
  induction chunks with
  | nil => exact (Decides.pure _).congr (iff_of_true trivial (by simp))
  | cons chunk rest ih =>
      refine ((decides_ofChunk chunk).bind fun _ => ih.then_pure _).congr ?_
      rw [List.forall_mem_cons]

end Flattening

end TreeBackend
