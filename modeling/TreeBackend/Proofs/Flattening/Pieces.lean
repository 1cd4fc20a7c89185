import TreeBackend.Proofs.Flattening.Control
import TreeBackend.Proofs.Flattening.Supply

/-!
# The pieces of flattened code

Flattening is compositional.  The statements of an expression stay together wherever the
expression stands: they are a row of statements in the flattened code of the whole.
-/

namespace TreeBackend

namespace IR

mutual

def Expr.pieces : Expr → List Expr
  | .const value => [.const value]
  | .name label => [.name label]
  | .temp temp => [.temp temp]
  | .mem address => .mem address :: address.pieces
  | .binop operator left right => .binop operator left right :: (left.pieces ++ right.pieces)
  | .call label arguments => .call label arguments :: Expr.piecesOfList arguments
  | .eseq effect value => .eseq effect value :: (effect.pieces ++ value.pieces)

def Expr.piecesOfList : List Expr → List Expr
  | [] => []
  | expression :: rest => expression.pieces ++ Expr.piecesOfList rest

/-- All expressions in a statement that are computed. -/
def Stmt.pieces : Stmt → List Expr
  | .seq items => Stmt.piecesOfList items
  | .label _ | .jump _ => []
  | .cjump condition _ _ => condition.pieces
  | .exp value => value.pieces
  | .move target source => target.storePieces ++ source.pieces

def Stmt.piecesOfList : List Stmt → List Expr
  | [] => []
  | statement :: rest => statement.pieces ++ Stmt.piecesOfList rest

/-- The expressions that are computed for a store to a target, apart from what is stored. -/
def Expr.storePieces : Expr → List Expr
  | .mem address => address.pieces
  | .eseq effect value => effect.pieces ++ value.storePieces
  | .const _ | .name _ | .temp _ | .binop .. | .call .. => []

end

theorem Expr.mem_pieces (expression : Expr) : expression ∈ expression.pieces := by
  cases expression <;> simp [Expr.pieces]

@[simp] theorem Stmt.piecesOfList_append (first second : List Stmt) :
    Stmt.piecesOfList (first ++ second) =
      Stmt.piecesOfList first ++ Stmt.piecesOfList second := by
  induction first with
  | nil => rfl
  | cons statement rest ih => simp [Stmt.piecesOfList, ih]

theorem Expr.pieces_subset_piecesOfList {expression : Expr} {expressions : List Expr}
    (member : expression ∈ expressions) : expression.pieces ⊆ Expr.piecesOfList expressions := by
  induction member with
  | head => exact List.subset_append_left ..
  | tail _ _ ih => exact List.subset_append_of_subset_right _ ih

theorem Stmt.pieces_subset_piecesOfList {statement : Stmt} {statements : List Stmt}
    (member : statement ∈ statements) : statement.pieces ⊆ Stmt.piecesOfList statements := by
  induction member with
  | head => exact List.subset_append_left ..
  | tail _ _ ih => exact List.subset_append_of_subset_right _ ih

/-- A statement is one of those that stand in a row in another one, at any depth. -/
inductive Stmt.StandsIn (inner : Stmt) : Stmt → Prop
  | here : StandsIn inner inner
  | row {items : List Stmt} {item : Stmt} : item ∈ items → StandsIn inner item →
      StandsIn inner (.seq items)

theorem Stmt.StandsIn.trans {inner middle outer : Stmt} (first : inner.StandsIn middle)
    (second : middle.StandsIn outer) : inner.StandsIn outer := by
  induction second with
  | here => exact first
  | row member _ ih => exact .row member ih

end IR

namespace Flattening

open IR (Expr Stmt TempSupply)

/-- The statements of an expression, flattened with what is left of a supply, stand in a row
among other statements. -/
structure Includes (supply : TempSupply) (flat : List Stmt) (piece : Expr) : Prop where
  flattened : ∃ part first last, supply.issued ≤ first.issued ∧
    ofExpr piece first = .ok (part, last) ∧ part.before <:+: flat

variable {supply middle rest : TempSupply} {piece : Expr}

theorem Includes.mono {few flat : List Stmt} (includes : Includes middle few piece)
    (le : supply.issued ≤ middle.issued) (inside : few <:+: flat) :
    Includes supply flat piece := by
  obtain ⟨part, first, last, above, flattened, isThere⟩ := includes.flattened
  exact ⟨part, first, last, le.trans above, flattened, isThere.trans inside⟩

/-- An operand comes behind the ones to its left. -/
theorem append_before {operands result : FlattenedOperands} {next : Flattened}
    (appended : append operands next supply = .ok (result, rest)) :
    operands.before <:+: result.before ∧ next.before <:+: result.before := by
  by_cases quiet : next.before = []
  · obtain ⟨rfl, -⟩ := append_of_nil quiet appended
    exact ⟨List.infix_refl _, quiet ▸ List.nil_infix⟩
  · obtain ⟨kept, -, rfl⟩ := append_of_ne_nil quiet appended
    exact ⟨((List.prefix_append _ _).trans (List.prefix_append _ _)).isInfix,
      (List.suffix_append _ _).isInfix⟩

theorem pair_before {first second : Flattened} {before : List Stmt} {left right : Expr}
    (paired : pair first second supply = .ok ((before, left, right), rest)) :
    first.before <:+: before ∧ second.before <:+: before :=
  append_before (pair_eq_ok.mp paired)

/-- Flattened operands stay in front of the ones that follow. -/
theorem ofOperands_before {operands : List Expr} {done flat : FlattenedOperands}
    (flattened : ofOperands done operands supply = .ok (flat, rest)) :
    done.before <:+: flat.before := by
  induction operands generalizing done supply with
  | nil =>
      obtain ⟨rfl, -⟩ := ofOperands_nil_eq_ok.mp flattened
      exact List.infix_refl _
  | cons operand operands ih =>
      obtain ⟨_, _, _, _, -, appended, later⟩ := ofOperands_cons_eq_ok.mp flattened
      exact (append_before appended).1.trans (ih later)

mutual

/-- A flattened statement includes the statements of everything that is computed in it. -/
theorem ofStmt_includes : (statement : Stmt) → {flat : List Stmt} →
    {supply rest : TempSupply} → ofStmt statement supply = .ok (flat, rest) →
    ∀ piece ∈ statement.pieces, Includes supply flat piece
  | .seq items, _, _, _, flattened => ofStmts_includes items (by rwa [ofStmt_seq] at flattened)
  | .label _, _, _, _, _ | .jump _, _, _, _, _ => fun piece member => by
      simp [Stmt.pieces] at member
  | .cjump condition _ _, _, _, _, flattened => fun piece member => by
      obtain ⟨test, flattens, rfl⟩ := ofStmt_cjump_eq_ok.mp flattened
      rw [Stmt.pieces] at member
      exact (ofExpr_includes condition flattens piece member).mono (Nat.le_refl _)
        (List.prefix_append _ _).isInfix
  | .exp value, _, _, _, flattened => fun piece member => by
      obtain ⟨last, flattens, rfl⟩ := ofStmt_exp_eq_ok.mp flattened
      rw [Stmt.pieces] at member
      refine (ofExpr_includes value flattens piece member).mono (Nat.le_refl _) ?_
      split
      · exact List.infix_refl _
      · exact (List.prefix_append _ _).isInfix
  | .move target source, _, _, _, flattened =>
      ofMove_includes target (ofExpr_includes source) (ofExpr_issued_le source)
        (by rwa [ofStmt_move] at flattened)

theorem ofStmts_includes : (statements : List Stmt) → {flat : List Stmt} →
    {supply rest : TempSupply} → ofStmts statements supply = .ok (flat, rest) →
    ∀ piece ∈ Stmt.piecesOfList statements, Includes supply flat piece
  | [], _, _, _, _ => fun piece member => by simp [Stmt.piecesOfList] at member
  | statement :: others, _, _, _, flattened => fun piece member => by
      obtain ⟨_, _, _, first, last, rfl⟩ := ofStmts_cons_eq_ok.mp flattened
      rcases List.mem_append.mp member with member | member
      · exact (ofStmt_includes statement first piece member).mono (Nat.le_refl _)
          (List.prefix_append _ _).isInfix
      · exact (ofStmts_includes others last piece member).mono (ofStmt_issued_le statement first)
          (List.suffix_append _ _).isInfix

theorem ofMove_includes : (target : Expr) → {source : Flattening Flattened} →
    {stored : List Expr} → {flat : List Stmt} → {supply rest : TempSupply} →
    (∀ {value : Flattened} {first last : TempSupply}, source first = .ok (value, last) →
      ∀ piece ∈ stored, Includes first value.before piece) →
    (∀ {value : Flattened} {first last : TempSupply}, source first = .ok (value, last) →
      first.issued ≤ last.issued) →
    ofMove source target supply = .ok (flat, rest) →
    ∀ piece ∈ target.storePieces ++ stored, Includes supply flat piece
  | .temp _, _, _, _, _, _, sourceIncludes, _, flattened => fun piece member => by
      obtain ⟨value, flattens, rfl⟩ := ofMove_temp_eq_ok.mp flattened
      exact (sourceIncludes flattens piece member).mono (Nat.le_refl _)
        (List.prefix_append _ _).isInfix
  | .mem address, _, _, _, _, _, sourceIncludes, _, flattened => fun piece member => by
      obtain ⟨_, _, _, _, _, _, _, place, value, paired, rfl⟩ := ofMove_mem_eq_ok.mp flattened
      obtain ⟨placeInside, valueInside⟩ := pair_before paired
      rcases List.mem_append.mp member with member | member
      · exact (ofExpr_includes address place piece member).mono (Nat.le_refl _)
          (placeInside.trans (List.prefix_append _ _).isInfix)
      · exact (sourceIncludes value piece member).mono (ofExpr_issued_le address place)
          (valueInside.trans (List.prefix_append _ _).isInfix)
  | .eseq effect value, _, _, _, _, _, sourceIncludes, sourceLe, flattened =>
      fun piece member => by
      obtain ⟨_, _, _, first, last, rfl⟩ := ofMove_eseq_eq_ok.mp flattened
      rw [Expr.storePieces, List.append_assoc] at member
      rcases List.mem_append.mp member with member | member
      · exact (ofStmt_includes effect first piece member).mono (Nat.le_refl _)
          (List.prefix_append _ _).isInfix
      · exact (ofMove_includes value sourceIncludes sourceLe last piece member).mono
          (ofStmt_issued_le effect first) (List.suffix_append _ _).isInfix
  | .const _, _, _, _, _, _, _, _, flattened | .name _, _, _, _, _, _, _, _, flattened
  | .binop .., _, _, _, _, _, _, _, flattened | .call .., _, _, _, _, _, _, _, flattened => by
      cases flattened

/-- The statements of a flattened expression include those of everything that is computed in
it. -/
theorem ofExpr_includes : (expression : Expr) → {flat : Flattened} →
    {supply rest : TempSupply} → ofExpr expression supply = .ok (flat, rest) →
    ∀ piece ∈ expression.pieces, Includes supply flat.before piece
  | .const _, _, _, _, flattened | .name _, _, _, _, flattened | .temp _, _, _, _, flattened =>
      fun piece member => by
      obtain rfl := List.mem_singleton.mp (by simpa [Expr.pieces] using member)
      exact ⟨_, _, _, Nat.le_refl _, flattened, List.infix_refl _⟩
  | .mem address, _, _, _, flattened => fun piece member => by
      rcases List.mem_cons.mp member with rfl | member
      · exact ⟨_, _, _, Nat.le_refl _, flattened, List.infix_refl _⟩
      · obtain ⟨_, place, rfl⟩ := ofExpr_mem_eq_ok.mp flattened
        exact ofExpr_includes address place piece member
  | .binop _ left right, _, _, _, flattened => fun piece member => by
      rcases List.mem_cons.mp member with rfl | member
      · exact ⟨_, _, _, Nat.le_refl _, flattened, List.infix_refl _⟩
      · obtain ⟨_, _, _, _, _, _, _, first, second, paired, rfl⟩ :=
          ofExpr_binop_eq_ok.mp flattened
        obtain ⟨firstInside, secondInside⟩ := pair_before paired
        rcases List.mem_append.mp member with member | member
        · exact (ofExpr_includes left first piece member).mono (Nat.le_refl _) firstInside
        · exact (ofExpr_includes right second piece member).mono (ofExpr_issued_le left first)
            secondInside
  | .call _ arguments, _, _, _, flattened => fun piece member => by
      rcases List.mem_cons.mp member with rfl | member
      · exact ⟨_, _, _, Nat.le_refl _, flattened, List.infix_refl _⟩
      · obtain ⟨_, operands, rfl⟩ := ofExpr_call_eq_ok.mp flattened
        exact ofOperands_includes arguments operands piece member
  | .eseq effect value, _, _, _, flattened => fun piece member => by
      rcases List.mem_cons.mp member with rfl | member
      · exact ⟨_, _, _, Nat.le_refl _, flattened, List.infix_refl _⟩
      · obtain ⟨_, _, _, first, last, rfl⟩ := ofExpr_eseq_eq_ok.mp flattened
        rcases List.mem_append.mp member with member | member
        · exact (ofStmt_includes effect first piece member).mono (Nat.le_refl _)
            (List.prefix_append _ _).isInfix
        · exact (ofExpr_includes value last piece member).mono (ofStmt_issued_le effect first)
            (List.suffix_append _ _).isInfix

theorem ofOperands_includes : (operands : List Expr) → {done flat : FlattenedOperands} →
    {supply rest : TempSupply} → ofOperands done operands supply = .ok (flat, rest) →
    ∀ piece ∈ Expr.piecesOfList operands, Includes supply flat.before piece
  | [], _, _, _, _, _ => fun piece member => by simp [Expr.piecesOfList] at member
  | operand :: others, _, _, _, _, flattened => fun piece member => by
      obtain ⟨_, _, _, _, first, appended, later⟩ := ofOperands_cons_eq_ok.mp flattened
      rcases List.mem_append.mp member with member | member
      · exact (ofExpr_includes operand first piece member).mono (Nat.le_refl _)
          ((append_before appended).2.trans (ofOperands_before later))
      · exact (ofOperands_includes others later piece member).mono
          ((ofExpr_issued_le operand first).trans (append_issued appended).1)
          (List.infix_refl _)

end

/-- The statements of a statement that stands in a row stay together, too. -/
theorem ofStmt_of_standsIn {inner outer : Stmt} {flat : List Stmt}
    (stands : inner.StandsIn outer) (flattened : ofStmt outer supply = .ok (flat, rest)) :
    ∃ part first last, supply.issued ≤ first.issued ∧ ofStmt inner first = .ok (part, last) ∧
      part <:+: flat := by
  induction stands generalizing supply flat rest with
  | here => exact ⟨flat, supply, rest, Nat.le_refl _, flattened, List.infix_refl _⟩
  | @row items item member _ ih =>
      obtain ⟨front, back, rfl⟩ := List.append_of_mem member
      rw [ofStmt_seq, ofStmts_append_eq_ok] at flattened
      obtain ⟨_, _, _, before, behind, rfl⟩ := flattened
      obtain ⟨_, _, _, isItem, -, rfl⟩ := ofStmts_cons_eq_ok.mp behind
      obtain ⟨part, first, last, above, flattens, isThere⟩ := ih isItem
      refine ⟨part, first, last, (ofStmts_issued_le front before).trans above, flattens, ?_⟩
      exact (isThere.trans (List.prefix_append _ _).isInfix).trans
        (List.suffix_append _ _).isInfix

end Flattening

end TreeBackend
