import TreeBackend.Lowering.Shape
import TreeBackend.Proofs.Flattening.Inversion

/-!
# Flattened conditionals and loops

What becomes of the code of a conditional or a loop, as one list of statements.  A
counting loop is a loop with a condition behind the statements that set it up.
-/

namespace TreeBackend.Flattening

open IR (Expr Stmt Temp TempSupply)
open Lowering (Labels ifThen ifThenElse whileLoop forLoop)

variable {supply rest : TempSupply} {flat : List Stmt}

theorem ofStmts_append_eq_ok {first second : List Stmt} :
    ofStmts (first ++ second) supply = .ok (flat, rest) ↔
      ∃ front middle back, ofStmts first supply = .ok (front, middle) ∧
        ofStmts second middle = .ok (back, rest) ∧ flat = front ++ back := by
  induction first generalizing supply flat with
  | nil =>
      simp only [List.nil_append, ofStmts_nil_eq_ok]
      constructor
      · intro back
        exact ⟨[], supply, flat, ⟨rfl, rfl⟩, back, rfl⟩
      · rintro ⟨_, _, back, ⟨rfl, rfl⟩, backFlat, rfl⟩
        exact backFlat
  | cons statement others ih =>
      simp only [List.cons_append, ofStmts_cons_eq_ok, ih]
      constructor
      · rintro ⟨head, middle, tail, headFlat, ⟨front, next, back, frontFlat, backFlat, rfl⟩, rfl⟩
        exact ⟨head ++ front, next, back, ⟨head, middle, front, headFlat, frontFlat, rfl⟩, backFlat,
          (List.append_assoc ..).symm⟩
      · rintro ⟨_, next, back, ⟨head, middle, front, headFlat, frontFlat, rfl⟩, backFlat, rfl⟩
        exact ⟨head, middle, front ++ back, headFlat, ⟨front, next, back, frontFlat, backFlat, rfl⟩,
          List.append_assoc ..⟩

/-- Statements in a row may be put in brackets. -/
theorem ofStmts_seq_eq_ok {inner outer : List Stmt} :
    ofStmts (.seq inner :: outer) supply = .ok (flat, rest) ↔
      ofStmts (inner ++ outer) supply = .ok (flat, rest) := by
  rw [ofStmts_append_eq_ok, ofStmts_cons_eq_ok, ofStmt_seq]

theorem ofStmt_ifThen_eq_ok {labels : Labels} {condition : Expr} {thenBranch : Stmt} :
    ofStmt (ifThen labels condition thenBranch) supply = .ok (flat, rest) ↔
      ∃ test middle branch, ofExpr condition supply = .ok (test, middle) ∧
        ofStmt thenBranch middle = .ok (branch, rest) ∧
        flat = test.before ++ .cjump test.value labels.first labels.third :: .label labels.first ::
          (branch ++ [.jump labels.third, .label labels.third]) := by
  simp only [ifThen, ofStmt_seq, ofStmts_cons_eq_ok, ofStmts_nil_eq_ok, ofStmt_cjump_eq_ok,
    ofStmt_label_eq_ok, ofStmt_jump_eq_ok]
  constructor
  · rintro ⟨_, _, _, ⟨test, tests, rfl⟩, ⟨_, _, _, ⟨rfl, rfl⟩, ⟨branch, _, _, branches,
      ⟨_, _, _, ⟨rfl, rfl⟩, ⟨_, _, _, ⟨rfl, rfl⟩, ⟨rfl, rfl⟩, rfl⟩, rfl⟩, rfl⟩, rfl⟩, rfl⟩
    exact ⟨test, _, branch, tests, branches, by simp⟩
  · rintro ⟨test, _, branch, tests, branches, rfl⟩
    exact ⟨_, _, _, ⟨test, tests, rfl⟩, ⟨_, _, _, ⟨rfl, rfl⟩, ⟨branch, _, _, branches,
      ⟨_, _, _, ⟨rfl, rfl⟩, ⟨_, _, _, ⟨rfl, rfl⟩, ⟨rfl, rfl⟩, rfl⟩, rfl⟩, rfl⟩, rfl⟩, by simp⟩

theorem ofStmt_ifThenElse_eq_ok {labels : Labels} {condition : Expr}
    {thenBranch elseBranch : Stmt} :
    ofStmt (ifThenElse labels condition thenBranch elseBranch) supply = .ok (flat, rest) ↔
      ∃ test middle branch last other, ofExpr condition supply = .ok (test, middle) ∧
        ofStmt thenBranch middle = .ok (branch, last) ∧
        ofStmt elseBranch last = .ok (other, rest) ∧
        flat = test.before ++ .cjump test.value labels.first labels.second ::
          .label labels.first :: (branch ++ .jump labels.third :: .label labels.second ::
            (other ++ [.jump labels.third, .label labels.third])) := by
  simp only [ifThenElse, ofStmt_seq, ofStmts_cons_eq_ok, ofStmts_nil_eq_ok, ofStmt_cjump_eq_ok,
    ofStmt_label_eq_ok, ofStmt_jump_eq_ok]
  constructor
  · rintro ⟨_, _, _, ⟨test, tests, rfl⟩, ⟨_, _, _, ⟨rfl, rfl⟩, ⟨branch, _, _, branches,
      ⟨_, _, _, ⟨rfl, rfl⟩, ⟨_, _, _, ⟨rfl, rfl⟩, ⟨other, _, _, others,
        ⟨_, _, _, ⟨rfl, rfl⟩, ⟨_, _, _, ⟨rfl, rfl⟩, ⟨rfl, rfl⟩, rfl⟩, rfl⟩, rfl⟩, rfl⟩, rfl⟩,
      rfl⟩, rfl⟩, rfl⟩
    exact ⟨test, _, branch, _, other, tests, branches, others, by simp⟩
  · rintro ⟨test, _, branch, _, other, tests, branches, others, rfl⟩
    exact ⟨_, _, _, ⟨test, tests, rfl⟩, ⟨_, _, _, ⟨rfl, rfl⟩, ⟨branch, _, _, branches,
      ⟨_, _, _, ⟨rfl, rfl⟩, ⟨_, _, _, ⟨rfl, rfl⟩, ⟨other, _, _, others,
        ⟨_, _, _, ⟨rfl, rfl⟩, ⟨_, _, _, ⟨rfl, rfl⟩, ⟨rfl, rfl⟩, rfl⟩, rfl⟩, rfl⟩, rfl⟩, rfl⟩,
      rfl⟩, rfl⟩, by simp⟩

theorem ofStmt_whileLoop_eq_ok {labels : Labels} {condition : Expr} {body : Stmt} :
    ofStmt (whileLoop labels condition body) supply = .ok (flat, rest) ↔
      ∃ test middle inner, ofExpr condition supply = .ok (test, middle) ∧
        ofStmt body middle = .ok (inner, rest) ∧
        flat = .label labels.first :: (test.before ++
          .cjump test.value labels.second labels.third :: .label labels.second ::
            (inner ++ [.jump labels.first, .label labels.third])) := by
  simp only [whileLoop, ofStmt_seq, ofStmts_cons_eq_ok, ofStmts_nil_eq_ok, ofStmt_cjump_eq_ok,
    ofStmt_label_eq_ok, ofStmt_jump_eq_ok]
  constructor
  · rintro ⟨_, _, _, ⟨rfl, rfl⟩, ⟨_, _, _, ⟨test, tests, rfl⟩, ⟨_, _, _, ⟨rfl, rfl⟩,
      ⟨inner, _, _, inners, ⟨_, _, _, ⟨rfl, rfl⟩, ⟨_, _, _, ⟨rfl, rfl⟩, ⟨rfl, rfl⟩, rfl⟩, rfl⟩,
      rfl⟩, rfl⟩, rfl⟩, rfl⟩
    exact ⟨test, _, inner, tests, inners, by simp⟩
  · rintro ⟨test, _, inner, tests, inners, rfl⟩
    exact ⟨_, _, _, ⟨rfl, rfl⟩, ⟨_, _, _, ⟨test, tests, rfl⟩, ⟨_, _, _, ⟨rfl, rfl⟩,
      ⟨inner, _, _, inners, ⟨_, _, _, ⟨rfl, rfl⟩, ⟨_, _, _, ⟨rfl, rfl⟩, ⟨rfl, rfl⟩, rfl⟩, rfl⟩,
      rfl⟩, rfl⟩, rfl⟩, by simp⟩

/-- A counting loop, taken apart into its beginning and a loop with a condition. -/
def countingLoop (labels : Labels) (bound stride : Temp) (counter low high step : Expr)
    (body : Stmt) : Stmt :=
  .seq [.move counter low, .move (.temp bound) high, .move (.temp stride) step,
    whileLoop ⟨labels.third, labels.first, labels.second⟩ (.binop .lt counter (.temp bound))
      (.seq [body, .move counter (.binop .add counter (.temp stride))])]

theorem ofStmt_forLoop_eq_ok {labels : Labels} {bound stride : Temp}
    {counter low high step : Expr} {body : Stmt} :
    ofStmt (forLoop labels bound stride counter low high step body) supply = .ok (flat, rest) ↔
      ofStmt (countingLoop labels bound stride counter low high step body) supply =
        .ok (flat, rest) := by
  have inBrackets : ∀ {supply rest : TempSupply} {flat : List Stmt} (front inner outer : List Stmt),
      ofStmts (front ++ inner ++ outer) supply = .ok (flat, rest) ↔
        ofStmts (front ++ .seq inner :: outer) supply = .ok (flat, rest) := by
    intro supply rest flat front inner outer
    rw [List.append_assoc, ofStmts_append_eq_ok, ofStmts_append_eq_ok]
    simp only [ofStmts_seq_eq_ok]
  simp only [forLoop, countingLoop, whileLoop, ofStmt_seq]
  refine (inBrackets [.move counter low, .move (.temp bound) high, .move (.temp stride) step,
    .label labels.third, .cjump (.binop .lt counter (.temp bound)) labels.first labels.second,
    .label labels.first] [body, .move counter (.binop .add counter (.temp stride))]
    [.jump labels.third, .label labels.second]).trans ?_
  refine Iff.trans ?_ (inBrackets [.move counter low, .move (.temp bound) high,
    .move (.temp stride) step] _ [])
  rw [List.append_nil]
  rfl

end TreeBackend.Flattening
