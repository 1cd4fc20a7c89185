import TreeBackend.Proofs.Flattening.Inversion

/-!
# Flattened code is flat

No statement that comes out of flattening is a sequence, and none has an `eseq` in
it.  Each of them is settled: it stores only to temporaries and cells, and it is not
there for a value that has been discarded.
-/

namespace TreeBackend.Flattening

open IR (Expr Stmt TempSupply Chunk)

def ArePlain (statements : List Stmt) : Prop :=
  ∀ statement ∈ statements, statement.isPlain = true

/-- Whether flattening has nothing left to do for a statement. -/
def isSettled : Stmt → Bool
  | .label _ | .jump _ => true
  | .cjump condition _ _ => condition.isPlain
  | .exp value => value.isPlain && !isDiscardable value
  | .move (.temp _) source => source.isPlain
  | .move (.mem address) source => address.isPlain && source.isPlain
  | .move .. | .seq _ => false

def AreSettled (statements : List Stmt) : Prop :=
  ∀ statement ∈ statements, isSettled statement = true

theorem AreSettled.append {first second : List Stmt} (left : AreSettled first)
    (right : AreSettled second) : AreSettled (first ++ second) :=
  List.forall_mem_append.mpr ⟨left, right⟩

theorem areSettled_singleton {statement : Stmt} (settled : isSettled statement = true) :
    AreSettled [statement] :=
  List.forall_mem_singleton.mpr settled

theorem isPlain_of_isSettled {statement : Stmt} (settled : isSettled statement = true) :
    statement.isPlain = true := by
  cases statement with
  | seq => cases settled
  | label | jump => rfl
  | cjump => exact settled
  | exp => exact (Bool.and_eq_true_iff.mp settled).1
  | move target source =>
      cases target with
      | temp _ | mem _ => exact settled
      | _ => cases settled

/-- A flattened expression is plain, and the statements in front of it are settled. -/
structure Flattened.IsSettled (flat : Flattened) : Prop where
  before : AreSettled flat.before
  value : flat.value.isPlain = true

/-- Flattened operands are plain, and the statements in front of them are settled. -/
structure FlattenedOperands.IsSettled (flat : FlattenedOperands) : Prop where
  before : AreSettled flat.before
  values : ∀ value ∈ flat.values, value.isPlain = true

variable {supply rest : TempSupply}

theorem keepAll_isSettled {values : List Expr} {kept : FlattenedOperands}
    (keeps : keepAll values supply = .ok (kept, rest))
    (plain : ∀ value ∈ values, value.isPlain = true) :
    FlattenedOperands.IsSettled kept := by
  induction values generalizing supply kept with
  | nil =>
      obtain ⟨rfl, -⟩ := keepAll_nil_eq_ok.mp keeps
      exact ⟨by simp [AreSettled], by simp⟩
  | cons value values ih =>
      obtain ⟨head, middle, tail, headKeeps, tailKeeps, rfl⟩ := keepAll_cons_eq_ok.mp keeps
      have headPlain := plain value (by simp)
      have tailPlain := ih tailKeeps fun other member => plain other (by simp [member])
      by_cases fixed : value.isFixed = true
      · obtain ⟨rfl, -⟩ := keep_of_isFixed fixed headKeeps
        exact ⟨tailPlain.before, List.forall_mem_cons.mpr ⟨headPlain, tailPlain.values⟩⟩
      · obtain ⟨rfl, -⟩ := keep_of_not_isFixed fixed headKeeps
        have moves : AreSettled [.move (.temp supply.next) value] :=
          areSettled_singleton headPlain
        exact ⟨moves.append tailPlain.before, List.forall_mem_cons.mpr ⟨rfl, tailPlain.values⟩⟩

theorem append_isSettled {operands result : FlattenedOperands} {next : Flattened}
    (appended : append operands next supply = .ok (result, rest))
    (plain : FlattenedOperands.IsSettled operands) (nextPlain : Flattened.IsSettled next) :
    FlattenedOperands.IsSettled result := by
  by_cases quiet : next.before = []
  · obtain ⟨rfl, -⟩ := append_of_nil quiet appended
    refine ⟨plain.before, List.forall_mem_append.mpr ⟨plain.values, ?_⟩⟩
    exact List.forall_mem_singleton.mpr nextPlain.value
  · obtain ⟨kept, keeps, rfl⟩ := append_of_ne_nil quiet appended
    have keptPlain := keepAll_isSettled keeps plain.values
    refine ⟨(plain.before.append keptPlain.before).append nextPlain.before,
      List.forall_mem_append.mpr ⟨keptPlain.values, ?_⟩⟩
    exact List.forall_mem_singleton.mpr nextPlain.value

theorem pair_isSettled {first second : Flattened} {before : List Stmt} {left right : Expr}
    (paired : pair first second supply = .ok ((before, left, right), rest))
    (firstPlain : Flattened.IsSettled first) (secondPlain : Flattened.IsSettled second) :
    AreSettled before ∧ left.isPlain = true ∧ right.isPlain = true := by
  have plain := append_isSettled (pair_eq_ok.mp paired)
    ⟨firstPlain.before, List.forall_mem_singleton.mpr firstPlain.value⟩ secondPlain
  exact ⟨plain.before, plain.values left (by simp), plain.values right (by simp)⟩

theorem arePlain_of_forall {values : List Expr} (plain : ∀ value ∈ values, value.isPlain = true) :
    Expr.arePlain values = true := by
  induction values with
  | nil => rfl
  | cons value values ih =>
      rw [Expr.arePlain, Bool.and_eq_true]
      exact ⟨plain value (by simp), ih fun other member => plain other (by simp [member])⟩

mutual

theorem ofStmt_areSettled : (statement : Stmt) → {flat : List Stmt} → {supply rest : TempSupply} →
    ofStmt statement supply = .ok (flat, rest) → AreSettled flat
  | .seq items, _, _, _, flattened => ofStmts_areSettled items (by rwa [ofStmt_seq] at flattened)
  | .label _, _, _, _, flattened => by
      obtain ⟨rfl, -⟩ := ofStmt_label_eq_ok.mp flattened
      exact areSettled_singleton rfl
  | .jump _, _, _, _, flattened => by
      obtain ⟨rfl, -⟩ := ofStmt_jump_eq_ok.mp flattened
      exact areSettled_singleton rfl
  | .cjump condition _ _, _, _, _, flattened => by
      obtain ⟨test, flattens, rfl⟩ := ofStmt_cjump_eq_ok.mp flattened
      have plain := ofExpr_isSettled condition flattens
      exact plain.before.append (areSettled_singleton plain.value)
  | .exp value, _, _, _, flattened => by
      obtain ⟨last, flattens, rfl⟩ := ofStmt_exp_eq_ok.mp flattened
      have plain := ofExpr_isSettled value flattens
      split
      · exact plain.before
      · next wanted =>
          exact plain.before.append (areSettled_singleton (by simp [isSettled, plain.value, wanted]))
  | .move target source, _, _, _, flattened =>
      ofMove_areSettled target (ofExpr_isSettled source) (by rwa [ofStmt_move] at flattened)

theorem ofStmts_areSettled : (statements : List Stmt) → {flat : List Stmt} →
    {supply rest : TempSupply} → ofStmts statements supply = .ok (flat, rest) → AreSettled flat
  | [], _, _, _, flattened => by
      obtain ⟨rfl, -⟩ := ofStmts_nil_eq_ok.mp flattened
      simp [AreSettled]
  | statement :: others, _, _, _, flattened => by
      obtain ⟨_, _, _, first, last, rfl⟩ := ofStmts_cons_eq_ok.mp flattened
      exact (ofStmt_areSettled statement first).append (ofStmts_areSettled others last)

theorem ofMove_areSettled : (target : Expr) → {source : Flattening Flattened} →
    (plain : ∀ {flat : Flattened} {supply rest : TempSupply},
      source supply = .ok (flat, rest) → Flattened.IsSettled flat) →
    {flat : List Stmt} → {supply rest : TempSupply} →
    ofMove source target supply = .ok (flat, rest) → AreSettled flat
  | .temp _, _, plain, _, _, _, flattened => by
      obtain ⟨_, flattens, rfl⟩ := ofMove_temp_eq_ok.mp flattened
      have value := plain flattens
      exact value.before.append (areSettled_singleton value.value)
  | .mem address, _, plain, _, _, _, flattened => by
      obtain ⟨_, _, _, _, _, _, _, place, value, paired, rfl⟩ := ofMove_mem_eq_ok.mp flattened
      obtain ⟨before, left, right⟩ :=
        pair_isSettled paired (ofExpr_isSettled address place) (plain value)
      exact before.append (areSettled_singleton (by simp [isSettled, left, right]))
  | .eseq effect value, _, plain, _, _, _, flattened => by
      obtain ⟨_, _, _, first, last, rfl⟩ := ofMove_eseq_eq_ok.mp flattened
      exact (ofStmt_areSettled effect first).append (ofMove_areSettled value plain last)
  | .const _, _, _, _, _, _, flattened | .name _, _, _, _, _, _, flattened
  | .binop .., _, _, _, _, _, flattened | .call .., _, _, _, _, _, flattened => by
      cases flattened

theorem ofExpr_isSettled : (expression : Expr) → {flat : Flattened} → {supply rest : TempSupply} →
    ofExpr expression supply = .ok (flat, rest) → Flattened.IsSettled flat
  | .const _, _, _, _, flattened => by
      obtain ⟨rfl, -⟩ := ofExpr_const_eq_ok.mp flattened
      exact ⟨by simp [AreSettled], rfl⟩
  | .name _, _, _, _, flattened => by
      obtain ⟨rfl, -⟩ := ofExpr_name_eq_ok.mp flattened
      exact ⟨by simp [AreSettled], rfl⟩
  | .temp _, _, _, _, flattened => by
      obtain ⟨rfl, -⟩ := ofExpr_temp_eq_ok.mp flattened
      exact ⟨by simp [AreSettled], rfl⟩
  | .mem address, _, _, _, flattened => by
      obtain ⟨_, place, rfl⟩ := ofExpr_mem_eq_ok.mp flattened
      have plain := ofExpr_isSettled address place
      exact ⟨plain.before, plain.value⟩
  | .binop _ left right, _, _, _, flattened => by
      obtain ⟨_, _, _, _, _, _, _, first, second, paired, rfl⟩ := ofExpr_binop_eq_ok.mp flattened
      obtain ⟨before, leftPlain, rightPlain⟩ :=
        pair_isSettled paired (ofExpr_isSettled left first) (ofExpr_isSettled right second)
      exact ⟨before, by simp [Expr.isPlain, leftPlain, rightPlain]⟩
  | .call _ arguments, _, _, _, flattened => by
      obtain ⟨_, operands, rfl⟩ := ofExpr_call_eq_ok.mp flattened
      have plain := ofOperands_isSettled arguments operands ⟨by simp [AreSettled], by simp⟩
      exact ⟨plain.before, arePlain_of_forall plain.values⟩
  | .eseq effect value, _, _, _, flattened => by
      obtain ⟨_, _, _, first, last, rfl⟩ := ofExpr_eseq_eq_ok.mp flattened
      have plain := ofExpr_isSettled value last
      exact ⟨(ofStmt_areSettled effect first).append plain.before, plain.value⟩

theorem ofOperands_isSettled : (operands : List Expr) → {done flat : FlattenedOperands} →
    {supply rest : TempSupply} → ofOperands done operands supply = .ok (flat, rest) →
    FlattenedOperands.IsSettled done → FlattenedOperands.IsSettled flat
  | [], _, _, _, _, flattened, plain => by
      obtain ⟨rfl, -⟩ := ofOperands_nil_eq_ok.mp flattened
      exact plain
  | operand :: others, _, _, _, _, flattened, plain => by
      obtain ⟨_, _, _, _, first, appended, last⟩ := ofOperands_cons_eq_ok.mp flattened
      exact ofOperands_isSettled others last
        (append_isSettled appended plain (ofExpr_isSettled operand first))

end

theorem ofStmt_arePlain (statement : Stmt) {flat : List Stmt} {supply rest : TempSupply}
    (flattened : ofStmt statement supply = .ok (flat, rest)) : ArePlain flat :=
  fun item member => isPlain_of_isSettled (ofStmt_areSettled statement flattened item member)

end TreeBackend.Flattening
