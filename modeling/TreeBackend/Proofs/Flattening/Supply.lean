import Mathlib.Order.Nat
import TreeBackend.Proofs.Flattening.Inversion
import TreeBackend.Proofs.IR.Temps

/-!
# Temporaries that flattening draws

Flattening only ever moves its supply forward, and the value that it leaves for
an expression mentions temporaries of the expression and drawn ones only.
-/

namespace TreeBackend.Flattening

open IR (Expr Stmt Temp TempSupply)

def Below (bound : Nat) (expression : Expr) : Prop :=
  ∀ temp ∈ expression.temps, temp.number < bound

theorem Below.mono {bound larger : Nat} {expression : Expr} (below : Below bound expression)
    (le : bound ≤ larger) : Below larger expression :=
  fun temp member => Nat.lt_of_lt_of_le (below temp member) le

/-! ### Operands -/

theorem keep_issued {value : Expr} {kept : Flattened} {supply rest : TempSupply}
    (keeps : keep value supply = .ok (kept, rest)) :
    supply.issued ≤ rest.issued ∧
      (Below supply.issued value → Below rest.issued kept.value) := by
  by_cases fixed : value.isFixed = true
  · obtain ⟨rfl, rfl⟩ := keep_of_isFixed fixed keeps
    exact ⟨Nat.le_refl _, id⟩
  · obtain ⟨rfl, rfl⟩ := keep_of_not_isFixed fixed keeps
    refine ⟨Nat.le_succ _, fun _ temp member => ?_⟩
    obtain rfl : temp = supply.next := by simpa [Expr.temps] using member
    exact Nat.lt_succ_self _

theorem keepAll_issued {values : List Expr} {kept : FlattenedOperands}
    {supply rest : TempSupply} (keeps : keepAll values supply = .ok (kept, rest)) :
    supply.issued ≤ rest.issued ∧
      ((∀ value ∈ values, Below supply.issued value) →
        ∀ value ∈ kept.values, Below rest.issued value) := by
  induction values generalizing supply kept with
  | nil =>
      obtain ⟨rfl, rfl⟩ := keepAll_nil_eq_ok.mp keeps
      exact ⟨Nat.le_refl _, fun _ value member => by simp at member⟩
  | cons value values ih =>
      obtain ⟨head, middle, tail, headKeeps, tailKeeps, rfl⟩ := keepAll_cons_eq_ok.mp keeps
      obtain ⟨headLe, headBelow⟩ := keep_issued headKeeps
      obtain ⟨tailLe, tailBelow⟩ := ih tailKeeps
      refine ⟨headLe.trans tailLe, fun below other member => ?_⟩
      rcases List.mem_cons.mp member with rfl | member
      · exact (headBelow (below value (by simp))).mono tailLe
      · exact tailBelow (fun operand inTail =>
          (below operand (by simp [inTail])).mono headLe) other member

theorem append_issued {operands result : FlattenedOperands} {next : Flattened}
    {supply rest : TempSupply} (appended : append operands next supply = .ok (result, rest)) :
    supply.issued ≤ rest.issued ∧
      ((∀ value ∈ operands.values, Below supply.issued value) →
        Below supply.issued next.value → ∀ value ∈ result.values, Below rest.issued value) := by
  by_cases quiet : next.before = []
  · obtain ⟨rfl, rfl⟩ := append_of_nil quiet appended
    refine ⟨Nat.le_refl _, fun below nextBelow value member => ?_⟩
    rcases List.mem_append.mp member with member | member
    · exact below value member
    · obtain rfl := List.mem_singleton.mp member
      exact nextBelow
  · obtain ⟨kept, keeps, rfl⟩ := append_of_ne_nil quiet appended
    obtain ⟨le, keptBelow⟩ := keepAll_issued keeps
    refine ⟨le, fun below nextBelow value member => ?_⟩
    rcases List.mem_append.mp member with member | member
    · exact keptBelow below value member
    · obtain rfl := List.mem_singleton.mp member
      exact nextBelow.mono le

/-! ### The supply moves forward -/

theorem pair_issued_le {first second : Flattened} {before : List Stmt} {left right : Expr}
    {supply rest : TempSupply}
    (paired : pair first second supply = .ok ((before, left, right), rest)) :
    supply.issued ≤ rest.issued :=
  (append_issued (pair_eq_ok.mp paired)).1

mutual

theorem ofStmt_issued_le : (statement : Stmt) → {flat : List Stmt} → {supply rest : TempSupply} →
    ofStmt statement supply = .ok (flat, rest) → supply.issued ≤ rest.issued
  | .seq items, _, _, _, flattened => ofStmts_issued_le items (by rwa [ofStmt_seq] at flattened)
  | .label _, _, _, _, flattened => by
      obtain ⟨-, rfl⟩ := ofStmt_label_eq_ok.mp flattened
      exact Nat.le_refl _
  | .jump _, _, _, _, flattened => by
      obtain ⟨-, rfl⟩ := ofStmt_jump_eq_ok.mp flattened
      exact Nat.le_refl _
  | .cjump condition _ _, _, _, _, flattened => by
      obtain ⟨test, flattens, -⟩ := ofStmt_cjump_eq_ok.mp flattened
      exact ofExpr_issued_le condition flattens
  | .exp value, _, _, _, flattened => by
      obtain ⟨last, flattens, -⟩ := ofStmt_exp_eq_ok.mp flattened
      exact ofExpr_issued_le value flattens
  | .move target source, _, _, _, flattened =>
      ofMove_issued_le target (ofExpr_issued_le source) (by rwa [ofStmt_move] at flattened)

theorem ofStmts_issued_le : (statements : List Stmt) → {flat : List Stmt} →
    {supply rest : TempSupply} →
    ofStmts statements supply = .ok (flat, rest) → supply.issued ≤ rest.issued
  | [], _, _, _, flattened => by
      obtain ⟨-, rfl⟩ := ofStmts_nil_eq_ok.mp flattened
      exact Nat.le_refl _
  | statement :: others, _, _, _, flattened => by
      obtain ⟨_, _, _, first, last, -⟩ := ofStmts_cons_eq_ok.mp flattened
      exact (ofStmt_issued_le statement first).trans (ofStmts_issued_le others last)

theorem ofMove_issued_le : (target : Expr) → {source : Flattening Flattened} →
    (sourceLe : ∀ {flat : Flattened} {supply rest : TempSupply},
      source supply = .ok (flat, rest) → supply.issued ≤ rest.issued) →
    {flat : List Stmt} → {supply rest : TempSupply} →
    ofMove source target supply = .ok (flat, rest) → supply.issued ≤ rest.issued
  | .temp _, _, sourceLe, _, _, _, flattened => by
      obtain ⟨_, flattens, -⟩ := ofMove_temp_eq_ok.mp flattened
      exact sourceLe flattens
  | .mem address, _, sourceLe, _, _, _, flattened => by
      obtain ⟨_, _, _, _, _, _, _, place, value, paired, -⟩ := ofMove_mem_eq_ok.mp flattened
      exact ((ofExpr_issued_le address place).trans (sourceLe value)).trans (pair_issued_le paired)
  | .eseq effect value, _, sourceLe, _, _, _, flattened => by
      obtain ⟨_, _, _, first, last, -⟩ := ofMove_eseq_eq_ok.mp flattened
      exact (ofStmt_issued_le effect first).trans (ofMove_issued_le value sourceLe last)
  | .const _, _, _, _, _, _, flattened | .name _, _, _, _, _, _, flattened
  | .binop .., _, _, _, _, _, flattened | .call .., _, _, _, _, _, flattened => by
      cases flattened

theorem ofExpr_issued_le : (expression : Expr) → {flat : Flattened} →
    {supply rest : TempSupply} →
    ofExpr expression supply = .ok (flat, rest) → supply.issued ≤ rest.issued
  | .const _, _, _, _, flattened => by
      obtain ⟨-, rfl⟩ := ofExpr_const_eq_ok.mp flattened
      exact Nat.le_refl _
  | .name _, _, _, _, flattened => by
      obtain ⟨-, rfl⟩ := ofExpr_name_eq_ok.mp flattened
      exact Nat.le_refl _
  | .temp _, _, _, _, flattened => by
      obtain ⟨-, rfl⟩ := ofExpr_temp_eq_ok.mp flattened
      exact Nat.le_refl _
  | .mem address, _, _, _, flattened => by
      obtain ⟨_, place, -⟩ := ofExpr_mem_eq_ok.mp flattened
      exact ofExpr_issued_le address place
  | .binop _ left right, _, _, _, flattened => by
      obtain ⟨_, _, _, _, _, _, _, first, second, paired, -⟩ := ofExpr_binop_eq_ok.mp flattened
      exact ((ofExpr_issued_le left first).trans (ofExpr_issued_le right second)).trans
        (pair_issued_le paired)
  | .call _ arguments, _, _, _, flattened => by
      obtain ⟨_, operands, -⟩ := ofExpr_call_eq_ok.mp flattened
      exact ofOperands_issued_le arguments operands
  | .eseq effect value, _, _, _, flattened => by
      obtain ⟨_, _, _, first, last, -⟩ := ofExpr_eseq_eq_ok.mp flattened
      exact (ofStmt_issued_le effect first).trans (ofExpr_issued_le value last)

theorem ofOperands_issued_le : (operands : List Expr) → {done flat : FlattenedOperands} →
    {supply rest : TempSupply} →
    ofOperands done operands supply = .ok (flat, rest) → supply.issued ≤ rest.issued
  | [], _, _, _, _, flattened => by
      obtain ⟨-, rfl⟩ := ofOperands_nil_eq_ok.mp flattened
      exact Nat.le_refl _
  | operand :: others, _, _, _, _, flattened => by
      obtain ⟨_, _, _, _, first, appended, last⟩ := ofOperands_cons_eq_ok.mp flattened
      exact ((ofExpr_issued_le operand first).trans (append_issued appended).1).trans
        (ofOperands_issued_le others last)

end

/-! ### Values mention drawn temporaries -/

theorem pair_below {first second : Flattened} {before : List Stmt} {left right : Expr}
    {supply rest : TempSupply}
    (paired : pair first second supply = .ok ((before, left, right), rest))
    (firstBelow : Below supply.issued first.value)
    (secondBelow : Below supply.issued second.value) :
    Below rest.issued left ∧ Below rest.issued right := by
  have below := (append_issued (pair_eq_ok.mp paired)).2 (by simpa using firstBelow) secondBelow
  exact ⟨below left (by simp), below right (by simp)⟩

mutual

theorem ofExpr_value_below : (expression : Expr) → {flat : Flattened} →
    {supply rest : TempSupply} → ofExpr expression supply = .ok (flat, rest) →
    Below supply.issued expression → Below rest.issued flat.value
  | .const _, _, _, _, flattened, below => by
      obtain ⟨rfl, rfl⟩ := ofExpr_const_eq_ok.mp flattened
      exact below
  | .name _, _, _, _, flattened, below => by
      obtain ⟨rfl, rfl⟩ := ofExpr_name_eq_ok.mp flattened
      exact below
  | .temp _, _, _, _, flattened, below => by
      obtain ⟨rfl, rfl⟩ := ofExpr_temp_eq_ok.mp flattened
      exact below
  | .mem address, _, _, _, flattened, below => by
      obtain ⟨place, flattens, rfl⟩ := ofExpr_mem_eq_ok.mp flattened
      have placeBelow := ofExpr_value_below address flattens below
      exact placeBelow
  | .binop _ left right, _, _, _, flattened, below => by
      obtain ⟨first, _, second, _, _, _, _, leftFlattens, rightFlattens, paired, rfl⟩ :=
        ofExpr_binop_eq_ok.mp flattened
      have leftBelow := ofExpr_value_below left leftFlattens
        fun temp member => below temp (List.mem_append_left _ member)
      have rightBelow : Below _ right := fun temp member =>
        below temp (List.mem_append_right _ member)
      have secondBelow := ofExpr_value_below right rightFlattens
        (rightBelow.mono (ofExpr_issued_le left leftFlattens))
      obtain ⟨leftResult, rightResult⟩ := pair_below paired
        (leftBelow.mono (ofExpr_issued_le right rightFlattens)) secondBelow
      intro temp member
      rcases List.mem_append.mp member with member | member
      · exact leftResult temp member
      · exact rightResult temp member
  | .call _ arguments, _, _, _, flattened, below => by
      obtain ⟨operands, flattens, rfl⟩ := ofExpr_call_eq_ok.mp flattened
      have resultBelow := ofOperands_values_below arguments flattens below (by simp)
      intro temp member
      obtain ⟨value, inValues, inValue⟩ := Expr.mem_tempsOfList.mp member
      exact resultBelow value inValues temp inValue
  | .eseq effect value, _, _, _, flattened, below => by
      obtain ⟨_, _, last, first, flattens, rfl⟩ := ofExpr_eseq_eq_ok.mp flattened
      have valueBelow : Below _ value := fun temp member =>
        below temp (List.mem_append_right _ member)
      have lastBelow := ofExpr_value_below value flattens
        (valueBelow.mono (ofStmt_issued_le effect first))
      exact lastBelow

theorem ofOperands_values_below : (operands : List Expr) → {done flat : FlattenedOperands} →
    {supply rest : TempSupply} → ofOperands done operands supply = .ok (flat, rest) →
    (∀ temp ∈ Expr.tempsOfList operands, temp.number < supply.issued) →
    (∀ value ∈ done.values, Below supply.issued value) →
    ∀ value ∈ flat.values, Below rest.issued value
  | [], _, _, _, _, flattened, _, doneBelow => by
      obtain ⟨rfl, rfl⟩ := ofOperands_nil_eq_ok.mp flattened
      exact doneBelow
  | operand :: others, _, _, _, _, flattened, below, doneBelow => by
      obtain ⟨flat, _, next, _, first, appended, last⟩ := ofOperands_cons_eq_ok.mp flattened
      have firstLe := ofExpr_issued_le operand first
      have operandBelow := ofExpr_value_below operand first
        fun temp member => below temp (List.mem_append_left _ member)
      obtain ⟨appendLe, nextBelow⟩ := append_issued appended
      refine ofOperands_values_below others last (fun temp member => ?_)
        (nextBelow (fun value member => (doneBelow value member).mono firstLe) operandBelow)
      exact Nat.lt_of_lt_of_le (below temp (List.mem_append_right _ member))
        (firstLe.trans appendLe)

end

/-- The value that is left is a bare temporary exactly if the expression ends in that
temporary. -/
theorem ofExpr_value_eq_temp_iff {expression : Expr} {flat : Flattened}
    {supply rest : TempSupply} {temp : Temp}
    (flattened : ofExpr expression supply = .ok (flat, rest)) :
    flat.value = .temp temp ↔ expression.lastTemp? = some temp := by
  match expression with
  | .const _ =>
      obtain ⟨rfl, -⟩ := ofExpr_const_eq_ok.mp flattened
      simp [Expr.lastTemp?]
  | .name _ =>
      obtain ⟨rfl, -⟩ := ofExpr_name_eq_ok.mp flattened
      simp [Expr.lastTemp?]
  | .temp _ =>
      obtain ⟨rfl, -⟩ := ofExpr_temp_eq_ok.mp flattened
      simp [Expr.lastTemp?]
  | .mem _ =>
      obtain ⟨_, -, rfl⟩ := ofExpr_mem_eq_ok.mp flattened
      simp [Expr.lastTemp?]
  | .binop .. =>
      obtain ⟨_, _, _, _, _, _, _, -, -, -, rfl⟩ := ofExpr_binop_eq_ok.mp flattened
      simp [Expr.lastTemp?]
  | .call .. =>
      obtain ⟨_, -, rfl⟩ := ofExpr_call_eq_ok.mp flattened
      simp [Expr.lastTemp?]
  | .eseq _ value =>
      obtain ⟨_, _, last, -, flattens, rfl⟩ := ofExpr_eseq_eq_ok.mp flattened
      have ends : last.value = .temp temp ↔ value.lastTemp? = some temp :=
        ofExpr_value_eq_temp_iff flattens
      exact ends

end TreeBackend.Flattening
