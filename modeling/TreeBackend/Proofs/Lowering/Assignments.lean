import TreeBackend.Proofs.Flattening.Keeping
import TreeBackend.Proofs.Flattening.Labels
import TreeBackend.Proofs.Lowering.Events
import TreeBackend.Proofs.Lowering.Pieces

/-!
# The code of an assignment

An assignment to a cell finds the address of the cell, then computes the value and then stores
it.  The address has to outlive the statements of the value.  It does so in a temporary of its
own, or because no statement can change it, or because there are no such statements.
-/

namespace TreeBackend

open IR (Expr Stmt Temp TempSupply)

namespace Flattening

/-- How the address of a cell outlives the statements of a value: with which statements in
between, and what it is called behind them. -/
inductive KeepsPlace (cell source : Flattened) : List Stmt → Expr → Prop where
  | unneeded : source.before = [] → KeepsPlace cell source [] cell.value
  | unchanged : cell.value.isFixed = true → cell.value.temps = [] →
      KeepsPlace cell source [] cell.value
  | moved {temp : Temp} : (∀ value, .move (.temp temp) value ∉ source.before) →
      KeepsPlace cell source [.move (.temp temp) cell.value] (.temp temp)

theorem KeepsPlace.jumpsInside {cell source : Flattened} {kept : List Stmt} {place : Expr}
    (keeps : KeepsPlace cell source kept place) : JumpsInside kept := by
  cases keeps <;> exact .straight (by simp [Stmt.exits])

/-- Flattened code finds a cell, computes a value and stores it.  Behind it the cell goes by an
address that is computed again, or by the temporary that has kept the address. -/
inductive IsStore (cell source flat : Flattened) : Prop where
  | repeated {kept : List Stmt} {place : Expr} : KeepsPlace cell source kept place →
      cell.before = [] → Lowering.isRepeatable cell.value = true → cell.value.temps = [] →
      flat.before = cell.before ++ (kept ++ (source.before ++ [.move (.mem place) source.value])) →
      flat.value = .mem cell.value → IsStore cell source flat
  | once {kept : List Stmt} {temp : Temp} : KeepsPlace cell source kept (.temp temp) →
      kept ≠ [] →
      flat.before =
        cell.before ++ (kept ++ (source.before ++ [.move (.mem (.temp temp)) source.value])) →
      flat.value = .mem (.temp temp) → IsStore cell source flat

end Flattening

namespace Lowering

open Flattening Source LoweringState

/-! ### Addresses that may be computed twice -/

theorem isPlain_of_isRepeatable {address : IR.Expr} (repeatable : isRepeatable address = true) :
    address.isPlain = true ∧ address.calls = [] := by
  match address with
  | .const _ | .name _ | .temp _ => exact ⟨rfl, rfl⟩
  | .binop _ left right =>
      rw [isRepeatable, Bool.and_eq_true] at repeatable
      obtain ⟨leftPlain, leftQuiet⟩ := isPlain_of_isRepeatable repeatable.1
      obtain ⟨rightPlain, rightQuiet⟩ := isPlain_of_isRepeatable repeatable.2
      exact ⟨by rw [IR.Expr.isPlain, leftPlain, rightPlain, Bool.and_self],
        by rw [IR.Expr.calls, leftQuiet, rightQuiet, List.append_nil]⟩
  | .mem _ | .call .. | .eseq .. => cases repeatable

theorem isRepeatable_baseAddress {value : IR.Expr} (repeatable : isRepeatable value = true) :
    isRepeatable (baseAddress value) = true := by
  cases value with
  | mem => cases repeatable
  | const | name | temp | binop | call | eseq => exact repeatable

variable {context : LoweringContext} {level : Nat}

/-- Lowering leaves no temporaries in an address that may be computed twice. -/
theorem temps_of_isRepeatable {expression : Source.Expr} {value : IR.Expr}
    {state final : LoweringState}
    (lowered : ofExpr context level expression state = .ok (.expr value) final)
    (repeatable : isRepeatable (baseAddress value) = true) : value.temps = [] := by
  match expression with
  | .literal _ (.int _) =>
      obtain ⟨same, -⟩ := ofExpr_int_eq_ok.mp lowered
      obtain rfl := Lowered.expr.inj same
      rfl
  | .literal _ (.log _) =>
      obtain ⟨same, -⟩ := ofExpr_log_eq_ok.mp lowered
      obtain rfl := Lowered.expr.inj same
      rfl
  | .literal _ (.str _) =>
      obtain ⟨same, -⟩ := ofExpr_str_eq_ok.mp lowered
      obtain rfl := Lowered.expr.inj same
      rfl
  | .name .. =>
      obtain ⟨_, _, _, -, -, found, same, -⟩ := ofExpr_name_eq_ok.mp lowered
      obtain rfl := Lowered.expr.inj same
      obtain ⟨address, rfl, -, noTemps⟩ := cell?_quiet found
      exact noTemps
  | .unary _ operator operand =>
      obtain ⟨inner, operandLowered, same⟩ := ofExpr_unary_eq_ok.mp lowered
      obtain rfl := Lowered.expr.inj same
      rw [unary_temps]
      refine temps_of_isRepeatable operandLowered ?_
      cases operator with
      | plus => exact repeatable
      | minus | not =>
          refine isRepeatable_baseAddress ?_
          simpa [unary, baseAddress, isRepeatable] using repeatable
  | .binary _ operator left right =>
      obtain ⟨first, _, second, _, _, leftLowered, rightLowered, built, same⟩ :=
        ofExpr_binary_eq_ok.mp lowered
      obtain rfl := Lowered.expr.inj same
      cases operator with
      | compute operator =>
          obtain ⟨rfl, -⟩ := Outcome.pure_eq_ok.mp built
          have both : isRepeatable (IR.Expr.binop operator first second) = true := repeatable
          rw [isRepeatable, Bool.and_eq_true] at both
          rw [IR.Expr.temps, temps_of_isRepeatable leftLowered (isRepeatable_baseAddress both.1),
            temps_of_isRepeatable rightLowered (isRepeatable_baseAddress both.2), List.append_nil]
      | index =>
          obtain ⟨_, -, rfl, -⟩ := ofBinary_index_eq_ok.mp built
          rw [elementCell, baseAddress, isRepeatable, isRepeatable, Bool.and_eq_true,
            Bool.and_eq_true] at repeatable
          simp [elementCell, IR.Expr.temps, baseAddress_temps,
            temps_of_isRepeatable leftLowered repeatable.1,
            temps_of_isRepeatable rightLowered (isRepeatable_baseAddress repeatable.2.1)]
      | assign =>
          obtain ⟨_, _, rfl⟩ := ofBinary_assign_eq_eseq built
          cases repeatable
  | .call .. =>
      obtain ⟨_, _, -, -, same⟩ := ofExpr_call_eq_ok.mp lowered
      obtain rfl := Lowered.expr.inj same
      cases repeatable
  | .block .. =>
      obtain ⟨_, _, -, same⟩ := ofExpr_block_eq_ok.mp lowered
      obtain rfl := Lowered.expr.inj same
      cases repeatable
  | .whereIn _ _ inner =>
      obtain ⟨_, _, -, innerLowered, same⟩ := ofExpr_whereIn_eq_ok.mp lowered
      obtain rfl := Lowered.expr.inj same
      exact temps_of_isRepeatable innerLowered repeatable
  | .ifThen .. =>
      obtain ⟨_, _, _, _, -, -, -, same⟩ := ofExpr_ifThen_eq_ok.mp lowered
      cases same
  | .ifThenElse .. =>
      obtain ⟨_, _, _, _, _, _, -, -, -, -, same⟩ := ofExpr_ifThenElse_eq_ok.mp lowered
      cases same
  | .whileLoop .. =>
      obtain ⟨_, _, _, _, -, -, -, same⟩ := ofExpr_whileLoop_eq_ok.mp lowered
      cases same
  | .forLoop .. =>
      obtain ⟨_, _, _, _, _, _, _, _, _, _, _, -, -, -, -, -, -, -, same⟩ :=
        ofExpr_forLoop_eq_ok.mp lowered
      cases same

/-! ### Stores -/

section Stores

variable {address right : IR.Expr} {flat : Flattened} {supply rest : TempSupply}

/-- A store to a cell whose address is flat already keeps the address while the value is
computed. -/
theorem keepsPlace_of_ofStmt {before : List IR.Stmt}
    (flattens : ∀ supply, Flattening.ofExpr address supply = .ok (⟨[], address⟩, supply))
    (noTemps : address.temps = []) (below : ∀ temp ∈ right.temps, temp.number < supply.issued)
    (flattened : Flattening.ofStmt (.move (.mem address) right) supply = .ok (before, rest)) :
    ∃ source last kept place, Flattening.ofExpr right supply = .ok (source, last) ∧
      KeepsPlace ⟨[], address⟩ source kept place ∧
      before = kept ++ (source.before ++ [.move (.mem place) source.value]) := by
  rw [ofStmt_move] at flattened
  obtain ⟨_, _, source, last, before, place, value, cell, isSource, paired, rfl⟩ :=
    ofMove_mem_eq_ok.mp flattened
  rw [flattens] at cell
  obtain ⟨rfl, rfl⟩ := Prod.mk.inj (Except.ok.inj cell)
  by_cases atOnce : source.before = []
  · obtain ⟨same, -⟩ := append_of_nil atOnce (pair_eq_ok.mp paired)
    obtain ⟨rfl, values⟩ := FlattenedOperands.mk.inj same
    obtain ⟨rfl, rfl⟩ : place = address ∧ value = source.value := by simpa using values
    exact ⟨source, last, [], place, isSource, .unneeded atOnce, by simp [atOnce]⟩
  · by_cases fixed : address.isFixed = true
    · obtain ⟨rfl, rfl, rfl, -⟩ := pair_of_isFixed fixed paired
      exact ⟨source, last, [], _, isSource, .unchanged fixed noTemps, by simp⟩
    · obtain ⟨kept, keeps, same⟩ := append_of_ne_nil atOnce (pair_eq_ok.mp paired)
      obtain ⟨head, _, tail, headKeeps, tailKeeps, rfl⟩ := keepAll_cons_eq_ok.mp keeps
      obtain ⟨rfl, rfl⟩ := keep_of_not_isFixed fixed headKeeps
      obtain ⟨rfl, -⟩ := keepAll_nil_eq_ok.mp tailKeeps
      obtain ⟨rfl, values⟩ := FlattenedOperands.mk.inj same
      obtain ⟨rfl, rfl⟩ : place = .temp last.next ∧ value = source.value := by
        simpa using values
      have absent : last.next ∉ right.temps := fun member =>
        absurd (below _ member) (Nat.not_lt.mpr (ofExpr_issued_le right isSource))
      have spared := not_mem_before_of_fresh isSource absent (.inr (Nat.le_refl _))
      exact ⟨source, last, _, _, isSource, .moved spared, by simp⟩

theorem isStore_assignment (repeatable : isRepeatable address = true) (noTemps : address.temps = [])
    (below : ∀ temp ∈ right.temps, temp.number < supply.issued)
    (flattened : Flattening.ofExpr (assignment (.mem address) right) supply = .ok (flat, rest)) :
    ∃ source last, Flattening.ofExpr right supply = .ok (source, last) ∧
      IsStore ⟨[], address⟩ source flat := by
  obtain ⟨plain, quiet⟩ := isPlain_of_isRepeatable repeatable
  have flattens := ofExpr_of_isPlain_of_calls plain quiet
  obtain ⟨_, _, _, stores, again, rfl⟩ := ofExpr_eseq_eq_ok.mp flattened
  obtain ⟨source, last, kept, place, isSource, keeps, rfl⟩ :=
    keepsPlace_of_ofStmt flattens noTemps below stores
  obtain ⟨_, sameAgain, rfl⟩ := ofExpr_mem_eq_ok.mp again
  rw [flattens] at sameAgain
  obtain ⟨rfl, -⟩ := Prod.mk.inj (Except.ok.inj sameAgain)
  exact ⟨source, last, isSource, .repeated keeps rfl repeatable noTemps (by simp) rfl⟩

theorem isStore_assignmentOnce {temp : Temp} (absent : temp ∉ right.temps)
    (drawn : temp.number < supply.issued)
    (flattened : Flattening.ofExpr (assignmentOnce address right temp) supply = .ok (flat, rest)) :
    ∃ cell middle source last, Flattening.ofExpr address supply = .ok (cell, middle) ∧
      Flattening.ofExpr right middle = .ok (source, last) ∧ IsStore cell source flat := by
  obtain ⟨_, _, _, effects, again, rfl⟩ := ofExpr_eseq_eq_ok.mp flattened
  obtain ⟨_, sameAgain, rfl⟩ := ofExpr_mem_eq_ok.mp again
  obtain ⟨rfl, -⟩ := ofExpr_temp_eq_ok.mp sameAgain
  rw [ofStmt_seq] at effects
  obtain ⟨_, middle, _, keeps, others, rfl⟩ := ofStmts_cons_eq_ok.mp effects
  obtain ⟨_, _, _, stores, nothing, rfl⟩ := ofStmts_cons_eq_ok.mp others
  obtain ⟨rfl, -⟩ := ofStmts_nil_eq_ok.mp nothing
  rw [ofStmt_move] at keeps stores
  obtain ⟨cell, isCell, rfl⟩ := ofMove_temp_eq_ok.mp keeps
  obtain ⟨_, _, source, last, _, _, _, place, isSource, paired, rfl⟩ := ofMove_mem_eq_ok.mp stores
  obtain ⟨rfl, rfl⟩ := ofExpr_temp_eq_ok.mp place
  obtain ⟨rfl, rfl, rfl, -⟩ := pair_of_isFixed rfl paired
  have spared := not_mem_before_of_fresh isSource absent
    (.inl (Nat.lt_of_lt_of_le drawn (ofExpr_issued_le address isCell)))
  exact ⟨cell, _, source, last, isCell, isSource, .once (.moved spared) (by simp) (by simp) rfl⟩

end Stores

/-- Statements and a value are the lowered and flattened code of an expression, in a function of
some level. -/
structure HasCode (context : LoweringContext) (level : Nat) (expression : Source.Expr)
    (flat : Flattened) : Prop where
  compiled : ∃ state final value supply rest,
    ofExpr context level expression state = .ok (.expr value) final ∧
    Flattening.ofExpr value supply = .ok (flat, rest)

/-- The jumps of an expression go to places in its own code. -/
theorem HasCode.jumpsInside {expression : Source.Expr} {flat : Flattened}
    (code : HasCode context level expression flat) : JumpsInside flat.before := by
  obtain ⟨_, _, _, _, _, lowered, flattened⟩ := code.compiled
  obtain ⟨around, rfl⟩ := exists_around level
  exact ofExpr_jumpsInside flattened (ofExpr_behaves expression around lowered).targets

theorem HasCode.eq_const {node : Node} {number : Int} {flat : Flattened}
    (code : HasCode context level (.literal node (.int number)) flat) :
    flat = ⟨[], .const number⟩ := by
  obtain ⟨_, _, _, _, _, lowered, flattened⟩ := code.compiled
  obtain rfl := Lowered.expr.inj (ofExpr_int_eq_ok.mp lowered).1
  exact (Flattening.ofExpr_const_eq_ok.mp flattened).1

theorem isStore_of_lowered {node : Node} {target value : Source.Expr} {code : IR.Expr}
    {flat : Flattened} {state final : LoweringState} {supply rest : TempSupply}
    (isCell : target.isCell = true) (assign : AssignToCells value.parts)
    (lowered : ofExpr context level (.binary node .assign target value) state =
      .ok (.expr code) final)
    (above : final.temps.issued ≤ supply.issued)
    (flattened : Flattening.ofExpr code supply = .ok (flat, rest)) :
    ∃ cell source, HasCode context level target ⟨cell.before, .mem cell.value⟩ ∧
      HasCode context level value source ∧ IsStore cell source flat := by
  obtain ⟨left, middle, right, last, _, targetLowered, valueLowered, built, same⟩ :=
    ofExpr_binary_eq_ok.mp lowered
  obtain rfl := Lowered.expr.inj same
  obtain ⟨address, rfl⟩ := ofExpr_isCell isCell targetLowered
  have drawn := ofExpr_draws value assign valueLowered
  rw [toStmt_temps] at drawn
  have targetCode {cell : Flattened} {first second : TempSupply}
      (isCode : Flattening.ofExpr address first = .ok (cell, second)) :
      HasCode context level target ⟨cell.before, .mem cell.value⟩ :=
    ⟨_, _, _, _, _, targetLowered, ofExpr_mem_eq_ok.mpr ⟨cell, isCode, rfl⟩⟩
  rw [ofBinary_assign_mem_eq_ok] at built
  split at built
  · next repeatable =>
      obtain ⟨rfl, rfl⟩ := built
      have noTemps : (IR.Expr.mem address).temps = [] :=
        temps_of_isRepeatable targetLowered repeatable
      rw [IR.Expr.temps] at noTemps
      obtain ⟨source, _, isSource, stores⟩ := isStore_assignment repeatable noTemps
        (fun temp member => Nat.lt_of_lt_of_le (drawn.temp temp member).2 above) flattened
      obtain ⟨plain, quiet⟩ := isPlain_of_isRepeatable repeatable
      exact ⟨_, source, targetCode (ofExpr_of_isPlain_of_calls plain quiet supply),
        ⟨_, _, _, _, _, valueLowered, isSource⟩, stores⟩
  · obtain ⟨rfl, rfl⟩ := built
    have absent : last.temps.next ∉ right.temps := fun member =>
      absurd (drawn.temp _ member).2 (Nat.lt_irrefl _)
    obtain ⟨cell, _, source, _, isCode, isSource, stores⟩ :=
      isStore_assignmentOnce absent above flattened
    exact ⟨cell, source, targetCode isCode, ⟨_, _, _, _, _, valueLowered, isSource⟩, stores⟩

/-! ### Targets that are lowered twice -/

/-- Whether code stands for a place, and does nothing before. -/
def isPlace : IR.Expr → Bool
  | .mem _ | .temp _ => true
  | _ => false

/-- Only what stands for a cell becomes a place. -/
theorem isCell_of_isPlace {expression : Source.Expr} {value : IR.Expr}
    {state final : LoweringState} (place : isPlace value = true)
    (lowered : ofExpr context level expression state = .ok (.expr value) final) :
    expression.isCell = true := by
  match expression with
  | .name .. | .binary _ .index .. => rfl
  | .literal _ (.int _) =>
      obtain rfl := Lowered.expr.inj (ofExpr_int_eq_ok.mp lowered).1
      cases place
  | .literal _ (.log _) =>
      obtain rfl := Lowered.expr.inj (ofExpr_log_eq_ok.mp lowered).1
      cases place
  | .literal _ (.str _) =>
      obtain rfl := Lowered.expr.inj (ofExpr_str_eq_ok.mp lowered).1
      cases place
  | .unary _ .plus operand =>
      obtain ⟨inner, operandLowered, same⟩ := ofExpr_unary_eq_ok.mp lowered
      obtain rfl := Lowered.expr.inj same
      rw [Source.Expr.isCell]
      exact isCell_of_isPlace place operandLowered
  | .unary _ .minus _ | .unary _ .not _ =>
      obtain ⟨inner, -, same⟩ := ofExpr_unary_eq_ok.mp lowered
      obtain rfl := Lowered.expr.inj same
      cases place
  | .binary _ (.compute operator) .. =>
      obtain ⟨_, _, _, -, -, same⟩ := ofExpr_compute_eq_ok.mp lowered
      obtain rfl := Lowered.expr.inj same
      cases place
  | .binary _ .assign .. =>
      obtain ⟨_, _, _, _, _, -, -, built, same⟩ := ofExpr_binary_eq_ok.mp lowered
      obtain rfl := Lowered.expr.inj same
      obtain ⟨_, _, rfl⟩ := ofBinary_assign_eq_eseq built
      cases place
  | .call .. =>
      obtain ⟨_, _, -, -, same⟩ := ofExpr_call_eq_ok.mp lowered
      obtain rfl := Lowered.expr.inj same
      cases place
  | .block .. =>
      obtain ⟨_, _, -, same⟩ := ofExpr_block_eq_ok.mp lowered
      obtain rfl := Lowered.expr.inj same
      cases place
  | .whereIn _ _ inner =>
      obtain ⟨_, _, -, innerLowered, same⟩ := ofExpr_whereIn_eq_ok.mp lowered
      obtain rfl := Lowered.expr.inj same
      rw [Source.Expr.isCell]
      exact isCell_of_isPlace place innerLowered
  | .ifThen .. =>
      obtain ⟨_, _, _, _, -, -, -, same⟩ := ofExpr_ifThen_eq_ok.mp lowered
      cases same
  | .ifThenElse .. =>
      obtain ⟨_, _, _, _, _, _, -, -, -, -, same⟩ := ofExpr_ifThenElse_eq_ok.mp lowered
      cases same
  | .whileLoop .. =>
      obtain ⟨_, _, _, _, -, -, -, same⟩ := ofExpr_whileLoop_eq_ok.mp lowered
      cases same
  | .forLoop .. =>
      obtain ⟨_, _, _, _, _, _, _, _, _, _, _, -, -, -, -, -, -, -, same⟩ :=
        ofExpr_forLoop_eq_ok.mp lowered
      cases same

/-- Statements come twice in flat code: in front of a store of a value, and again behind it. -/
structure Repeats (context : LoweringContext) (level : Nat) (target value : Source.Expr)
    (flat : Flattened) : Prop where
  shape : ∃ effect place right first again stored rest,
    (∃ state final, ofExpr context level target state = .ok (.expr (.eseq effect place)) final) ∧
    (∃ state final, ofExpr context level value state = .ok (.expr right) final) ∧
    (∃ supply rest, ofStmt effect supply = .ok (first, rest)) ∧
    (∃ supply rest, ofStmt (.move place right) supply = .ok (stored, rest)) ∧
    (∃ supply rest, ofStmt effect supply = .ok (again, rest)) ∧
    flat.before = first ++ stored ++ again ++ rest

theorem repeats_of_lowered {node : Node} {target value : Source.Expr} {code : IR.Expr}
    {flat : Flattened} {state final : LoweringState} {supply rest : TempSupply}
    (noCell : target.isCell = false)
    (lowered : ofExpr context level (.binary node .assign target value) state =
      .ok (.expr code) final)
    (flattened : Flattening.ofExpr code supply = .ok (flat, rest)) :
    Repeats context level target value flat := by
  obtain ⟨left, middle, right, last, _, targetLowered, valueLowered, built, same⟩ :=
    ofExpr_binary_eq_ok.mp lowered
  obtain rfl := Lowered.expr.inj same
  have elsewhere : isPlace left = false := by
    by_contra place
    cases noCell.symm.trans (isCell_of_isPlace (by simpa using place) targetLowered)
  cases left with
  | mem _ | temp _ => cases elsewhere
  | eseq effect place =>
      obtain ⟨rfl, -⟩ := Outcome.pure_eq_ok.mp built
      obtain ⟨_, later, _, moves, again, rfl⟩ := ofExpr_eseq_eq_ok.mp flattened
      rw [ofStmt_move] at moves
      obtain ⟨first, between, stored, before, stores, rfl⟩ := ofMove_eseq_eq_ok.mp moves
      obtain ⟨behind, _, cell, repeated, -, rfl⟩ := ofExpr_eseq_eq_ok.mp again
      have stores : Flattening.ofStmt (.move place right) between = .ok (stored, later) := by
        rw [ofStmt_move]
        exact stores
      exact ⟨effect, place, right, first, behind, stored, cell.before,
        ⟨_, _, targetLowered⟩, ⟨_, _, valueLowered⟩, ⟨_, _, before⟩, ⟨_, _, stores⟩,
        ⟨_, _, repeated⟩, by simp⟩
  | const | name | binop | call =>
      -- Flattening finds nothing there to store to.
      obtain ⟨rfl, -⟩ := Outcome.pure_eq_ok.mp built
      obtain ⟨_, _, _, moves, -, -⟩ := ofExpr_eseq_eq_ok.mp flattened
      cases moves

end Lowering

end TreeBackend
