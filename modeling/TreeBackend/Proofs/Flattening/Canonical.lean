import TreeBackend.Proofs.Flattening.Plain

/-!
# Flattening twice

Code that has been flattened is in a canonical form: flattening it again changes no
statement and draws no temporary, whichever supply it is given.
-/

namespace TreeBackend.Flattening

open IR (Expr Stmt TempSupply)

/-- Operands without statements of their own are put behind the ones to their left. -/
theorem append_of_value (done : FlattenedOperands) (value : Expr) (supply : TempSupply) :
    append done ⟨[], value⟩ supply = .ok (⟨done.before, done.values ++ [value]⟩, supply) := rfl

theorem pair_of_values (first second : Expr) (supply : TempSupply) :
    pair ⟨[], first⟩ ⟨[], second⟩ supply = .ok (([], first, second), supply) := rfl

mutual

theorem ofExpr_of_isPlain : (expression : Expr) → (supply : TempSupply) →
    expression.isPlain = true → ofExpr expression supply = .ok (⟨[], expression⟩, supply)
  | .const _, _, _ => ofExpr_const_eq_ok.mpr ⟨rfl, rfl⟩
  | .name _, _, _ => ofExpr_name_eq_ok.mpr ⟨rfl, rfl⟩
  | .temp _, _, _ => ofExpr_temp_eq_ok.mpr ⟨rfl, rfl⟩
  | .mem address, supply, plain =>
      ofExpr_mem_eq_ok.mpr ⟨_, ofExpr_of_isPlain address supply plain, rfl⟩
  | .binop _ left right, supply, plain => by
      rw [Expr.isPlain, Bool.and_eq_true] at plain
      exact ofExpr_binop_eq_ok.mpr ⟨_, supply, _, supply, [], left, right,
        ofExpr_of_isPlain left supply plain.1, ofExpr_of_isPlain right supply plain.2,
        pair_of_values left right supply, rfl⟩
  | .call _ arguments, supply, plain =>
      ofExpr_call_eq_ok.mpr ⟨_, ofOperands_of_arePlain arguments {} supply plain, rfl⟩

/-- Plain operands are put behind the ones to their left as they are. -/
theorem ofOperands_of_arePlain : (operands : List Expr) → (done : FlattenedOperands) →
    (supply : TempSupply) → Expr.arePlain operands = true →
    ofOperands done operands supply = .ok (⟨done.before, done.values ++ operands⟩, supply)
  | [], done, supply, _ => by
      rw [List.append_nil]
      exact ofOperands_nil_eq_ok.mpr ⟨rfl, rfl⟩
  | operand :: others, done, supply, plain => by
      rw [Expr.arePlain, Bool.and_eq_true] at plain
      have last := ofOperands_of_arePlain others ⟨done.before, done.values ++ [operand]⟩ supply
        plain.2
      rw [List.append_assoc, List.singleton_append] at last
      exact ofOperands_cons_eq_ok.mpr ⟨_, supply, _, supply,
        ofExpr_of_isPlain operand supply plain.1, append_of_value done operand supply, last⟩

end

theorem ofStmt_of_isSettled {statement : Stmt} (settled : isSettled statement = true)
    (supply : TempSupply) : ofStmt statement supply = .ok ([statement], supply) := by
  cases statement with
  | seq => cases settled
  | label => exact ofStmt_label_eq_ok.mpr ⟨rfl, rfl⟩
  | jump => exact ofStmt_jump_eq_ok.mpr ⟨rfl, rfl⟩
  | cjump condition =>
      exact ofStmt_cjump_eq_ok.mpr ⟨_, ofExpr_of_isPlain condition supply settled, rfl⟩
  | exp value =>
      have wanted : value.isPlain = true ∧ isDiscardable value = false := by
        simpa [isSettled] using settled
      refine ofStmt_exp_eq_ok.mpr ⟨_, ofExpr_of_isPlain value supply wanted.1, ?_⟩
      simp [wanted.2]
  | move target source =>
      rw [ofStmt_move]
      cases target with
      | temp _ => exact ofMove_temp_eq_ok.mpr ⟨_, ofExpr_of_isPlain source supply settled, rfl⟩
      | mem address =>
          rw [isSettled, Bool.and_eq_true] at settled
          exact ofMove_mem_eq_ok.mpr ⟨_, supply, _, supply, [], address, source,
            ofExpr_of_isPlain address supply settled.1, ofExpr_of_isPlain source supply settled.2,
            pair_of_values address source supply, rfl⟩
      | _ => cases settled

/-- Settled statements are flattened to themselves. -/
theorem ofStmts_of_areSettled {statements : List Stmt} (settled : AreSettled statements)
    (supply : TempSupply) : ofStmts statements supply = .ok (statements, supply) := by
  induction statements with
  | nil => exact ofStmts_nil_eq_ok.mpr ⟨rfl, rfl⟩
  | cons statement others ih =>
      obtain ⟨first, last⟩ := List.forall_mem_cons.mp settled
      exact ofStmts_cons_eq_ok.mpr ⟨[statement], supply, others,
        ofStmt_of_isSettled first supply, ih last, rfl⟩

/-- A settled store goes to a temporary or a cell. -/
theorem target_of_isSettled {target source : Expr}
    (settled : isSettled (.move target source) = true) :
    (∃ temp, target = .temp temp) ∨ ∃ address, target = .mem address := by
  cases target with
  | temp held => exact .inl ⟨held, rfl⟩
  | mem address => exact .inr ⟨address, rfl⟩
  | _ => cases settled

/-- Flattened code is canonical: as a sequence it is flat, each of its stores goes to a
temporary or a cell, and flattening it again gives the same statements and draws no
temporary. -/
theorem ofStmt_is_canonical {statement : Stmt} {flat : List Stmt} {supply rest : TempSupply}
    (flattened : ofStmt statement supply = .ok (flat, rest)) :
    (Stmt.seq flat).isFlat = true ∧
      (∀ target source, Stmt.move target source ∈ flat →
        (∃ temp, target = .temp temp) ∨ ∃ address, target = .mem address) ∧
      ∀ other : TempSupply, ofStmt (.seq flat) other = .ok (flat, other) := by
  have settled := ofStmt_areSettled statement flattened
  refine ⟨?_, fun target source member => target_of_isSettled (settled _ member), fun other => ?_⟩
  · rw [Stmt.isFlat, List.all_eq_true]
    exact fun item member => isPlain_of_isSettled (settled item member)
  · rw [ofStmt_seq]
    exact ofStmts_of_areSettled settled other

/-- The first operand is kept before the store in front of the second one, and the load
through a temporary is left out; after that nothing is left to be done. -/
theorem ofStmt_is_canonical_kept_operand :
    let cell : Expr := .mem .framePointer
    let statement : Stmt := .move (.temp ⟨0⟩) (.binop .add cell
      (.eseq (.seq [.move cell (.const 7), .exp (.mem (.temp ⟨0⟩))]) (.const 1)))
    let flat : List Stmt := [.move (.temp ⟨1⟩) cell, .move cell (.const 7),
      .move (.temp ⟨0⟩) (.binop .add (.temp ⟨1⟩) (.const 1))]
    ofStmt statement ⟨1⟩ = .ok (flat, ⟨2⟩) ∧
      (Stmt.seq flat).isFlat = true ∧
      (∀ target source, Stmt.move target source ∈ flat →
        (∃ temp, target = .temp temp) ∨ ∃ address, target = .mem address) ∧
      ∀ other : TempSupply, ofStmt (.seq flat) other = .ok (flat, other) := by
  intro cell statement flat
  have flattened : ofStmt statement ⟨1⟩ = .ok (flat, ⟨2⟩) := rfl
  exact ⟨flattened, ofStmt_is_canonical flattened⟩

end TreeBackend.Flattening
