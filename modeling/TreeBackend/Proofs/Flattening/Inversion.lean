import TreeBackend.Flattening

/-!
# What a successful flattening consists of

Flattening a construct succeeds exactly if flattening its parts does.  Each
lemma below says this for one construct, with the temporaries passed from part
to part, so that no other module opens the definition of flattening.
-/

namespace TreeBackend.Flattening

open IR (Expr Stmt Temp TempSupply Chunk)

variable {supply rest : TempSupply}

theorem bind_eq_ok {α β : Type} {first : Flattening α} {next : α → Flattening β} {result : β} :
    (first >>= next) supply = .ok (result, rest) ↔
      ∃ value middle, first supply = .ok (value, middle) ∧
        next value middle = .ok (result, rest) := by
  change (first supply >>= fun step => next step.1 step.2) = _ ↔ _
  cases first supply with
  | error problem => simp [bind, Except.bind]
  | ok step =>
      constructor
      · intro succeeds
        exact ⟨step.1, step.2, rfl, succeeds⟩
      · rintro ⟨value, middle, same, succeeds⟩
        cases same
        exact succeeds

theorem pure_eq_ok {α : Type} {value result : α} :
    (pure value : Flattening α) supply = .ok (result, rest) ↔ result = value ∧ rest = supply := by
  change (Except.ok (value, supply) : Except CompileError _) = _ ↔ _
  simp [eq_comm]

theorem drawTemp_eq_ok {temp : Temp} :
    drawTemp supply = .ok (temp, rest) ↔ temp = supply.next ∧ rest = supply.rest := by
  simp [drawTemp, eq_comm]

/-! ### Operands -/

theorem keep_of_isFixed {value : Expr} {kept : Flattened} (fixed : value.isFixed = true)
    (keeps : keep value supply = .ok (kept, rest)) : kept = ⟨[], value⟩ ∧ rest = supply := by
  rw [keep, if_pos fixed, pure_eq_ok] at keeps
  exact keeps

theorem keep_of_not_isFixed {value : Expr} {kept : Flattened} (loose : ¬value.isFixed = true)
    (keeps : keep value supply = .ok (kept, rest)) :
    kept = ⟨[.move (.temp supply.next) value], .temp supply.next⟩ ∧ rest = supply.rest := by
  rw [keep, if_neg loose, bind_eq_ok] at keeps
  obtain ⟨temp, middle, drawn, built⟩ := keeps
  obtain ⟨rfl, rfl⟩ := drawTemp_eq_ok.mp drawn
  obtain ⟨rfl, rfl⟩ := pure_eq_ok.mp built
  exact ⟨rfl, rfl⟩

theorem keepAll_nil_eq_ok {kept : FlattenedOperands} :
    keepAll [] supply = .ok (kept, rest) ↔ kept = {} ∧ rest = supply := by
  simp only [keepAll, pure_eq_ok]

theorem keepAll_cons_eq_ok {value : Expr} {values : List Expr} {kept : FlattenedOperands} :
    keepAll (value :: values) supply = .ok (kept, rest) ↔
      ∃ head middle tail, keep value supply = .ok (head, middle) ∧
        keepAll values middle = .ok (tail, rest) ∧
        kept = ⟨head.before ++ tail.before, head.value :: tail.values⟩ := by
  simp only [keepAll, bind_eq_ok, pure_eq_ok]
  grind

/-- Two operands are put together as an operand behind a single one. -/
theorem pair_eq_ok {first second : Flattened} {before : List Stmt} {left right : Expr} :
    pair first second supply = .ok ((before, left, right), rest) ↔
      append ⟨first.before, [first.value]⟩ second supply =
        .ok (⟨before, [left, right]⟩, rest) := by
  unfold pair append
  split
  · simp [pure_eq_ok]
  · simp only [keepAll, bind_eq_ok, pure_eq_ok]
    grind

/-- An operand without statements of its own leaves the others as they are. -/
theorem append_of_nil {operands result : FlattenedOperands} {next : Flattened}
    (quiet : next.before = [])
    (appended : append operands next supply = .ok (result, rest)) :
    result = ⟨operands.before, operands.values ++ [next.value]⟩ ∧ rest = supply := by
  rw [append, if_pos (by simp [quiet]), pure_eq_ok] at appended
  exact appended

/-- An operand with statements of its own has the others kept in front of them. -/
theorem append_of_ne_nil {operands result : FlattenedOperands} {next : Flattened}
    (busy : next.before ≠ [])
    (appended : append operands next supply = .ok (result, rest)) :
    ∃ kept, keepAll operands.values supply = .ok (kept, rest) ∧
      result = ⟨operands.before ++ kept.before ++ next.before,
        kept.values ++ [next.value]⟩ := by
  rw [append, if_neg (by simpa using busy), bind_eq_ok] at appended
  obtain ⟨kept, middle, keeps, built⟩ := appended
  obtain ⟨rfl, rfl⟩ := pure_eq_ok.mp built
  exact ⟨kept, keeps, rfl⟩

theorem keepAll_length {values : List Expr} {kept : FlattenedOperands}
    (keeps : keepAll values supply = .ok (kept, rest)) : kept.values.length = values.length := by
  induction values generalizing supply kept with
  | nil =>
      obtain ⟨rfl, -⟩ := keepAll_nil_eq_ok.mp keeps
      rfl
  | cons value values ih =>
      obtain ⟨head, _, tail, -, tailKeeps, rfl⟩ := keepAll_cons_eq_ok.mp keeps
      rw [List.length_cons, List.length_cons, ih tailKeeps]

theorem append_length {operands result : FlattenedOperands} {next : Flattened}
    (appended : append operands next supply = .ok (result, rest)) :
    result.values.length = operands.values.length + 1 := by
  by_cases quiet : next.before = []
  · obtain ⟨rfl, -⟩ := append_of_nil quiet appended
    exact List.length_append
  · obtain ⟨kept, keeps, rfl⟩ := append_of_ne_nil quiet appended
    rw [List.length_append, keepAll_length keeps, List.length_singleton]

attribute [local simp] ofStmt ofStmts ofMove ofExpr ofOperands

theorem ofOperands_nil_eq_ok {done operands : FlattenedOperands} :
    ofOperands done [] supply = .ok (operands, rest) ↔ operands = done ∧ rest = supply := by
  simp [pure_eq_ok]

theorem ofOperands_cons_eq_ok {done operands : FlattenedOperands} {operand : Expr}
    {others : List Expr} :
    ofOperands done (operand :: others) supply = .ok (operands, rest) ↔
      ∃ flat middle next last, ofExpr operand supply = .ok (flat, middle) ∧
        append done flat middle = .ok (next, last) ∧
        ofOperands next others last = .ok (operands, rest) := by
  simp only [ofOperands, bind_eq_ok]
  grind

theorem ofOperands_length {operands : List Expr} {done flat : FlattenedOperands}
    (flattened : ofOperands done operands supply = .ok (flat, rest)) :
    flat.values.length = done.values.length + operands.length := by
  induction operands generalizing done supply with
  | nil =>
      obtain ⟨rfl, -⟩ := ofOperands_nil_eq_ok.mp flattened
      rfl
  | cons operand others ih =>
      obtain ⟨_, _, _, _, -, appended, last⟩ := ofOperands_cons_eq_ok.mp flattened
      rw [ih last, append_length appended, List.length_cons]
      omega

/-! ### Expressions -/

theorem ofExpr_const_eq_ok {value : Int} {flat : Flattened} :
    ofExpr (.const value) supply = .ok (flat, rest) ↔
      flat = ⟨[], .const value⟩ ∧ rest = supply := by
  simp [pure_eq_ok]

theorem ofExpr_name_eq_ok {label : Label} {flat : Flattened} :
    ofExpr (.name label) supply = .ok (flat, rest) ↔
      flat = ⟨[], .name label⟩ ∧ rest = supply := by
  simp [pure_eq_ok]

theorem ofExpr_temp_eq_ok {temp : Temp} {flat : Flattened} :
    ofExpr (.temp temp) supply = .ok (flat, rest) ↔
      flat = ⟨[], .temp temp⟩ ∧ rest = supply := by
  simp [pure_eq_ok]

theorem ofExpr_mem_eq_ok {address : Expr} {flat : Flattened} :
    ofExpr (.mem address) supply = .ok (flat, rest) ↔
      ∃ place, ofExpr address supply = .ok (place, rest) ∧
        flat = ⟨place.before, .mem place.value⟩ := by
  simp only [ofExpr, bind_eq_ok, pure_eq_ok]
  grind

theorem ofExpr_binop_eq_ok {operator : Operator} {left right : Expr} {flat : Flattened} :
    ofExpr (.binop operator left right) supply = .ok (flat, rest) ↔
      ∃ first middle second last before leftValue rightValue,
        ofExpr left supply = .ok (first, middle) ∧
        ofExpr right middle = .ok (second, last) ∧
        pair first second last = .ok ((before, leftValue, rightValue), rest) ∧
        flat = ⟨before, .binop operator leftValue rightValue⟩ := by
  simp only [ofExpr, bind_eq_ok, pure_eq_ok]
  grind

theorem ofExpr_call_eq_ok {label : Label} {arguments : List Expr} {flat : Flattened} :
    ofExpr (.call label arguments) supply = .ok (flat, rest) ↔
      ∃ operands, ofOperands {} arguments supply = .ok (operands, rest) ∧
        flat = ⟨operands.before, .call label operands.values⟩ := by
  simp only [ofExpr, bind_eq_ok, pure_eq_ok]
  grind

theorem ofExpr_eseq_eq_ok {effect : Stmt} {value : Expr} {flat : Flattened} :
    ofExpr (.eseq effect value) supply = .ok (flat, rest) ↔
      ∃ first middle last, ofStmt effect supply = .ok (first, middle) ∧
        ofExpr value middle = .ok (last, rest) ∧
        flat = ⟨first ++ last.before, last.value⟩ := by
  simp only [ofExpr, bind_eq_ok, pure_eq_ok]
  grind

/-! ### Statements -/

theorem ofStmt_seq {items : List Stmt} : ofStmt (.seq items) = ofStmts items := by
  simp

theorem ofStmts_nil_eq_ok {flat : List Stmt} :
    ofStmts [] supply = .ok (flat, rest) ↔ flat = [] ∧ rest = supply := by
  simp [pure_eq_ok]

theorem ofStmts_cons_eq_ok {statement : Stmt} {others flat : List Stmt} :
    ofStmts (statement :: others) supply = .ok (flat, rest) ↔
      ∃ first middle last, ofStmt statement supply = .ok (first, middle) ∧
        ofStmts others middle = .ok (last, rest) ∧ flat = first ++ last := by
  simp only [ofStmts, bind_eq_ok, pure_eq_ok]
  grind

theorem ofStmt_label_eq_ok {label : Label} {flat : List Stmt} :
    ofStmt (.label label) supply = .ok (flat, rest) ↔ flat = [.label label] ∧ rest = supply := by
  simp [pure_eq_ok]

theorem ofStmt_jump_eq_ok {target : Label} {flat : List Stmt} :
    ofStmt (.jump target) supply = .ok (flat, rest) ↔ flat = [.jump target] ∧ rest = supply := by
  simp [pure_eq_ok]

theorem ofStmt_cjump_eq_ok {condition : Expr} {whenTrue whenFalse : Label} {flat : List Stmt} :
    ofStmt (.cjump condition whenTrue whenFalse) supply = .ok (flat, rest) ↔
      ∃ test, ofExpr condition supply = .ok (test, rest) ∧
        flat = test.before ++ [.cjump test.value whenTrue whenFalse] := by
  simp only [ofStmt, bind_eq_ok, pure_eq_ok]
  grind

theorem ofStmt_exp_eq_ok {value : Expr} {flat : List Stmt} :
    ofStmt (.exp value) supply = .ok (flat, rest) ↔
      ∃ last, ofExpr value supply = .ok (last, rest) ∧
        flat = if isDiscardable last.value then last.before
          else last.before ++ [.exp last.value] := by
  simp only [ofStmt, bind_eq_ok, pure_eq_ok]
  grind

theorem ofStmt_move {target source : Expr} :
    ofStmt (.move target source) = ofMove (ofExpr source) target := by
  simp

theorem ofMove_temp_eq_ok {source : Flattening Flattened} {temp : Temp} {flat : List Stmt} :
    ofMove source (.temp temp) supply = .ok (flat, rest) ↔
      ∃ value, source supply = .ok (value, rest) ∧
        flat = value.before ++ [.move (.temp temp) value.value] := by
  simp only [ofMove, bind_eq_ok, pure_eq_ok]
  grind

theorem ofMove_mem_eq_ok {source : Flattening Flattened} {address : Expr} {flat : List Stmt} :
    ofMove source (.mem address) supply = .ok (flat, rest) ↔
      ∃ place middle value last before left right,
        ofExpr address supply = .ok (place, middle) ∧
        source middle = .ok (value, last) ∧
        pair place value last = .ok ((before, left, right), rest) ∧
        flat = before ++ [.move (.mem left) right] := by
  simp only [ofMove, bind_eq_ok, pure_eq_ok]
  grind

theorem ofMove_eseq_eq_ok {source : Flattening Flattened} {effect : Stmt} {value : Expr}
    {flat : List Stmt} :
    ofMove source (.eseq effect value) supply = .ok (flat, rest) ↔
      ∃ first middle last, ofStmt effect supply = .ok (first, middle) ∧
        ofMove source value middle = .ok (last, rest) ∧ flat = first ++ last := by
  simp only [ofMove, bind_eq_ok, pure_eq_ok]
  grind

end TreeBackend.Flattening
