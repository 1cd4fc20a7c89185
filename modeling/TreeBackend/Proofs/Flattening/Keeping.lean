import TreeBackend.Proofs.Flattening.Discipline

/-!
# Trees that keep a discipline

One rule for each construct of intermediate code: its flattened form keeps a discipline if
those of its parts do.  A value that is kept in a temporary is moved there by a statement
in front, so it still stands for the expression from which it came.
-/

namespace TreeBackend

open IR (Expr Stmt Temp TempSupply)

namespace Flattening

variable {discipline : Discipline} {base : List Stmt} {kind first second : Nat → Prop}
  {supply between rest : TempSupply}

/-! ### Operands -/

theorem ofExpr_of_isPlain_of_calls : {expression : Expr} → expression.isPlain = true →
    expression.calls = [] → ∀ supply, ofExpr expression supply = .ok (⟨[], expression⟩, supply)
  | .const _, _, _, _ => ofExpr_const_eq_ok.mpr ⟨rfl, rfl⟩
  | .name _, _, _, _ => ofExpr_name_eq_ok.mpr ⟨rfl, rfl⟩
  | .temp _, _, _, _ => ofExpr_temp_eq_ok.mpr ⟨rfl, rfl⟩
  | .mem address, plain, noCalls, supply =>
      have quiet := @ofExpr_of_isPlain_of_calls address plain noCalls supply
      ofExpr_mem_eq_ok.mpr ⟨_, quiet, rfl⟩
  | .binop _ left right, plain, noCalls, supply => by
      rw [Expr.isPlain, Bool.and_eq_true] at plain
      rw [Expr.calls, List.append_eq_nil_iff] at noCalls
      exact ofExpr_binop_eq_ok.mpr ⟨_, _, _, _, _, _, _,
        ofExpr_of_isPlain_of_calls plain.1 noCalls.1 supply,
        ofExpr_of_isPlain_of_calls plain.2 noCalls.2 supply, rfl, rfl⟩
  | .call .., _, noCalls, _ => by cases noCalls
  | .eseq .., plain, _, _ => by cases plain

/-- A store that is flat already is left as it is. -/
theorem ofStmt_move_of_isPlain {address source : Expr} {flat : List Stmt}
    {supply rest : TempSupply} (plain : address.isPlain = true) (quiet : address.calls = [])
    (sourcePlain : source.isPlain = true) (sourceQuiet : source.calls = [])
    (flattened : ofStmt (.move (.mem address) source) supply = .ok (flat, rest)) :
    flat = [.move (.mem address) source] := by
  rw [ofStmt_move] at flattened
  obtain ⟨_, _, _, _, before, left, right, isPlace, isSource, paired, rfl⟩ :=
    ofMove_mem_eq_ok.mp flattened
  rw [ofExpr_of_isPlain_of_calls plain quiet] at isPlace
  obtain ⟨rfl, rfl⟩ := Prod.mk.inj (Except.ok.inj isPlace)
  rw [ofExpr_of_isPlain_of_calls sourcePlain sourceQuiet] at isSource
  obtain ⟨rfl, rfl⟩ := Prod.mk.inj (Except.ok.inj isSource)
  obtain ⟨same, -⟩ := append_of_nil rfl (pair_eq_ok.mp paired)
  obtain ⟨rfl, values⟩ := FlattenedOperands.mk.inj same
  obtain ⟨rfl, rfl⟩ : left = address ∧ right = source := by simpa using values
  rfl

theorem keepAll_keepsFlat {values : List Expr} {kept : FlattenedOperands}
    (keeps : keepAll values supply = .ok (kept, rest))
    (calls : ∀ code, base ⊆ code → ∀ value ∈ values, discipline.AllowsCalls code value.calls) :
    KeepsFlat discipline base (Between supply.issued rest.issued) kept.before kept.values := by
  induction values generalizing supply kept base with
  | nil =>
      obtain ⟨rfl, rfl⟩ := keepAll_nil_eq_ok.mp keeps
      exact ⟨.nil, by simp, by simp⟩
  | cons value values ih =>
      obtain ⟨head, middle, tail, headKeeps, tailKeeps, rfl⟩ := keepAll_cons_eq_ok.mp keeps
      have later := @ih (base ++ head.before) middle tail tailKeeps fun code includes other member =>
        calls code (List.append_subset.mp includes).1 other (List.mem_cons_of_mem _ member)
      have headLe := (keep_issued headKeeps).1
      have tailLe := (keepAll_issued tailKeeps).1
      have head : KeepsFlat discipline base (Between supply.issued middle.issued)
          head.before [head.value] := by
        by_cases fixed : value.isFixed = true
        · obtain ⟨rfl, rfl⟩ := keep_of_isFixed fixed headKeeps
          exact .quiet (Expr.calls_of_isFixed fixed)
        · obtain ⟨rfl, rfl⟩ := keep_of_not_isFixed fixed headKeeps
          refine ⟨.move ⟨Nat.le_refl _, Nat.lt_succ_self _⟩, fun code includes => ?_,
            fun _ _ => by simp [Discipline.AllowsCalls, Expr.calls]⟩
          have allowed := calls code (List.append_subset.mp includes).1 value (List.mem_cons_self ..)
          refine List.forall_mem_singleton.mpr ⟨?_, fun _ _ same => by cases same⟩
          simpa [Stmt.calls, Expr.calls] using allowed
      exact head.append later ⟨fun _ => by omega, fun _ => by omega, fun _ => by omega⟩

theorem append_keepsFlat {operands result : FlattenedOperands} {next : Flattened}
    (appended : append operands next supply = .ok (result, rest))
    (left : KeepsFlat discipline base first operands.before operands.values)
    (right : KeepsFlat discipline base second next.before [next.value])
    (splits : Splits kind first second) (drawn : ∀ number, kind number → number < supply.issued) :
    KeepsFlat discipline base (DrawnFor kind supply rest) result.before result.values := by
  by_cases quiet : next.before = []
  · obtain ⟨rfl, rfl⟩ := append_of_nil quiet appended
    have right := right.behind (List.subset_append_left base operands.before)
    rw [quiet] at right
    have both := left.append right splits
    rw [List.append_nil] at both
    exact both.mono fun _ => .inl
  · obtain ⟨kept, keeps, rfl⟩ := append_of_ne_nil quiet appended
    have middle : KeepsFlat discipline (base ++ operands.before) (Between supply.issued rest.issued)
        kept.before kept.values := keepAll_keepsFlat keeps left.calls
    have apart : Splits (fun number => first number ∨ Between supply.issued rest.issued number)
        first (Between supply.issued rest.issued) := by
      refine ⟨fun number isFirst isKept => ?_, fun _ => .inl, fun _ => .inr⟩
      have below := drawn number (splits.isFirst number isFirst)
      omega
    have both := left.dropValues.append middle apart
    refine both.append (right.behind (List.subset_append_left ..)) ⟨?_, ?_, fun number => ?_⟩
    · rintro number (isFirst | isKept) isSecond
      · exact splits.apart number isFirst isSecond
      · have below := drawn number (splits.isSecond number isSecond)
        omega
    · rintro number (isFirst | isKept)
      · exact .inl (splits.isFirst number isFirst)
      · exact .inr isKept
    · exact fun isSecond => .inl (splits.isSecond number isSecond)

theorem pair_keepsFlat {left right leftValue rightValue : Expr} {here next : Flattened}
    {before : List Stmt} {middle last : TempSupply}
    (paired : pair here next last = .ok ((before, leftValue, rightValue), rest))
    (isLeft : ofExpr left supply = .ok (here, middle))
    (isRight : ofExpr right middle = .ok (next, last))
    (leftKeeps : KeepsExpr discipline first left) (rightKeeps : KeepsExpr discipline second right)
    (splits : Splits kind first second) (drawn : ∀ number, kind number → number < supply.issued) :
    KeepsFlat discipline [] (DrawnFor kind supply rest) before [leftValue, rightValue] := by
  have leftLe := ofExpr_issued_le left isLeft
  have rightLe := ofExpr_issued_le right isRight
  have pairLe := pair_issued_le paired
  obtain ⟨apart, isFirst, isSecond⟩ := splits
  have hereKeeps := leftKeeps.flat (fun number isNumber => drawn _ (isFirst _ isNumber)) isLeft
  have nextKeeps := rightKeeps.flat (fun number isNumber =>
    Nat.lt_of_lt_of_le (drawn _ (isSecond _ isNumber)) leftLe) isRight
  have keeps : KeepsFlat discipline [] (DrawnFor (DrawnFor kind supply last) last rest) before
      [leftValue, rightValue] :=
    append_keepsFlat (pair_eq_ok.mp paired) hereKeeps nextKeeps ⟨by grind, by grind, by grind⟩
      (by grind)
  exact keeps.mono (by grind)

/-- A fixed operand stays as it is. -/
theorem pair_of_isFixed {here next : Flattened} {before : List Stmt} {left right : Expr}
    (fixed : here.value.isFixed = true)
    (paired : pair here next supply = .ok ((before, left, right), rest)) :
    before = here.before ++ next.before ∧ left = here.value ∧ right = next.value ∧
      rest = supply := by
  by_cases quiet : next.before = []
  · obtain ⟨same, rfl⟩ := append_of_nil quiet (pair_eq_ok.mp paired)
    obtain ⟨rfl, values⟩ := FlattenedOperands.mk.inj same
    simpa [quiet] using values
  · obtain ⟨kept, keeps, same⟩ := append_of_ne_nil quiet (pair_eq_ok.mp paired)
    obtain ⟨rfl, values⟩ := FlattenedOperands.mk.inj same
    obtain ⟨head, middle, tail, headKeeps, tailKeeps, rfl⟩ := keepAll_cons_eq_ok.mp keeps
    obtain ⟨rfl, rfl⟩ := keep_of_isFixed fixed headKeeps
    obtain ⟨rfl, rfl⟩ := keepAll_nil_eq_ok.mp tailKeeps
    simpa using values

/-! ### The static link of a call -/

theorem keepAll_head {value link : Expr} {values : List Expr} {kept : FlattenedOperands}
    (keeps : keepAll (value :: values) supply = .ok (kept, rest))
    (stands : StandsFor base value link) :
    ∃ head others, kept.values = head :: others ∧ others.length = values.length ∧
      StandsFor (base ++ kept.before) head link := by
  obtain ⟨head, middle, tail, headKeeps, tailKeeps, rfl⟩ := keepAll_cons_eq_ok.mp keeps
  refine ⟨head.value, tail.values, rfl, keepAll_length tailKeeps, ?_⟩
  by_cases fixed : value.isFixed = true
  · obtain ⟨rfl, -⟩ := keep_of_isFixed fixed headKeeps
    exact stands.mono (List.subset_append_left ..)
  · obtain ⟨rfl, -⟩ := keep_of_not_isFixed fixed headKeeps
    rcases stands with rfl | ⟨temp, rfl, -⟩
    · exact .inr ⟨_, rfl, by simp⟩
    · cases fixed rfl

theorem append_head {operands result : FlattenedOperands} {next : Flattened} {value link : Expr}
    {values : List Expr} (appended : append operands next supply = .ok (result, rest))
    (isHead : operands.values = value :: values) (stands : StandsFor operands.before value link) :
    ∃ head others, result.values = head :: others ∧ others.length = values.length + 1 ∧
      StandsFor result.before head link := by
  by_cases quiet : next.before = []
  · obtain ⟨rfl, rfl⟩ := append_of_nil quiet appended
    exact ⟨value, values ++ [next.value], by simp [isHead], by simp, stands⟩
  · obtain ⟨kept, keeps, rfl⟩ := append_of_ne_nil quiet appended
    rw [isHead] at keeps
    obtain ⟨head, others, same, length, stands⟩ := keepAll_head keeps stands
    exact ⟨head, others ++ [next.value], by simp [same], by simp [length],
      stands.mono (List.subset_append_left ..)⟩

theorem ofOperands_head {operands : List Expr} {done flat : FlattenedOperands} {value link : Expr}
    {values : List Expr} (flattened : ofOperands done operands supply = .ok (flat, rest))
    (isHead : done.values = value :: values) (stands : StandsFor done.before value link) :
    ∃ head others, flat.values = head :: others ∧
      others.length = values.length + operands.length ∧ StandsFor flat.before head link := by
  induction operands generalizing done supply value values with
  | nil =>
      obtain ⟨rfl, -⟩ := ofOperands_nil_eq_ok.mp flattened
      exact ⟨value, values, isHead, rfl, stands⟩
  | cons operand operands ih =>
      obtain ⟨_, _, next, _, -, appended, later⟩ := ofOperands_cons_eq_ok.mp flattened
      obtain ⟨head, others, same, length, stands⟩ := append_head appended isHead stands
      obtain ⟨last, more, isLast, total, stands⟩ := ih later same stands
      exact ⟨last, more, isLast, by rw [total, length, List.length_cons]; omega, stands⟩

/-- Operands behind the ones that are flattened already. -/
theorem ofOperands_keepsFlat {operands : List Expr} {done flat : FlattenedOperands}
    (flattened : ofOperands done operands supply = .ok (flat, rest))
    (left : KeepsFlat discipline base first done.before done.values)
    (right : KeepsAll discipline second operands)
    (splits : Splits kind first second) (drawn : ∀ number, kind number → number < supply.issued) :
    KeepsFlat discipline base (DrawnFor kind supply rest) flat.before flat.values := by
  induction operands generalizing done supply first second kind with
  | nil =>
      obtain ⟨rfl, rfl⟩ := ofOperands_nil_eq_ok.mp flattened
      exact left.mono fun number isFirst => .inl (splits.isFirst number isFirst)
  | cons operand operands ih =>
      obtain ⟨here, others, keeps, keepsOthers, parts⟩ := right
      obtain ⟨next, middle, result, last, flattens, appended, later⟩ :=
        ofOperands_cons_eq_ok.mp flattened
      have nextLe := ofExpr_issued_le operand flattens
      have appendLe := (append_issued appended).1
      have lastLe := ofOperands_issued_le operands later
      obtain ⟨apart, isLeft, isRight⟩ := splits
      obtain ⟨othersApart, isHere, isLater⟩ := parts
      have nextKeeps :=
        keeps.flat (fun number isNumber => drawn _ (isRight _ (isHere _ isNumber))) flattens
      have resultKeeps : KeepsFlat discipline base (DrawnFor (fun number => first number ∨
          DrawnFor here supply middle number) middle last) result.before result.values :=
        append_keepsFlat appended left (nextKeeps.behind (List.nil_subset _))
          ⟨by grind, by grind, by grind⟩ (by grind)
      have allKeeps : KeepsFlat discipline base (DrawnFor (DrawnFor kind supply last) last rest)
          flat.before flat.values :=
        ih later resultKeeps keepsOthers ⟨by grind, by grind, by grind⟩ (by grind)
      exact allKeeps.mono (by grind)

end Flattening

section Rules

open Flattening

variable {discipline : Discipline} {kind first second : Nat → Prop}

/-! ### Expressions -/

namespace KeepsExpr

theorem mono {expression : Expr} (keeps : KeepsExpr discipline first expression)
    (includes : ∀ number, first number → kind number) : KeepsExpr discipline kind expression :=
  ⟨fun drawn flattened => (keeps.flat (fun _ isFirst => drawn _ (includes _ isFirst))
    flattened).mono fun _ => Or.imp_left (includes _)⟩

theorem quiet {expression : Expr} (plain : expression.isPlain = true)
    (noCalls : expression.calls = []) : KeepsExpr discipline kind expression := by
  refine ⟨fun {supply rest flat} _ flattened => ?_⟩
  rw [ofExpr_of_isPlain_of_calls plain noCalls supply] at flattened
  obtain ⟨rfl, -⟩ := Prod.mk.inj (Except.ok.inj flattened)
  exact .quiet noCalls

theorem mem {address : Expr} (keeps : KeepsExpr discipline kind address) :
    KeepsExpr discipline kind (.mem address) := by
  refine ⟨fun {supply rest flat} drawn flattened => ?_⟩
  obtain ⟨place, flattens, rfl⟩ := ofExpr_mem_eq_ok.mp flattened
  have keeps := keeps.flat drawn flattens
  exact ⟨keeps.drawn, keeps.allows, by simpa [Expr.calls] using keeps.calls⟩

theorem binop {operator : Operator} {left right : Expr}
    (leftKeeps : KeepsExpr discipline first left)
    (rightKeeps : KeepsExpr discipline second right) (splits : Splits kind first second) :
    KeepsExpr discipline kind (.binop operator left right) := by
  refine ⟨fun {supply rest flat} drawn flattened => ?_⟩
  obtain ⟨here, middle, next, last, _, _, _, isLeft, isRight, paired, rfl⟩ :=
    ofExpr_binop_eq_ok.mp flattened
  have keeps := pair_keepsFlat paired isLeft isRight leftKeeps rightKeeps splits drawn
  refine ⟨keeps.drawn, keeps.allows, fun code includes => ?_⟩
  have calls := keeps.calls code includes
  simp only [List.forall_mem_cons, List.not_mem_nil, false_imp_iff, implies_true, and_true]
    at calls ⊢
  exact List.forall_mem_append.mpr calls

theorem eseq {effect : Stmt} {value : Expr} (effectKeeps : KeepsStmt discipline first effect)
    (valueKeeps : KeepsExpr discipline second value) (splits : Splits kind first second) :
    KeepsExpr discipline kind (.eseq effect value) := by
  refine ⟨fun {supply rest flat} drawn flattened => ?_⟩
  obtain ⟨before, middle, last, effects, values, rfl⟩ := ofExpr_eseq_eq_ok.mp flattened
  have effectLe := ofStmt_issued_le effect effects
  have valueLe := ofExpr_issued_le value values
  obtain ⟨apart, isFirst, isSecond⟩ := splits
  have left := effectKeeps.flat (fun number isNumber => drawn _ (isFirst _ isNumber)) effects
  have right := valueKeeps.flat (fun number isNumber =>
    Nat.lt_of_lt_of_le (drawn _ (isSecond _ isNumber)) effectLe) values
  exact left.append (right.behind (List.nil_subset _)) ⟨by grind, by grind, by grind⟩

/-- A call with a static link that is computed on the spot. -/
theorem call {label : Label} {link : Expr} {arguments : List Expr}
    (plain : link.isPlain = true) (noCalls : link.calls = [])
    (allowed : discipline.isCall label link arguments.length)
    (keeps : KeepsAll discipline kind arguments) :
    KeepsExpr discipline kind (.call label (link :: arguments)) := by
  refine ⟨fun {supply rest flat} drawn flattened => ?_⟩
  obtain ⟨operands, all, rfl⟩ := ofExpr_call_eq_ok.mp flattened
  obtain ⟨linked, middle, next, last, linkFlattens, appended, flattens⟩ :=
    ofOperands_cons_eq_ok.mp all
  rw [ofExpr_of_isPlain_of_calls plain noCalls supply] at linkFlattens
  obtain ⟨rfl, rfl⟩ := Prod.mk.inj (Except.ok.inj linkFlattens)
  obtain ⟨rfl, rfl⟩ := append_of_nil rfl appended
  have keeps : KeepsFlat discipline [] (DrawnFor kind last rest) operands.before operands.values :=
    ofOperands_keepsFlat flattens (.quiet noCalls) keeps (.right kind) drawn
  obtain ⟨head, others, same, length, stands⟩ := ofOperands_head flattens rfl (.refl _ link)
  refine ⟨keeps.drawn, keeps.allows, fun code includes => List.forall_mem_singleton.mpr ?_⟩
  refine List.forall_mem_cons.mpr ⟨?_, fun call member => ?_⟩
  · have length : others.length = arguments.length := by simpa using length
    exact ⟨link, head, others, same, stands.mono includes, length ▸ allowed⟩
  · obtain ⟨value, isValue, isCall⟩ := Expr.mem_callsOfList.mp member
    exact keeps.calls code includes value isValue call isCall

end KeepsExpr

theorem KeepsAll.nil : KeepsAll discipline kind [] := trivial

theorem KeepsAll.cons {operand : Expr} {rest : List Expr}
    (keeps : KeepsExpr discipline first operand)
    (others : KeepsAll discipline second rest) (splits : Splits kind first second) :
    KeepsAll discipline kind (operand :: rest) :=
  ⟨first, second, keeps, others, splits⟩

/-! ### Statements -/

namespace KeepsStmt

theorem nil : KeepsStmt discipline kind (.seq []) := by
  refine ⟨fun {supply rest flat} _ flattened => ?_⟩
  rw [ofStmt_seq] at flattened
  obtain ⟨rfl, -⟩ := ofStmts_nil_eq_ok.mp flattened
  exact .nil

theorem cons {statement : Stmt} {others : List Stmt} (keeps : KeepsStmt discipline first statement)
    (othersKeep : KeepsStmt discipline second (.seq others)) (splits : Splits kind first second) :
    KeepsStmt discipline kind (.seq (statement :: others)) := by
  refine ⟨fun {supply rest flat} drawn flattened => ?_⟩
  rw [ofStmt_seq] at flattened
  obtain ⟨before, middle, after, here, later, rfl⟩ := ofStmts_cons_eq_ok.mp flattened
  have hereLe := ofStmt_issued_le statement here
  have laterLe := ofStmts_issued_le others later
  rw [← ofStmt_seq] at later
  obtain ⟨apart, isFirst, isSecond⟩ := splits
  have left := keeps.flat (fun number isNumber => drawn _ (isFirst _ isNumber)) here
  have right := othersKeep.flat (fun number isNumber =>
    Nat.lt_of_lt_of_le (drawn _ (isSecond _ isNumber)) hereLe) later
  exact left.append (right.behind (List.nil_subset _)) ⟨by grind, by grind, by grind⟩

/-- A statement for which no temporary is drawn in front of others. -/
theorem cons_quiet {statement : Stmt} {others : List Stmt}
    (keeps : KeepsStmt discipline (fun _ => False) statement)
    (othersKeep : KeepsStmt discipline kind (.seq others)) :
    KeepsStmt discipline kind (.seq (statement :: others)) :=
  keeps.cons othersKeep (.right kind)

theorem label {label : Label} : KeepsStmt discipline kind (.label label) := by
  refine ⟨fun {supply rest flat} _ flattened => ?_⟩
  obtain ⟨rfl, -⟩ := ofStmt_label_eq_ok.mp flattened
  exact KeepsFlat.nil.concat rfl fun _ _ => .quiet rfl fun _ _ same => by cases same

theorem jump {target : Label} : KeepsStmt discipline kind (.jump target) := by
  refine ⟨fun {supply rest flat} _ flattened => ?_⟩
  obtain ⟨rfl, -⟩ := ofStmt_jump_eq_ok.mp flattened
  exact KeepsFlat.nil.concat rfl fun _ _ => .quiet rfl fun _ _ same => by cases same

theorem cjump {condition : Expr} {whenTrue whenFalse : Label}
    (keeps : KeepsExpr discipline kind condition) :
    KeepsStmt discipline kind (.cjump condition whenTrue whenFalse) := by
  refine ⟨fun {supply rest flat} drawn flattened => ?_⟩
  obtain ⟨test, flattens, rfl⟩ := ofStmt_cjump_eq_ok.mp flattened
  have keeps := keeps.flat drawn flattens
  exact keeps.concat rfl fun code includes =>
    ⟨keeps.calls code includes _ (List.mem_singleton_self _), fun _ _ same => by cases same⟩

theorem exp {value : Expr} (keeps : KeepsExpr discipline kind value) :
    KeepsStmt discipline kind (.exp value) := by
  refine ⟨fun {supply rest flat} drawn flattened => ?_⟩
  obtain ⟨last, flattens, rfl⟩ := ofStmt_exp_eq_ok.mp flattened
  have keeps := keeps.flat drawn flattens
  split
  · exact keeps.dropValues
  · exact keeps.concat rfl fun code includes =>
      ⟨keeps.calls code includes _ (List.mem_singleton_self _), fun _ _ same => by cases same⟩

/-- A move to a temporary that was drawn for it. -/
theorem moveTemp {temp : Temp} {source : Expr} (keeps : KeepsExpr discipline first source)
    (splits : Splits kind first (· = temp.number)) :
    KeepsStmt discipline kind (.move (.temp temp) source) := by
  refine ⟨fun {supply rest flat} drawn flattened => ?_⟩
  rw [ofStmt_move] at flattened
  obtain ⟨value, flattens, rfl⟩ := ofMove_temp_eq_ok.mp flattened
  have valueLe := ofExpr_issued_le source flattens
  obtain ⟨apart, isFirst, isTemp⟩ := splits
  have isDrawn := drawn _ (isTemp _ rfl)
  have left := keeps.flat (fun number isNumber => drawn _ (isFirst _ isNumber)) flattens
  have right : KeepsFlat discipline value.before (· = temp.number)
      [.move (.temp temp) value.value] [] := by
    refine ⟨.move rfl, fun code includes => List.forall_mem_singleton.mpr ⟨?_, ?_⟩, by simp⟩
    · have calls := left.calls code (List.append_subset.mp includes).1 _ (List.mem_singleton_self _)
      simpa [Stmt.calls, Expr.calls] using calls
    · exact fun _ _ same => by cases same
  exact left.dropValues.append right ⟨by grind, by grind, by grind⟩

/-- A store to the cell at an address that is computed on the spot. -/
theorem moveCell {address source : Expr} (plain : address.isPlain = true)
    (noCalls : address.calls = []) (isCell : discipline.isCell address)
    (keeps : KeepsExpr discipline kind source) :
    KeepsStmt discipline kind (.move (.mem address) source) := by
  refine ⟨fun {supply rest flat} drawn flattened => ?_⟩
  rw [ofStmt_move] at flattened
  obtain ⟨place, middle, value, last, before, left, right, places, values, paired, rfl⟩ :=
    ofMove_mem_eq_ok.mp flattened
  have pairKeeps : KeepsFlat discipline [] (DrawnFor kind supply rest) before [left, right] :=
    pair_keepsFlat paired places values (KeepsExpr.quiet plain noCalls) keeps (.right kind) drawn
  rw [ofExpr_of_isPlain_of_calls plain noCalls supply] at places
  obtain ⟨rfl, rfl⟩ := Prod.mk.inj (Except.ok.inj places)
  obtain ⟨head, others, same, -, stands⟩ :=
    append_head (pair_eq_ok.mp paired) rfl (.refl _ address)
  obtain ⟨rfl, -⟩ := List.cons.inj same
  refine pairKeeps.concat rfl fun code includes => ⟨?_, fun place source same => ?_⟩
  · have calls := pairKeeps.calls code includes
    exact List.forall_mem_append.mpr ⟨calls left (by simp), calls right (by simp)⟩
  · obtain ⟨same, -⟩ := Stmt.move.inj same
    obtain rfl := Expr.mem.inj same
    exact .inl ⟨address, isCell, stands.mono includes⟩

/-- A store to the cell at an address that is computed before the value and kept in a
temporary. -/
theorem moveOnce {temp : Temp} {address source : Expr} (plain : address.isPlain = true)
    (noCalls : address.calls = []) (isCell : discipline.isCell address)
    (keeps : KeepsExpr discipline first source) (splits : Splits kind first (· = temp.number)) :
    KeepsStmt discipline kind
      (.seq [.move (.temp temp) address, .move (.mem (.temp temp)) source]) := by
  refine ⟨fun {supply rest flat} drawn flattened => ?_⟩
  rw [ofStmt_seq] at flattened
  obtain ⟨here, middle, after, moves, later, rfl⟩ := ofStmts_cons_eq_ok.mp flattened
  obtain ⟨there, last, none, stores, ends, rfl⟩ := ofStmts_cons_eq_ok.mp later
  obtain ⟨rfl, rfl⟩ := ofStmts_nil_eq_ok.mp ends
  rw [ofStmt_move] at moves stores
  obtain ⟨place, places, rfl⟩ := ofMove_temp_eq_ok.mp moves
  rw [ofExpr_of_isPlain_of_calls plain noCalls supply] at places
  obtain ⟨rfl, rfl⟩ := Prod.mk.inj (Except.ok.inj places)
  obtain ⟨place, between, value, last, before, left, right, places, values, paired, rfl⟩ :=
    ofMove_mem_eq_ok.mp stores
  obtain ⟨rfl, rfl⟩ := ofExpr_temp_eq_ok.mp places
  have valueLe := ofExpr_issued_le source values
  obtain ⟨rfl, rfl, rfl, rfl⟩ := pair_of_isFixed rfl paired
  obtain ⟨apart, isFirst, isTemp⟩ := splits
  have isDrawn := drawn _ (isTemp _ rfl)
  have moveKeeps : KeepsFlat discipline [] (· = temp.number) [.move (.temp temp) address] [] :=
    ⟨.move rfl, fun _ _ => List.forall_mem_singleton.mpr
      (.quiet (by simp [Stmt.calls, noCalls, Expr.calls]) fun _ _ same => by cases same), by simp⟩
  have valueKeeps := (keeps.flat (fun number isNumber => drawn _ (isFirst _ isNumber)) values).behind
    (List.nil_subset [.move (.temp temp) address])
  have allowed : ∀ code, [.move (.temp temp) address] ++ value.before ⊆ code →
      discipline.Allows code (.move (.mem (.temp temp)) value.value) := by
    refine fun code includes => ⟨?_, fun place source same => ?_⟩
    · have calls := valueKeeps.calls code includes _ (List.mem_singleton_self _)
      simpa [Stmt.calls, Expr.calls] using calls
    · obtain ⟨same, -⟩ := Stmt.move.inj same
      obtain rfl := Expr.mem.inj same
      exact .inl ⟨address, isCell, .inr ⟨temp, rfl, includes (by simp)⟩⟩
  have both := moveKeeps.append (valueKeeps.concat rfl allowed)
    (⟨by grind, by grind, by grind⟩ : Splits (DrawnFor kind between rest) _ _)
  simpa using both

theorem savePointer {offset : Int} (isSaved : discipline.isSaved offset) :
    KeepsStmt discipline kind
      (.move (.mem (.binop .sub .stackPointer (.const offset))) .framePointer) := by
  refine ⟨fun {supply rest flat} _ flattened => ?_⟩
  obtain ⟨same, -⟩ := Prod.mk.inj (Except.ok.inj flattened)
  obtain rfl : [_] = flat := same
  refine KeepsFlat.nil.concat rfl fun _ _ => .quiet rfl fun place source same => ?_
  obtain ⟨same, -⟩ := Stmt.move.inj same
  obtain rfl := Expr.mem.inj same
  exact .inr ⟨offset, isSaved, rfl⟩

end KeepsStmt

end Rules

end TreeBackend
