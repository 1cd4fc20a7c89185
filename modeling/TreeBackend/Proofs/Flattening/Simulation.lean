import TreeBackend.Proofs.Flattening.Operands

/-!
# What flattened code computes

A tree yields a result if its flattened form does, wherever the code stands in
the body of a function and whatever the drawn temporaries hold.  There is one rule
for each construct; a rule asks for its operands in the order in which they are
evaluated, each from where the one before it has led.
-/

namespace TreeBackend.Machine.Code

open IR Flattening

variable {code : Code} {bound : Nat} {temps : Temps} {machine : Machine}

/-- From the given temporaries and machine, the flattened form of an expression
computes a value that meets a condition. -/
def Yields (code : Code) (bound : Nat) (expression : Expr) (temps : Temps) (machine : Machine)
    (meets : Int → Temps → Machine → Prop) : Prop :=
  Below bound expression → ∀ {supply rest : TempSupply} {flat : Flattened},
    ofExpr expression supply = .ok (flat, rest) → bound ≤ supply.issued →
    ∀ {start : Temps}, AgreeBelow bound temps start →
      ∃ temps' middle value machine', code.Executes flat.before start machine temps' middle ∧
        code.Evaluates temps' flat.value middle value machine' ∧
        Spares bound expression.assigned supply rest start temps' ∧ meets value temps' machine'

/-- From the given temporaries and machine, the flattened form of a statement
leads to where a condition holds. -/
def Performs (code : Code) (bound : Nat) (statement : Stmt) (temps : Temps) (machine : Machine)
    (meets : Temps → Machine → Prop) : Prop :=
  (∀ temp ∈ statement.temps, temp.number < bound) →
    ∀ {supply rest : TempSupply} {flat : List Stmt},
      ofStmt statement supply = .ok (flat, rest) → bound ≤ supply.issued →
      ∀ {start : Temps}, AgreeBelow bound temps start →
        ∃ temps' machine', code.Executes flat start machine temps' machine' ∧
          Spares bound statement.assigned supply rest start temps' ∧ meets temps' machine'

def YieldsAll (code : Code) (bound : Nat) : List Expr → Temps → Machine →
    (List Int → Temps → Machine → Prop) → Prop
  | [], temps, machine, meets => ∀ temps', AgreeBelow bound temps temps' → meets [] temps' machine
  | operand :: rest, temps, machine, meets =>
      code.Yields bound operand temps machine fun value temps machine =>
        code.YieldsAll bound rest temps machine fun values => meets (value :: values)

def Steady : List Expr → Prop
  | [] => True
  | operand :: rest =>
      (∀ temp, operand.lastTemp? = some temp → temp ∉ Expr.assignedOfList rest) ∧ Steady rest

section Consequence

variable {expression : Expr} {statement : Stmt}

theorem Yields.mono {first second : Int → Temps → Machine → Prop}
    (yields : code.Yields bound expression temps machine first)
    (weaker : ∀ value temps machine, first value temps machine → second value temps machine) :
    code.Yields bound expression temps machine second := by
  intro below supply rest flat flattened le start agree
  obtain ⟨temps', middle, value, machine', executes, evaluates, spares, holds⟩ :=
    yields below flattened le agree
  exact ⟨temps', middle, value, machine', executes, evaluates, spares, weaker _ _ _ holds⟩

theorem Yields.congr {meets : Int → Temps → Machine → Prop} {others : Temps}
    (yields : code.Yields bound expression temps machine meets)
    (agree : AgreeBelow bound temps others) : code.Yields bound expression others machine meets :=
  fun below _ _ _ flattened le _ agree' => yields below flattened le (agree.trans agree')

theorem Performs.mono {first second : Temps → Machine → Prop}
    (performs : code.Performs bound statement temps machine first)
    (weaker : ∀ temps machine, first temps machine → second temps machine) :
    code.Performs bound statement temps machine second := by
  intro below supply rest flat flattened le start agree
  obtain ⟨temps', machine', executes, spares, holds⟩ := performs below flattened le agree
  exact ⟨temps', machine', executes, spares, weaker _ _ holds⟩

theorem Performs.congr {meets : Temps → Machine → Prop} {others : Temps}
    (performs : code.Performs bound statement temps machine meets)
    (agree : AgreeBelow bound temps others) : code.Performs bound statement others machine meets :=
  fun below _ _ _ flattened le _ agree' => performs below flattened le (agree.trans agree')

theorem YieldsAll.mono {expressions : List Expr} {first second : List Int → Temps → Machine → Prop}
    (yields : code.YieldsAll bound expressions temps machine first)
    (weaker : ∀ values temps machine, first values temps machine → second values temps machine) :
    code.YieldsAll bound expressions temps machine second := by
  induction expressions generalizing temps machine first second with
  | nil => exact fun temps' agree => weaker _ _ _ (yields temps' agree)
  | cons expression rest ih =>
      exact Yields.mono yields fun value _ _ yields =>
        ih yields fun values => weaker (value :: values)

theorem YieldsAll.congr {expressions : List Expr} {meets : List Int → Temps → Machine → Prop}
    {others : Temps} (yields : code.YieldsAll bound expressions temps machine meets)
    (agree : AgreeBelow bound temps others) :
    code.YieldsAll bound expressions others machine meets := by
  cases expressions with
  | nil => exact fun temps' agree' => yields temps' (agree.trans agree')
  | cons expression rest => exact Yields.congr yields agree

end Consequence

/-! ### Operands -/

section Append

variable {operand : Expr} {done next : FlattenedOperands} {flat : Flattened}
  {supply middle last : TempSupply} {start temps₁ : Temps} {machine₁ machine₂ : Machine}
  {values : List Int} {meets : Int → Temps → Machine → Prop}

/-- One more operand leaves the values of those to its left as they are, and
follows them with its own. -/
theorem append_executes (flattened : ofExpr operand supply = .ok (flat, middle))
    (appended : append done flat middle = .ok (next, last)) (boundLe : bound ≤ supply.issued)
    (below : Below bound operand) (doneBelow : ∀ value ∈ done.values, Below supply.issued value)
    (steady : ∀ temp, .temp temp ∈ done.values → temp.number < bound → temp ∉ operand.assigned)
    (executes : code.Executes done.before start machine temps₁ machine₁)
    (evaluates : code.EvaluatesAll temps₁ done.values machine₁ values machine₂)
    (yields : code.Yields bound operand temps₁ machine₂ meets) :
    ∃ temps' machine₃ value machine₄, code.Executes next.before start machine temps' machine₃ ∧
      code.EvaluatesAll temps' next.values machine₃ (values ++ [value]) machine₄ ∧
      Spares bound operand.assigned supply last temps₁ temps' ∧ meets value temps' machine₄ := by
  have flatLe := ofExpr_issued_le operand flattened
  by_cases quiet : flat.before = []
  · obtain ⟨rfl, rfl⟩ := append_of_nil quiet appended
    obtain ⟨temps', machine₃, value, machine₄, operandExecutes, operandEvaluates, spares, holds⟩ :=
      yields below flattened boundLe (.refl bound temps₁)
    obtain ⟨rfl, rfl⟩ := operandExecutes.idle quiet
    exact ⟨temps', machine₁, value, machine₄, executes,
      evaluates.append (.cons operandEvaluates .nil), spares, holds⟩
  · obtain ⟨kept, keeps, rfl⟩ := append_of_ne_nil quiet appended
    have lastLe := (keepAll_issued keeps).1
    obtain ⟨temps₂, keptExecutes, untouched, again⟩ := keepAll_executes keeps
      (fun value member => (doneBelow value member).mono flatLe) evaluates
    have agree : AgreeBelow bound temps₁ temps₂ := fun temp isBelow =>
      untouched temp (.inl (Nat.lt_of_lt_of_le isBelow (boundLe.trans flatLe)))
    obtain ⟨temps', machine₃, value, machine₄, operandExecutes, operandEvaluates, spares, holds⟩ :=
      yields below flattened boundLe agree
    refine ⟨temps', machine₃, value, machine₄,
      (executes.append keptExecutes).append operandExecutes,
      (again operandExecutes.labels fun temp held => spares temp ?_).append
        (.cons operandEvaluates .nil), fun temp spared => ?_, holds⟩
    · rcases held with member | ⟨drawn, -⟩
      · by_cases isBelow : temp.number < bound
        · exact .inl ⟨isBelow, steady temp member isBelow⟩
        · exact .inr ⟨by omega, .inl (doneBelow _ member temp (by simp [Expr.temps]))⟩
      · exact .inr ⟨(boundLe.trans flatLe).trans drawn, .inr drawn⟩
    · rw [spares temp (spared.weaken (fun _ => id) (Nat.le_refl _) lastLe)]
      apply untouched
      rcases spared with ⟨isBelow, -⟩ | ⟨-, outside⟩
      · exact .inl (Nat.lt_of_lt_of_le isBelow (boundLe.trans flatLe))
      · exact outside.imp (fun isBelow => Nat.lt_of_lt_of_le isBelow flatLe) id

end Append

/-- Operands that follow flattened ones yield their values behind those of them. -/
theorem ofOperands_executes : (operands : List Expr) → {done result : FlattenedOperands} →
    {supply rest : TempSupply} → {start temps₁ : Temps} → {machine₁ machine₂ : Machine} →
    {values : List Int} → {meets : List Int → Temps → Machine → Prop} →
    ofOperands done operands supply = .ok (result, rest) → bound ≤ supply.issued →
    (∀ temp ∈ Expr.tempsOfList operands, temp.number < bound) → Steady operands →
    (∀ value ∈ done.values, Below supply.issued value) →
    (∀ temp, .temp temp ∈ done.values → temp.number < bound →
      temp ∉ Expr.assignedOfList operands) →
    code.Executes done.before start machine temps₁ machine₁ →
    code.EvaluatesAll temps₁ done.values machine₁ values machine₂ →
    code.YieldsAll bound operands temps₁ machine₂ meets →
    ∃ temps' machine₃ others machine₄,
      code.Executes result.before start machine temps' machine₃ ∧
      code.EvaluatesAll temps' result.values machine₃ (values ++ others) machine₄ ∧
      Spares bound (Expr.assignedOfList operands) supply rest temps₁ temps' ∧
      meets others temps' machine₄
  | [], _, _, _, _, _, _, _, _, _, _, flattened, _, _, _, _, _, executes, evaluates, holds => by
      obtain ⟨rfl, rfl⟩ := ofOperands_nil_eq_ok.mp flattened
      exact ⟨_, _, [], _, executes, by simpa using evaluates, .refl _, holds _ (.refl _ _)⟩
  | operand :: others, _, _, _, _, _, _, _, _, _, _, flattened, boundLe, below, steady, doneBelow,
      doneSteady, executes, evaluates, yields => by
      obtain ⟨flat, _, next, _, first, appended, last⟩ := ofOperands_cons_eq_ok.mp flattened
      have firstLe := ofExpr_issued_le operand first
      have operandBelow : Below bound operand := fun temp member =>
        below temp (List.mem_append_left _ member)
      obtain ⟨appendLe, nextBelow⟩ := append_issued appended
      obtain ⟨temps₂, _, value, _, nextExecutes, nextEvaluates, spares, restYields⟩ :=
        append_executes first appended boundLe operandBelow doneBelow
          (fun temp member isBelow inside =>
            doneSteady temp member isBelow (List.mem_append_left _ inside))
          executes evaluates yields
      have nextSteady : ∀ temp, .temp temp ∈ next.values → temp.number < bound →
          temp ∉ Expr.assignedOfList others := by
        intro temp member isBelow inside
        rcases mem_append_values appended member with member | drawn | same
        · exact doneSteady temp member isBelow (List.mem_append_right _ inside)
        · omega
        · exact steady.1 temp ((ofExpr_value_eq_temp_iff first).mp same) inside
      obtain ⟨temps', machine₃, results, machine₄, restExecutes, restEvaluates, restSpares, holds⟩ :=
        ofOperands_executes others last ((boundLe.trans firstLe).trans appendLe)
          (fun temp member => below temp (List.mem_append_right _ member)) steady.2
          (nextBelow (fun value member => (doneBelow value member).mono firstLe)
            (ofExpr_value_below operand first (operandBelow.mono boundLe)))
          nextSteady nextExecutes nextEvaluates restYields
      refine ⟨temps', machine₃, value :: results, machine₄, restExecutes, ?_, ?_, holds⟩
      · simpa using restEvaluates
      · exact spares.trans restSpares (firstLe.trans appendLe) (ofOperands_issued_le others last)

/-! ### Rules for expressions -/

section Expressions

variable {meets : Int → Temps → Machine → Prop}

theorem yields_const {value : Int} (holds : ∀ temps', AgreeBelow bound temps temps' →
    meets value temps' machine) : code.Yields bound (.const value) temps machine meets := by
  intro _ supply rest flat flattened _ start agree
  obtain ⟨rfl, -⟩ := ofExpr_const_eq_ok.mp flattened
  exact ⟨start, machine, value, machine, .nil, .const value, .refl start, holds start agree⟩

theorem yields_name {label : Label} {address : Int}
    (known : machine.memory.address? label = some address)
    (holds : ∀ temps', AgreeBelow bound temps temps' → meets address temps' machine) :
    code.Yields bound (.name label) temps machine meets := by
  intro _ supply rest flat flattened _ start agree
  obtain ⟨rfl, -⟩ := ofExpr_name_eq_ok.mp flattened
  exact ⟨start, machine, address, machine, .nil, .name known, .refl start, holds start agree⟩

theorem yields_temp {temp : Temp} {value : Int} (assigned : temps.get? temp = some value)
    (holds : ∀ temps', AgreeBelow bound temps temps' → meets value temps' machine) :
    code.Yields bound (.temp temp) temps machine meets := by
  intro below supply rest flat flattened _ start agree
  obtain ⟨rfl, -⟩ := ofExpr_temp_eq_ok.mp flattened
  have held := (agree temp (below temp (by simp [Expr.temps]))).trans assigned
  exact ⟨start, machine, value, machine, .nil, .temp held, .refl start, holds start agree⟩

theorem yields_mem {address : Expr}
    (yields : code.Yields bound address temps machine fun place temps machine =>
      ∃ value, machine.memory.loadInt place = .ok value ∧ meets value temps machine) :
    code.Yields bound (.mem address) temps machine meets := by
  intro below supply rest flat flattened le start agree
  obtain ⟨place, flattens, rfl⟩ := ofExpr_mem_eq_ok.mp flattened
  obtain ⟨temps', middle, _, machine', executes, evaluates, spares, value, found, holds⟩ :=
    yields below flattens le agree
  exact ⟨temps', middle, value, machine', executes, evaluates.mem found, spares, holds⟩

/-- Two operands side by side: the flattened form of both, as one list. -/
theorem pair_executes {left right : Expr} {first second : Flattened} {before : List Stmt}
    {leftValue rightValue : Expr} {supply middle last rest : TempSupply} {start : Temps}
    (leftBelow : Below bound left) (rightBelow : Below bound right)
    (steady : ∀ temp, left.lastTemp? = some temp → temp ∉ right.assigned)
    (leftFlattens : ofExpr left supply = .ok (first, middle))
    (rightFlattens : ofExpr right middle = .ok (second, last))
    (paired : pair first second last = .ok ((before, leftValue, rightValue), rest))
    (le : bound ≤ supply.issued) (agree : AgreeBelow bound temps start)
    {meets : Int → Int → Temps → Machine → Prop}
    (yields : code.Yields bound left temps machine fun a temps machine =>
      code.Yields bound right temps machine fun b => meets a b) :
    ∃ temps' machine₁ a machine₂ b machine₃,
      code.Executes before start machine temps' machine₁ ∧
      code.Evaluates temps' leftValue machine₁ a machine₂ ∧
      code.Evaluates temps' rightValue machine₂ b machine₃ ∧
      Spares bound (left.assigned ++ right.assigned) supply rest start temps' ∧
      meets a b temps' machine₃ := by
  have leftLe := ofExpr_issued_le left leftFlattens
  have rightLe := ofExpr_issued_le right rightFlattens
  obtain ⟨temps₁, machine₁, a, machine₂, executes, evaluates, spares, rightYields⟩ :=
    yields leftBelow leftFlattens le agree
  have firstBelow := ofExpr_value_below left leftFlattens (leftBelow.mono le)
  obtain ⟨temps', machine₃, b, machine₄, pairExecutes, pairEvaluates, pairSpares, holds⟩ :=
    append_executes rightFlattens (pair_eq_ok.mp paired) (le.trans leftLe) rightBelow
      (by simpa using firstBelow)
      (fun temp member _ => steady temp
        ((ofExpr_value_eq_temp_iff leftFlattens).mp (List.mem_singleton.mp member).symm))
      executes (.cons evaluates .nil) rightYields
  cases pairEvaluates with
  | cons leftEvaluates rightEvaluates =>
      cases rightEvaluates with
      | cons rightEvaluates nothing =>
          cases nothing
          exact ⟨temps', machine₃, a, _, b, machine₄, pairExecutes, leftEvaluates,
            rightEvaluates, spares.trans pairSpares leftLe (rightLe.trans (pair_issued_le paired)),
            holds⟩

theorem yields_binop {operator : Operator} {left right : Expr}
    (steady : ∀ temp, left.lastTemp? = some temp → temp ∉ right.assigned)
    (yields : code.Yields bound left temps machine fun a temps machine =>
      code.Yields bound right temps machine fun b temps machine =>
        ∃ value, operator.apply a b = some value ∧ meets value temps machine) :
    code.Yields bound (.binop operator left right) temps machine meets := by
  intro below supply rest flat flattened le start agree
  obtain ⟨first, _, second, _, before, leftValue, rightValue, leftFlattens, rightFlattens,
    paired, rfl⟩ := ofExpr_binop_eq_ok.mp flattened
  obtain ⟨temps', machine₁, a, machine₂, b, machine₃, executes, leftEvaluates, rightEvaluates,
    spares, value, applied, holds⟩ :=
    pair_executes (fun temp member => below temp (List.mem_append_left _ member))
      (fun temp member => below temp (List.mem_append_right _ member)) steady leftFlattens
      rightFlattens paired le agree yields
  exact ⟨temps', machine₁, value, machine₃, executes,
    leftEvaluates.binop rightEvaluates applied, spares, holds⟩

theorem yields_call {label : Label} {arguments : List Expr} (steady : Steady arguments)
    (yields : code.YieldsAll bound arguments temps machine fun values temps machine =>
      ∃ value machine',
        (∀ᶠ fuel in Filter.atTop, code.calls fuel label values machine = .ok value machine') ∧
        SameLabels machine machine' ∧ meets value temps machine') :
    code.Yields bound (.call label arguments) temps machine meets := by
  intro below supply rest flat flattened le start agree
  obtain ⟨operands, flattens, rfl⟩ := ofExpr_call_eq_ok.mp flattened
  obtain ⟨temps', middle, values, machine₁, executes, evaluates, spares, value, machine', returns,
    labels, holds⟩ :=
    ofOperands_executes arguments flattens le below steady (by simp) (by simp) .nil .nil
      (yields.congr agree)
  exact ⟨temps', middle, value, machine', executes, .call evaluates returns labels, spares, holds⟩

theorem yields_eseq {effect : Stmt} {value : Expr}
    (performs : code.Performs bound effect temps machine fun temps machine =>
      code.Yields bound value temps machine meets) :
    code.Yields bound (.eseq effect value) temps machine meets := by
  intro below supply rest flat flattened le start agree
  obtain ⟨first, middle, last, effectFlattens, valueFlattens, rfl⟩ :=
    ofExpr_eseq_eq_ok.mp flattened
  have effectLe := ofStmt_issued_le effect effectFlattens
  obtain ⟨temps₁, machine₁, effectExecutes, effectSpares, yields⟩ :=
    performs (fun temp member => below temp (List.mem_append_left _ member)) effectFlattens le agree
  obtain ⟨temps', machine₂, result, machine₃, executes, evaluates, spares, holds⟩ :=
    yields (fun temp member => below temp (List.mem_append_right _ member)) valueFlattens
      (le.trans effectLe) (.refl bound temps₁)
  exact ⟨temps', machine₂, result, machine₃, effectExecutes.append executes, evaluates,
    effectSpares.trans spares effectLe (ofExpr_issued_le value valueFlattens), holds⟩

end Expressions

/-! ### Rules for statements -/

/-- Statements lead from each to the next. -/
def PerformsAll (code : Code) (bound : Nat) : List Stmt → Temps → Machine →
    (Temps → Machine → Prop) → Prop
  | [], temps, machine, meets => ∀ temps', AgreeBelow bound temps temps' → meets temps' machine
  | statement :: rest, temps, machine, meets =>
      code.Performs bound statement temps machine fun temps machine =>
        code.PerformsAll bound rest temps machine meets

section Statements

variable {meets : Temps → Machine → Prop}

theorem PerformsAll.congr {statements : List Stmt} {others : Temps}
    (performs : code.PerformsAll bound statements temps machine meets)
    (agree : AgreeBelow bound temps others) :
    code.PerformsAll bound statements others machine meets := by
  cases statements with
  | nil => exact fun temps' agree' => performs temps' (agree.trans agree')
  | cons statement rest => exact Performs.congr performs agree

theorem performs_label {label : Label}
    (holds : ∀ temps', AgreeBelow bound temps temps' → meets temps' machine) :
    code.Performs bound (.label label) temps machine meets := by
  intro _ supply rest flat flattened _ start agree
  obtain ⟨rfl, -⟩ := ofStmt_label_eq_ok.mp flattened
  exact ⟨start, machine, .label label, .refl start, holds start agree⟩

theorem performs_seq : {items : List Stmt} → {temps : Temps} → {machine : Machine} →
    code.PerformsAll bound items temps machine meets →
    code.Performs bound (.seq items) temps machine meets
  | [], _, _, holds => by
      intro _ supply rest flat flattened _ start agree
      rw [ofStmt_seq] at flattened
      obtain ⟨rfl, -⟩ := ofStmts_nil_eq_ok.mp flattened
      exact ⟨start, _, .nil, .refl start, holds start agree⟩
  | statement :: others, _, _, performs => by
      intro below supply rest flat flattened le start agree
      rw [ofStmt_seq] at flattened
      obtain ⟨first, middle, last, firstFlattens, othersFlatten, rfl⟩ :=
        ofStmts_cons_eq_ok.mp flattened
      have firstLe := ofStmt_issued_le statement firstFlattens
      obtain ⟨temps₁, machine₁, firstExecutes, firstSpares, othersPerform⟩ :=
        performs (fun temp member => below temp (List.mem_append_left _ member)) firstFlattens le
          agree
      obtain ⟨temps', machine', executes, spares, holds⟩ :=
        performs_seq othersPerform (fun temp member => below temp (List.mem_append_right _ member))
          (by rwa [ofStmt_seq]) (le.trans firstLe) (.refl bound temps₁)
      exact ⟨temps', machine', firstExecutes.append executes,
        firstSpares.trans spares firstLe (ofStmts_issued_le others othersFlatten), holds⟩

/-- What may be left out as a statement has no effect. -/
theorem Evaluates.of_isDiscardable {expression : Expr} {value : Int} {machine' : Machine}
    (discardable : isDiscardable expression = true)
    (evaluates : code.Evaluates temps expression machine value machine') : machine' = machine := by
  obtain ⟨fuel, result⟩ := evaluates.result.exists
  cases expression with
  | mem address =>
      cases address with
      | temp held =>
          obtain ⟨place, read, -⟩ := eval_mem_eq_ok.mp result
          rw [eval_temp] at read
          exact (readTemp_eq_ok.mp read).2
      | _ => simp [isDiscardable, Expr.isFixed] at discardable
  | const _ | name _ | temp _ => exact (evaluates.later rfl).1
  | binop _ _ _ | call _ _ | eseq _ _ => simp [isDiscardable, Expr.isFixed] at discardable

theorem performs_exp {value : Expr}
    (yields : code.Yields bound value temps machine fun _ => meets) :
    code.Performs bound (.exp value) temps machine meets := by
  intro below supply rest flat flattened le start agree
  obtain ⟨last, flattens, rfl⟩ := ofStmt_exp_eq_ok.mp flattened
  obtain ⟨temps', middle, result, machine', executes, evaluates, spares, holds⟩ :=
    yields below flattens le agree
  refine ⟨temps', machine', ?_, spares, holds⟩
  by_cases discardable : isDiscardable last.value = true
  · rw [if_pos discardable]
    obtain rfl := evaluates.of_isDiscardable discardable
    exact executes
  · rw [if_neg discardable]
    exact executes.append (.exp evaluates)

theorem performs_move_temp {temp : Temp} {source : Expr}
    (yields : code.Yields bound source temps machine fun value temps machine =>
      meets (temps.insert temp value) machine) :
    code.Performs bound (.move (.temp temp) source) temps machine meets := by
  intro below supply rest flat flattened le start agree
  rw [ofStmt_move] at flattened
  obtain ⟨value, flattens, rfl⟩ := ofMove_temp_eq_ok.mp flattened
  obtain ⟨temps', middle, result, machine', executes, evaluates, spares, holds⟩ :=
    yields (fun other member => below other (List.mem_append_right _ member)) flattens le agree
  have tempBelow : temp.number < bound := below temp (by simp [Stmt.temps, Expr.temps])
  refine ⟨temps'.insert temp result, machine', executes.append (.moveTemp temp evaluates), ?_,
    holds⟩
  intro other untouched
  have stored : Spares bound [temp] supply rest temps' (temps'.insert temp result) :=
    .insert (by simp) tempBelow
  rw [stored other (untouched.weaken (by simp [Stmt.assigned, Expr.assignedAsTarget])
    (Nat.le_refl _) (Nat.le_refl _))]
  exact spares other (untouched.weaken (by simp +contextual [Stmt.assigned]) (Nat.le_refl _)
    (Nat.le_refl _))

theorem performs_move_mem {address source : Expr}
    (steady : ∀ temp, address.lastTemp? = some temp → temp ∉ source.assigned)
    (yields : code.Yields bound address temps machine fun place temps machine =>
      code.Yields bound source temps machine fun value temps machine =>
        machine.memory.isAddress place = true ∧
          meets temps (machine.writeWord place (.int value))) :
    code.Performs bound (.move (.mem address) source) temps machine meets := by
  intro below supply rest flat flattened le start agree
  rw [ofStmt_move] at flattened
  obtain ⟨place, _, value, _, before, left, right, placeFlattens, valueFlattens, paired, rfl⟩ :=
    ofMove_mem_eq_ok.mp flattened
  have addressBelow : Below bound address := fun temp member =>
    below temp (List.mem_append_left _ member)
  obtain ⟨temps', machine₁, a, machine₂, b, machine₃, executes, leftEvaluates, rightEvaluates,
    spares, valid, holds⟩ :=
    pair_executes addressBelow
      (fun temp member => below temp (List.mem_append_right _ member)) steady placeFlattens
      valueFlattens paired le agree yields
  exact ⟨temps', _, executes.append (.moveMem leftEvaluates rightEvaluates valid), spares, holds⟩

theorem performs_move_eseq {effect : Stmt} {value source : Expr}
    (performs : code.Performs bound effect temps machine fun temps machine =>
      code.Performs bound (.move value source) temps machine meets) :
    code.Performs bound (.move (.eseq effect value) source) temps machine meets := by
  intro below supply rest flat flattened le start agree
  rw [ofStmt_move] at flattened
  obtain ⟨first, middle, last, effectFlattens, moveFlattens, rfl⟩ :=
    ofMove_eseq_eq_ok.mp flattened
  have moveFlattens : ofStmt (.move value source) middle = .ok (last, rest) := by
    rwa [ofStmt_move]
  have effectLe := ofStmt_issued_le effect effectFlattens
  obtain ⟨temps₁, machine₁, effectExecutes, effectSpares, movePerforms⟩ :=
    performs (fun temp member => below temp (by simp [Stmt.temps, Expr.temps, member]))
      effectFlattens le agree
  obtain ⟨temps', machine', executes, spares, holds⟩ :=
    movePerforms (fun temp member => below temp (by
      simp only [Stmt.temps, Expr.temps, List.mem_append] at member ⊢
      exact member.imp .inr id)) moveFlattens (le.trans effectLe) (.refl bound temps₁)
  have both := effectSpares.trans spares effectLe (ofStmt_issued_le _ moveFlattens)
  refine ⟨temps', machine', effectExecutes.append executes, ?_, holds⟩
  simpa [Stmt.assigned, Expr.assignedAsTarget] using both

end Statements

end TreeBackend.Machine.Code
