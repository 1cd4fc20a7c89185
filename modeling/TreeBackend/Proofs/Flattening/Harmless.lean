import TreeBackend.Proofs.Flattening.Control
import TreeBackend.Proofs.Machine.Leads

/-!
# Trees whose flat code is harmless

A tree is harmless if its flattened form, wherever it stands, reads no temporary
that may lack a value and knows all its labels.  There is one rule for each
construct.  An operand that is computed before later ones stays readable, for no
code takes a value away from a temporary.
-/

namespace TreeBackend.Machine

open IR Flattening
open Lowering (Labels)

/-- The flattened form of an expression can be run and then evaluated wherever the
given temporaries have values. -/
def SafeExpr (offer : Offer) (needs : Set Temp) (expression : Expr) : Prop :=
  ∀ (statements : Array Stmt) (jumps : Table Label Nat) {supply rest : TempSupply}
    {flat : Flattened}, ofExpr expression supply = .ok (flat, rest) →
    ∀ before : Set Temp, needs ⊆ before →
      ∃ after, before ⊆ after ∧ (Code.ofBody statements jumps).Leads offer before flat.before after ∧
        Code.Evaluable offer after flat.value

/-- The flattened form of a statement can be run wherever the given temporaries have
values, and gives values to some more. -/
def SafeStmt (offer : Offer) (needs : Set Temp) (statement : Stmt) (gives : Set Temp) : Prop :=
  ∀ (statements : Array Stmt) (jumps : Table Label Nat) {supply rest : TempSupply}
    {flat : List Stmt}, ofStmt statement supply = .ok (flat, rest) →
    ∀ before : Set Temp, needs ⊆ before →
      (Code.ofBody statements jumps).Leads offer before flat (before ∪ gives)

variable {offer : Offer} {needs gives : Set Temp}

/-! ### Operands -/

section Operands

open Code

variable {statements : Array Stmt} {jumps : Table Label Nat} {before between : Set Temp}
  {supply rest : TempSupply}

/-- Values that are kept can be had again. -/
theorem keepAll_leads {values : List Expr} {kept : FlattenedOperands}
    (keeps : keepAll values supply = .ok (kept, rest))
    (evaluable : ∀ value ∈ values, Evaluable offer before value) :
    ∃ after, before ⊆ after ∧ (Code.ofBody statements jumps).Leads offer before kept.before after ∧
      ∀ value ∈ kept.values, Evaluable offer after value := by
  induction values generalizing supply kept before with
  | nil =>
      obtain ⟨rfl, rfl⟩ := keepAll_nil_eq_ok.mp keeps
      exact ⟨before, subset_rfl, .nil subset_rfl, by simp⟩
  | cons value values ih =>
      obtain ⟨head, middle, tail, headKeeps, tailKeeps, rfl⟩ := keepAll_cons_eq_ok.mp keeps
      have first := evaluable value (by simp)
      by_cases fixed : value.isFixed = true
      · obtain ⟨rfl, rfl⟩ := keep_of_isFixed fixed headKeeps
        obtain ⟨after, includes, leads, others⟩ :=
          ih tailKeeps fun other member => evaluable other (by simp [member])
        refine ⟨after, includes, leads, ?_⟩
        rw [List.forall_mem_cons]
        exact ⟨first.mono includes, others⟩
      · obtain ⟨rfl, rfl⟩ := keep_of_not_isFixed fixed headKeeps
        obtain ⟨after, includes, leads, others⟩ := @ih (before ∪ {supply.next}) _ _ tailKeeps
          fun other member => (evaluable other (by simp [member])).mono Set.subset_union_left
        refine ⟨after, Set.subset_union_left.trans includes,
          (Leads.moveTemp supply.next first).append leads, ?_⟩
        rw [List.forall_mem_cons]
        exact ⟨.temp (includes (Set.mem_union_right _ rfl)), others⟩

/-- One more operand behind others. -/
theorem append_leads {operands result : FlattenedOperands} {operand : Expr} {flat : Flattened}
    {middle : TempSupply} (safe : SafeExpr offer needs operand)
    (flattened : ofExpr operand supply = .ok (flat, middle))
    (appended : append operands flat middle = .ok (result, rest)) (includes : needs ⊆ between)
    (leads : (Code.ofBody statements jumps).Leads offer before operands.before between)
    (evaluable : ∀ value ∈ operands.values, Evaluable offer between value) :
    ∃ after, between ⊆ after ∧ (Code.ofBody statements jumps).Leads offer before result.before after ∧
      ∀ value ∈ result.values, Evaluable offer after value := by
  by_cases quiet : flat.before = []
  · obtain ⟨rfl, rfl⟩ := append_of_nil quiet appended
    obtain ⟨after, more, last, value⟩ := safe statements jumps flattened between includes
    rw [quiet] at last
    have both := leads.append last
    rw [List.append_nil] at both
    refine ⟨after, more, both, ?_⟩
    rw [List.forall_mem_append, List.forall_mem_singleton]
    exact ⟨fun other member => (evaluable other member).mono more, value⟩
  · obtain ⟨kept, keeps, rfl⟩ := append_of_ne_nil quiet appended
    obtain ⟨held, more, keeping, others⟩ := keepAll_leads keeps evaluable
    obtain ⟨after, evenMore, last, value⟩ := safe statements jumps flattened held (includes.trans more)
    refine ⟨after, more.trans evenMore, (leads.append keeping).append last, ?_⟩
    rw [List.forall_mem_append, List.forall_mem_singleton]
    exact ⟨fun other member => (others other member).mono evenMore, value⟩

theorem ofOperands_leads {operands : List Expr} {done result : FlattenedOperands}
    (safe : ∀ operand ∈ operands, SafeExpr offer needs operand)
    (flattened : ofOperands done operands supply = .ok (result, rest)) (includes : needs ⊆ between)
    (leads : (Code.ofBody statements jumps).Leads offer before done.before between)
    (evaluable : ∀ value ∈ done.values, Evaluable offer between value) :
    ∃ after, between ⊆ after ∧ (Code.ofBody statements jumps).Leads offer before result.before after ∧
      ∀ value ∈ result.values, Evaluable offer after value := by
  induction operands generalizing done supply between with
  | nil =>
      obtain ⟨rfl, rfl⟩ := ofOperands_nil_eq_ok.mp flattened
      exact ⟨between, subset_rfl, leads, evaluable⟩
  | cons operand others ih =>
      obtain ⟨flat, middle, next, last, first, appended, rest⟩ :=
        ofOperands_cons_eq_ok.mp flattened
      obtain ⟨held, more, leads, evaluable⟩ :=
        append_leads (safe operand (by simp)) first appended includes leads evaluable
      obtain ⟨after, evenMore, leads, evaluable⟩ :=
        ih (fun other member => safe other (by simp [member])) rest (includes.trans more) leads
          evaluable
      exact ⟨after, more.trans evenMore, leads, evaluable⟩

/-- Two operands side by side. -/
theorem pair_leads {left right : Expr} {first second : Flattened} {front : List Stmt}
    {leftValue rightValue : Expr} {middle last : TempSupply}
    (leftSafe : SafeExpr offer needs left) (rightSafe : SafeExpr offer needs right)
    (leftFlat : ofExpr left supply = .ok (first, middle))
    (rightFlat : ofExpr right middle = .ok (second, last))
    (paired : pair first second last = .ok ((front, leftValue, rightValue), rest))
    (includes : needs ⊆ before) :
    ∃ after, before ⊆ after ∧ (Code.ofBody statements jumps).Leads offer before front after ∧
      Evaluable offer after leftValue ∧ Evaluable offer after rightValue := by
  obtain ⟨held, more, leads, value⟩ := leftSafe statements jumps leftFlat before includes
  obtain ⟨after, evenMore, leads, values⟩ := append_leads rightSafe rightFlat
    (pair_eq_ok.mp paired) (includes.trans more) leads (by simpa using value)
  rw [List.forall_mem_cons, List.forall_mem_singleton] at values
  exact ⟨after, more.trans evenMore, leads, values.1, values.2⟩

end Operands

/-! ### Expressions -/

namespace SafeExpr

theorem const (value : Int) : SafeExpr offer needs (.const value) := by
  intro statements jumps supply rest flat flattened before _
  obtain ⟨rfl, -⟩ := ofExpr_const_eq_ok.mp flattened
  exact ⟨before, subset_rfl, .nil subset_rfl, .const value⟩

theorem name {label : Label} (known : label ∈ offer.known) :
    SafeExpr offer needs (.name label) := by
  intro statements jumps supply rest flat flattened before _
  obtain ⟨rfl, -⟩ := ofExpr_name_eq_ok.mp flattened
  exact ⟨before, subset_rfl, .nil subset_rfl, .name known⟩

theorem temp {temp : Temp} (member : temp ∈ needs) : SafeExpr offer needs (.temp temp) := by
  intro statements jumps supply rest flat flattened before includes
  obtain ⟨rfl, -⟩ := ofExpr_temp_eq_ok.mp flattened
  exact ⟨before, subset_rfl, .nil subset_rfl, .temp (includes member)⟩

theorem mem {address : Expr} (safe : SafeExpr offer needs address) :
    SafeExpr offer needs (.mem address) := by
  intro statements jumps supply rest flat flattened before includes
  obtain ⟨place, flattens, rfl⟩ := ofExpr_mem_eq_ok.mp flattened
  obtain ⟨after, more, leads, evaluable⟩ := safe statements jumps flattens before includes
  exact ⟨after, more, leads, evaluable.mem⟩

theorem of_mem {address : Expr} (safe : SafeExpr offer needs (.mem address)) :
    SafeExpr offer needs address := by
  intro statements jumps supply rest flat flattened before includes
  obtain ⟨after, more, leads, evaluable⟩ := safe statements jumps
    (ofExpr_mem_eq_ok.mpr ⟨flat, flattened, rfl⟩) before includes
  exact ⟨after, more, leads, evaluable.of_mem⟩

theorem binop {operator : Operator} {left right : Expr} (leftSafe : SafeExpr offer needs left)
    (rightSafe : SafeExpr offer needs right) :
    SafeExpr offer needs (.binop operator left right) := by
  intro statements jumps supply rest flat flattened before includes
  obtain ⟨first, _, second, _, front, leftValue, rightValue, leftFlat, rightFlat, paired, rfl⟩ :=
    ofExpr_binop_eq_ok.mp flattened
  obtain ⟨after, more, leads, left, right⟩ :=
    pair_leads leftSafe rightSafe leftFlat rightFlat paired includes
  exact ⟨after, more, leads, left.binop right⟩

theorem call {label : Label} {arguments : List Expr}
    (safe : ∀ argument ∈ arguments, SafeExpr offer needs argument) :
    SafeExpr offer needs (.call label arguments) := by
  intro statements jumps supply rest flat flattened before includes
  obtain ⟨operands, flattens, rfl⟩ := ofExpr_call_eq_ok.mp flattened
  obtain ⟨after, more, leads, evaluable⟩ :=
    ofOperands_leads safe flattens includes (.nil subset_rfl) (by simp)
  exact ⟨after, more, leads, .call evaluable⟩

theorem eseq {effect : Stmt} {value : Expr} (first : SafeStmt offer needs effect gives)
    (second : SafeExpr offer (needs ∪ gives) value) :
    SafeExpr offer needs (.eseq effect value) := by
  intro statements jumps supply rest flat flattened before includes
  obtain ⟨front, middle, last, effectFlat, valueFlat, rfl⟩ := ofExpr_eseq_eq_ok.mp flattened
  obtain ⟨after, more, leads, evaluable⟩ := second statements jumps valueFlat (before ∪ gives)
    (Set.union_subset_union_left gives includes)
  exact ⟨after, Set.subset_union_left.trans more,
    (first statements jumps effectFlat before includes).append leads, evaluable⟩

theorem mono {more : Set Temp} {expression : Expr} (safe : SafeExpr offer needs expression)
    (includes : needs ⊆ more) : SafeExpr offer more expression :=
  fun statements jumps _ _ _ flattened before includes' =>
    safe statements jumps flattened before (includes.trans includes')

end SafeExpr

/-! ### Statements -/

namespace SafeStmt

variable {value condition : Expr}

theorem mono {more : Set Temp} {statement : Stmt} (safe : SafeStmt offer needs statement gives)
    (includes : needs ⊆ more) : SafeStmt offer more statement gives :=
  fun statements jumps _ _ _ flattened before includes' =>
    safe statements jumps flattened before (includes.trans includes')

theorem nil : SafeStmt offer needs (.seq []) ∅ := by
  intro statements jumps supply rest flat flattened before _
  rw [ofStmt_seq] at flattened
  obtain ⟨rfl, -⟩ := ofStmts_nil_eq_ok.mp flattened
  exact .nil (Set.union_empty before).subset

theorem cons {statement : Stmt} {others : List Stmt} {more : Set Temp}
    (first : SafeStmt offer needs statement gives)
    (rest : SafeStmt offer (needs ∪ gives) (.seq others) more) :
    SafeStmt offer needs (.seq (statement :: others)) (gives ∪ more) := by
  intro statements jumps supply last flat flattened before includes
  rw [ofStmt_seq] at flattened
  obtain ⟨front, middle, back, frontFlat, backFlat, rfl⟩ := ofStmts_cons_eq_ok.mp flattened
  have leads := (first statements jumps frontFlat before includes).append
    (rest statements jumps (by rwa [ofStmt_seq]) (before ∪ gives)
      (Set.union_subset_union_left gives includes))
  rwa [Set.union_assoc] at leads

/-- Statements that give values to no temporaries on purpose. -/
theorem seq {items : List Stmt} (safe : ∀ item ∈ items, SafeStmt offer needs item ∅) :
    SafeStmt offer needs (.seq items) ∅ := by
  induction items with
  | nil => exact .nil
  | cons item rest ih =>
      have others := ih fun other member => safe other (by simp [member])
      have both := (safe item (by simp)).cons (others.mono Set.subset_union_left)
      rwa [Set.union_empty] at both

theorem exp (safe : SafeExpr offer needs value) : SafeStmt offer needs (.exp value) ∅ := by
  intro statements jumps supply rest flat flattened before includes
  obtain ⟨last, flattens, rfl⟩ := ofStmt_exp_eq_ok.mp flattened
  obtain ⟨after, more, leads, evaluable⟩ := safe statements jumps flattens before includes
  rw [Set.union_empty]
  split
  · exact leads.weaken more
  · exact (leads.append (.exp evaluable)).weaken more

theorem moveTemp (temp : Temp) (safe : SafeExpr offer needs value) :
    SafeStmt offer needs (.move (.temp temp) value) {temp} := by
  intro statements jumps supply rest flat flattened before includes
  rw [ofStmt_move] at flattened
  obtain ⟨last, flattens, rfl⟩ := ofMove_temp_eq_ok.mp flattened
  obtain ⟨after, more, leads, evaluable⟩ := safe statements jumps flattens before includes
  exact (leads.append (.moveTemp temp evaluable)).weaken (Set.union_subset_union_left {temp} more)

theorem moveMem {address : Expr} (addressSafe : SafeExpr offer needs address)
    (safe : SafeExpr offer needs value) : SafeStmt offer needs (.move (.mem address) value) ∅ := by
  intro statements jumps supply rest flat flattened before includes
  rw [ofStmt_move] at flattened
  obtain ⟨place, _, last, _, front, left, right, placeFlat, valueFlat, paired, rfl⟩ :=
    ofMove_mem_eq_ok.mp flattened
  obtain ⟨after, more, leads, leftEvaluable, rightEvaluable⟩ :=
    pair_leads addressSafe safe placeFlat valueFlat paired includes
  rw [Set.union_empty]
  exact (leads.append (.moveMem leftEvaluable rightEvaluable)).weaken more

variable {labels : Labels}

theorem ifThen {branch : Stmt} (tests : SafeExpr offer needs condition)
    (safe : SafeStmt offer needs branch ∅) :
    SafeStmt offer needs (Lowering.ifThen labels condition branch) ∅ := by
  intro statements jumps supply rest flat flattened before includes
  obtain ⟨test, _, inner, testFlat, innerFlat, rfl⟩ := ofStmt_ifThen_eq_ok.mp flattened
  obtain ⟨tested, more, leads, evaluable⟩ := tests statements jumps testFlat before includes
  have branches := safe statements jumps innerFlat tested (includes.trans more)
  rw [Set.union_empty] at branches ⊢
  exact (leads.ifThen evaluable branches subset_rfl).weaken more

theorem ifThenElse {branch other : Stmt} (tests : SafeExpr offer needs condition)
    (safe : SafeStmt offer needs branch ∅) (otherSafe : SafeStmt offer needs other ∅) :
    SafeStmt offer needs (Lowering.ifThenElse labels condition branch other) ∅ := by
  intro statements jumps supply rest flat flattened before includes
  obtain ⟨test, _, inner, _, outer, testFlat, innerFlat, outerFlat, rfl⟩ :=
    ofStmt_ifThenElse_eq_ok.mp flattened
  obtain ⟨tested, more, leads, evaluable⟩ := tests statements jumps testFlat before includes
  have branches := safe statements jumps innerFlat tested (includes.trans more)
  have otherBranches := otherSafe statements jumps outerFlat tested (includes.trans more)
  rw [Set.union_empty] at branches otherBranches ⊢
  exact (leads.ifThenElse evaluable branches subset_rfl otherBranches subset_rfl).weaken more

theorem whileLoop {body : Stmt} (tests : SafeExpr offer needs condition)
    (safe : SafeStmt offer needs body ∅) :
    SafeStmt offer needs (Lowering.whileLoop labels condition body) ∅ := by
  intro statements jumps supply rest flat flattened before includes
  obtain ⟨test, _, inner, testFlat, innerFlat, rfl⟩ := ofStmt_whileLoop_eq_ok.mp flattened
  obtain ⟨tested, more, leads, evaluable⟩ := tests statements jumps testFlat before includes
  have repeats := safe statements jumps innerFlat tested (includes.trans more)
  rw [Set.union_empty] at repeats ⊢
  exact leads.whileLoop evaluable more repeats more

/-- A counting loop over a cell: the bound and the step have values before the
condition and the next step read them. -/
theorem forLoop {bound stride : Temp} {address low high step : Expr} {body : Stmt}
    (counts : SafeExpr offer needs address) (lowSafe : SafeExpr offer needs low)
    (highSafe : SafeExpr offer needs high) (stepSafe : SafeExpr offer needs step)
    (safe : SafeStmt offer needs body ∅) :
    SafeStmt offer needs
      (Lowering.forLoop labels bound stride (.mem address) low high step body) ∅ := by
  intro statements jumps supply rest flat flattened before includes
  have grown : needs ⊆ needs ∪ ∅ ∪ {bound} ∪ {stride} :=
    (Set.subset_union_left.trans Set.subset_union_left).trans Set.subset_union_left
  have loops : SafeStmt offer (needs ∪ ∅ ∪ {bound} ∪ {stride})
      (Lowering.whileLoop ⟨labels.third, labels.first, labels.second⟩
        (.binop .lt (.mem address) (.temp bound))
        (.seq [body, .move (.mem address) (.binop .add (.mem address) (.temp stride))])) ∅ := by
    refine .whileLoop (.binop (counts.mono grown).mem (.temp (by simp))) (.seq ?_)
    rw [List.forall_mem_cons, List.forall_mem_singleton]
    exact ⟨safe.mono grown,
      .moveMem (counts.mono grown) (.binop (counts.mono grown).mem (.temp (by simp)))⟩
  have begins := (SafeStmt.moveMem counts lowSafe).cons
    ((SafeStmt.moveTemp bound (highSafe.mono Set.subset_union_left)).cons
      ((SafeStmt.moveTemp stride (stepSafe.mono
        (Set.subset_union_left.trans Set.subset_union_left))).cons (loops.cons .nil)))
  exact (begins statements jumps (ofStmt_forLoop_eq_ok.mp flattened) before includes).weaken
    (Set.union_subset Set.subset_union_left (Set.empty_subset _))

end SafeStmt

end TreeBackend.Machine
