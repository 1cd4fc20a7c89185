import TreeBackend.Proofs.Flattening.Supply
import TreeBackend.Proofs.Machine.FlatRun

/-!
# Operands that are computed before they are used

When an operand brings statements of its own, flattening moves the values of the
operands to its left into drawn temporaries.  This file shows that the flattened
operands still have the values that they have from left to right.

A bound separates the temporaries of the program from the drawn ones.  What a
piece of flattened code may change is the temporaries of the program that it
assigns, and the drawn ones between its two supplies.
-/

namespace TreeBackend.Machine

open IR Flattening

def AgreeBelow (bound : Nat) (first second : Temps) : Prop :=
  ∀ temp : Temp, temp.number < bound → second.get? temp = first.get? temp

theorem AgreeBelow.refl (bound : Nat) (temps : Temps) : AgreeBelow bound temps temps :=
  fun _ _ => rfl

theorem AgreeBelow.trans {bound : Nat} {first second third : Temps}
    (left : AgreeBelow bound first second) (right : AgreeBelow bound second third) :
    AgreeBelow bound first third :=
  fun temp below => (right temp below).trans (left temp below)

/-- A temporary of the program that is not assigned, or one that is not drawn
between two supplies. -/
def Untouched (bound : Nat) (assigned : List Temp) (supply rest : TempSupply)
    (temp : Temp) : Prop :=
  (temp.number < bound ∧ temp ∉ assigned) ∨
    (bound ≤ temp.number ∧ (temp.number < supply.issued ∨ rest.issued ≤ temp.number))

/-- All untouched temporaries have kept their values. -/
def Spares (bound : Nat) (assigned : List Temp) (supply rest : TempSupply)
    (before after : Temps) : Prop :=
  ∀ temp, Untouched bound assigned supply rest temp → after.get? temp = before.get? temp

section Spares

variable {bound : Nat} {assigned others : List Temp} {supply middle rest : TempSupply}
  {first second third : Temps}

theorem Spares.refl (temps : Temps) : Spares bound assigned supply rest temps temps :=
  fun _ _ => rfl

theorem Untouched.weaken {temp : Temp} (untouched : Untouched bound others supply rest temp)
    (includes : ∀ temp ∈ assigned, temp ∈ others) {supply' rest' : TempSupply}
    (lower : supply.issued ≤ supply'.issued) (upper : rest'.issued ≤ rest.issued) :
    Untouched bound assigned supply' rest' temp := by
  rcases untouched with ⟨below, spared⟩ | ⟨above, outside⟩
  · exact .inl ⟨below, fun member => spared (includes temp member)⟩
  · exact .inr ⟨above, by omega⟩

theorem Spares.trans (left : Spares bound assigned supply middle first second)
    (right : Spares bound others middle rest second third)
    (leftLe : supply.issued ≤ middle.issued) (rightLe : middle.issued ≤ rest.issued) :
    Spares bound (assigned ++ others) supply rest first third := by
  intro temp untouched
  have spared := right temp (untouched.weaken (by simp +contextual) leftLe (Nat.le_refl _))
  rw [spared]
  exact left temp (untouched.weaken (by simp +contextual) (Nat.le_refl _) rightLe)

theorem Spares.insert {target : Temp} {value : Int} (inside : target ∈ assigned)
    (below : target.number < bound) :
    Spares bound assigned supply rest first (first.insert target value) := by
  intro temp untouched
  rw [Table.get?_insert, if_neg]
  rintro rfl
  rcases untouched with ⟨-, spared⟩ | ⟨above, -⟩
  · exact spared inside
  · omega

end Spares

mutual

/-- The value of an expression depends on the temporaries in it only. -/
theorem eval_congr {call : Label → List Int → Exec Int} {first second : Temps} :
    (expression : Expr) → (∀ temp ∈ expression.temps, second.get? temp = first.get? temp) →
      eval call second expression = eval call first expression
  | .const _, _ => by simp only [eval]
  | .name _, _ => by simp only [eval]
  | .temp temp, same => by
      simp only [eval, readTemp]
      rw [same temp (by simp [Expr.temps])]
  | .mem address, same => by
      simp only [eval]
      rw [eval_congr address same]
  | .binop _ left right, same => by
      simp only [eval]
      rw [eval_congr left fun temp member => same temp (List.mem_append_left _ member),
        eval_congr right fun temp member => same temp (List.mem_append_right _ member)]
  | .call _ arguments, same => by
      simp only [eval]
      rw [evalAll_congr arguments same]
  | .eseq .., _ => by simp only [eval]

theorem evalAll_congr {call : Label → List Int → Exec Int} {first second : Temps} :
    (expressions : List Expr) →
      (∀ temp ∈ Expr.tempsOfList expressions, second.get? temp = first.get? temp) →
      evalAll call second expressions = evalAll call first expressions
  | [], _ => by simp only [evalAll]
  | expression :: rest, same => by
      simp only [evalAll]
      rw [eval_congr expression fun temp member => same temp (List.mem_append_left _ member),
        evalAll_congr rest fun temp member => same temp (List.mem_append_right _ member)]

end

namespace Code

variable {code : Code} {temps temps' : Temps} {machine machine' : Machine}

theorem Evaluates.congr {expression : Expr} {value : Int} {others : Temps}
    (evaluates : code.Evaluates temps expression machine value machine')
    (same : ∀ temp ∈ expression.temps, others.get? temp = temps.get? temp) :
    code.Evaluates others expression machine value machine' where
  result := evaluates.result.mono fun _ result => by rwa [eval_congr expression same]
  labels := evaluates.labels

theorem EvaluatesAll.congr {expressions : List Expr} {values : List Int} {others : Temps}
    (evaluates : code.EvaluatesAll temps expressions machine values machine')
    (same : ∀ expression ∈ expressions, ∀ temp ∈ expression.temps,
      others.get? temp = temps.get? temp) :
    code.EvaluatesAll others expressions machine values machine' := by
  induction evaluates with
  | nil => exact .nil
  | cons head _ ih =>
      refine .cons (head.congr (same _ (by simp))) (ih fun expression member => ?_)
      exact same expression (by simp [member])

/-- A fixed value can be computed at any later point with the same result, as long
as it is not a temporary that has changed. -/
theorem Evaluates.later {expression : Expr} {value : Int} (fixed : expression.isFixed = true)
    (evaluates : code.Evaluates temps expression machine value machine') :
    machine' = machine ∧ ∀ {others : Temps} {later : Machine}, SameLabels machine later →
      (∀ temp, expression = .temp temp → others.get? temp = temps.get? temp) →
        code.Evaluates others expression later value later := by
  obtain ⟨fuel, result⟩ := evaluates.result.exists
  cases expression with
  | const number =>
      obtain ⟨rfl, rfl⟩ := eval_const_eq_ok.mp result
      exact ⟨rfl, fun _ _ => .const value⟩
  | name label =>
      rw [eval_name] at result
      obtain ⟨known, rfl⟩ := labelAddress_eq_ok.mp result
      exact ⟨rfl, fun labels _ => .name ((labels label).trans known)⟩
  | temp temp =>
      rw [eval_temp] at result
      obtain ⟨assigned, rfl⟩ := readTemp_eq_ok.mp result
      exact ⟨rfl, fun _ same => .temp ((same temp rfl).trans assigned)⟩
  | mem _ | binop _ _ _ | call _ _ | eseq _ _ => simp [Expr.isFixed] at fixed

/-- A bare temporary among kept values was there before or has been drawn. -/
theorem mem_keepAll_values {values : List Expr} {kept : FlattenedOperands}
    {supply rest : TempSupply} (keeps : keepAll values supply = .ok (kept, rest)) {temp : Temp}
    (member : .temp temp ∈ kept.values) : .temp temp ∈ values ∨ supply.issued ≤ temp.number := by
  induction values generalizing supply kept with
  | nil =>
      obtain ⟨rfl, rfl⟩ := keepAll_nil_eq_ok.mp keeps
      simp at member
  | cons value values ih =>
      obtain ⟨head, middle, tail, headKeeps, tailKeeps, rfl⟩ := keepAll_cons_eq_ok.mp keeps
      have headLe := (keep_issued headKeeps).1
      rcases List.mem_cons.mp member with same | member
      · by_cases fixed : value.isFixed = true
        · obtain ⟨rfl, rfl⟩ := keep_of_isFixed fixed headKeeps
          exact .inl (by simp [same])
        · obtain ⟨rfl, rfl⟩ := keep_of_not_isFixed fixed headKeeps
          obtain rfl : temp = supply.next := by simpa using same
          exact .inr (Nat.le_refl _)
      · rcases ih tailKeeps member with member | drawn
        · exact .inl (List.mem_cons_of_mem _ member)
        · exact .inr (headLe.trans drawn)

/-- A bare temporary among operands was there before, has been drawn, or is the
value of the last one. -/
theorem mem_append_values {operands result : FlattenedOperands} {next : Flattened}
    {supply rest : TempSupply} (appended : append operands next supply = .ok (result, rest))
    {temp : Temp} (member : .temp temp ∈ result.values) :
    .temp temp ∈ operands.values ∨ supply.issued ≤ temp.number ∨ next.value = .temp temp := by
  by_cases quiet : next.before = []
  · obtain ⟨rfl, rfl⟩ := append_of_nil quiet appended
    rcases List.mem_append.mp member with member | member
    · exact .inl member
    · exact .inr (.inr (List.mem_singleton.mp member).symm)
  · obtain ⟨kept, keeps, rfl⟩ := append_of_ne_nil quiet appended
    rcases List.mem_append.mp member with member | member
    · exact (mem_keepAll_values keeps member).imp id .inl
    · exact .inr (.inr (List.mem_singleton.mp member).symm)

/-- Keeping values computes them in their order.  Afterwards they can be had
again without any effect, as long as the temporaries that hold them stay. -/
theorem keepAll_executes {values : List Expr} {kept : FlattenedOperands}
    {supply rest : TempSupply} {results : List Int}
    (keeps : keepAll values supply = .ok (kept, rest))
    (below : ∀ value ∈ values, Below supply.issued value)
    (evaluates : code.EvaluatesAll temps values machine results machine') :
    ∃ temps', code.Executes kept.before temps machine temps' machine' ∧
      (∀ temp : Temp, temp.number < supply.issued ∨ rest.issued ≤ temp.number →
        temps'.get? temp = temps.get? temp) ∧
      ∀ {others : Temps} {later : Machine}, SameLabels machine' later →
        (∀ temp : Temp, .temp temp ∈ values ∨
          (supply.issued ≤ temp.number ∧ temp.number < rest.issued) →
            others.get? temp = temps'.get? temp) →
        code.EvaluatesAll others kept.values later results later := by
  induction values generalizing supply kept temps machine results with
  | nil =>
      obtain ⟨rfl, rfl⟩ := keepAll_nil_eq_ok.mp keeps
      cases evaluates
      exact ⟨temps, .nil, fun _ _ => rfl, fun _ _ => .nil⟩
  | cons value values ih =>
      obtain ⟨keptHead, between, keptTail, headKeeps, tailKeeps, rfl⟩ :=
        keepAll_cons_eq_ok.mp keeps
      obtain _ | @⟨_, _, result, results, _, middle, _, head, tail⟩ := evaluates
      have tailLe := (keepAll_issued tailKeeps).1
      by_cases fixed : value.isFixed = true
      · obtain ⟨rfl, rfl⟩ := keep_of_isFixed fixed headKeeps
        obtain ⟨rfl, stays⟩ := head.later fixed
        obtain ⟨temps', executes, spared, again⟩ :=
          ih tailKeeps (fun other member => below other (by simp [member])) tail
        refine ⟨temps', executes, spared, fun {others later} labels same => ?_⟩
        refine .cons (stays (tail.labels.trans labels) fun temp isTemp => ?_)
          (again labels fun temp among => ?_)
        · subst isTemp
          rw [same temp (.inl (by simp))]
          exact spared temp (.inl (below (.temp temp) (by simp) temp (by simp [Expr.temps])))
        · exact same temp (among.imp (List.mem_cons_of_mem _) id)
      · obtain ⟨rfl, rfl⟩ := keep_of_not_isFixed fixed headKeeps
        have fresh : ∀ temp : Temp, temp.number < supply.issued →
            (temps.insert supply.next result).get? temp = temps.get? temp := by
          intro temp isBelow
          rw [Table.get?_insert, if_neg]
          rintro rfl
          exact Nat.lt_irrefl _ isBelow
        obtain ⟨temps', executes, spared, again⟩ := ih tailKeeps
          (fun other member => (below other (by simp [member])).mono (Nat.le_succ _))
          (tail.congr fun other member temp occurs =>
            fresh temp (below other (by simp [member]) temp occurs))
        refine ⟨temps', (Executes.moveTemp supply.next head).append executes, ?_,
          fun {others later} labels same => ?_⟩
        · rintro temp (isBelow | isAbove)
          · rw [spared temp (.inl (Nat.lt_succ_of_lt isBelow))]
            exact fresh temp isBelow
          · rw [spared temp (.inr isAbove), Table.get?_insert, if_neg]
            rintro rfl
            exact Nat.lt_irrefl _ (tailLe.trans isAbove)
        · refine .cons (.temp ?_) (again labels fun temp among => ?_)
          · rw [same supply.next (.inr ⟨Nat.le_refl _, tailLe⟩),
              spared supply.next (.inl (Nat.lt_succ_self _)), Table.get?_insert, if_pos rfl]
          · refine same temp (among.imp (List.mem_cons_of_mem _) fun drawn => ?_)
            exact ⟨(Nat.le_succ _).trans drawn.1, drawn.2⟩

end Code

end TreeBackend.Machine
