import TreeBackend.Proofs.Flattening.Supply
import TreeBackend.Proofs.IR.Occurrences

/-!
# The events of flattened code

Flattening keeps the events of a tree, once each and in their order.  It adds assignments
to the temporaries that it draws, and it drops idle loads; nothing else is different.
-/

namespace TreeBackend.Flattening

open IR (Expr Stmt Temp TempSupply Event Occurrence)
open IR.Occurrence (lasting lasting_append)

/-- A view that shows no assignment to temporaries within certain numbers. -/
def HidesDrawn (sees : Event → Bool) (lower upper : Nat) : Prop :=
  ∀ temp : Temp, lower ≤ temp.number → temp.number < upper → sees (.assign temp) = false

theorem HidesDrawn.mono {sees : Event → Bool} {lower upper lower' upper' : Nat}
    (hides : HidesDrawn sees lower upper) (le : lower ≤ lower') (le' : upper' ≤ upper) :
    HidesDrawn sees lower' upper' :=
  fun temp above below => hides temp (le.trans above) (Nat.lt_of_lt_of_le below le')

/-- The events of a flattened expression: those of its statements, then those of its value. -/
def Flattened.events (flat : Flattened) : List Event :=
  Stmt.eventsOfList flat.before ++ flat.value.events

def FlattenedOperands.events (flat : FlattenedOperands) : List Event :=
  Stmt.eventsOfList flat.before ++ Expr.eventsOfList flat.values

/-! ### Operands -/

section Operands

variable {sees : Event → Bool} {supply rest : TempSupply}

/-- Once values are kept, nothing is left to be done for them. -/
theorem keepAll_events {values : List Expr} {kept : FlattenedOperands}
    (hides : HidesDrawn sees supply.issued rest.issued)
    (keeps : keepAll values supply = .ok (kept, rest)) :
    (Stmt.eventsOfList kept.before).filter sees = (Expr.eventsOfList values).filter sees ∧
      Expr.eventsOfList kept.values = [] := by
  induction values generalizing supply kept with
  | nil =>
      obtain ⟨rfl, -⟩ := keepAll_nil_eq_ok.mp keeps
      exact ⟨rfl, rfl⟩
  | cons value values ih =>
      obtain ⟨head, middle, tail, headKeeps, tailKeeps, rfl⟩ := keepAll_cons_eq_ok.mp keeps
      obtain ⟨same, nothing⟩ :=
        ih (hides.mono (keep_issued headKeeps).1 (Nat.le_refl _)) tailKeeps
      by_cases fixed : value.isFixed = true
      · obtain ⟨rfl, -⟩ := keep_of_isFixed fixed headKeeps
        simp [Expr.eventsOfList, Expr.events_of_isFixed fixed, same, nothing]
      · obtain ⟨rfl, rfl⟩ := keep_of_not_isFixed fixed headKeeps
        have drawn : sees (.assign supply.next) = false :=
          hides _ (Nat.le_refl _) (keepAll_issued tailKeeps).1
        simp [Expr.eventsOfList, Stmt.eventsOfList, Stmt.events, Expr.storeEvents, Expr.events,
          same, nothing, drawn]

/-- An operand comes after the ones to its left. -/
theorem append_events {operands result : FlattenedOperands} {next : Flattened}
    (hides : HidesDrawn sees supply.issued rest.issued)
    (appended : append operands next supply = .ok (result, rest)) :
    (FlattenedOperands.events result).filter sees =
      (FlattenedOperands.events operands).filter sees ++ (Flattened.events next).filter sees := by
  by_cases quiet : next.before = []
  · obtain ⟨rfl, -⟩ := append_of_nil quiet appended
    simp [FlattenedOperands.events, Flattened.events, quiet, Expr.eventsOfList,
      Stmt.eventsOfList]
  · obtain ⟨kept, keeps, rfl⟩ := append_of_ne_nil quiet appended
    obtain ⟨same, nothing⟩ := keepAll_events hides keeps
    simp [FlattenedOperands.events, Flattened.events, Expr.eventsOfList, same, nothing]

theorem pair_events {first second : Flattened} {before : List Stmt} {left right : Expr}
    (hides : HidesDrawn sees supply.issued rest.issued)
    (paired : pair first second supply = .ok ((before, left, right), rest)) :
    (Stmt.eventsOfList before ++ left.events ++ right.events).filter sees =
      (Flattened.events first).filter sees ++ (Flattened.events second).filter sees := by
  have appended := append_events hides (pair_eq_ok.mp paired)
  simpa [FlattenedOperands.events, Flattened.events, Expr.eventsOfList] using appended

end Operands

/-- A load is left out exactly if it is idle. -/
theorem discarded_load_events {sees : Event → Bool} {address : Expr} {place : Flattened}
    {supply rest : TempSupply} (flattens : ofExpr address supply = .ok (place, rest))
    (same : (Flattened.events place).filter sees = (lasting address.occurrences).filter sees) :
    (Stmt.eventsOfList (if isDiscardable (.mem place.value) then place.before
      else place.before ++ [.exp (.mem place.value)])).filter sees =
      (lasting (Expr.mem address).discardedOccurrences).filter sees := by
  rw [Expr.discardedOccurrences, lasting_append, List.filter_append, ← same, Flattened.events]
  by_cases ends : ∃ temp, place.value = .temp temp
  · obtain ⟨temp, isTemp⟩ := ends
    have idle := (ofExpr_value_eq_temp_iff flattens).mp isTemp
    simp [isTemp, isDiscardable, idle, lasting, Expr.events]
  · have needed : address.lastTemp? = none := Option.eq_none_iff_forall_ne_some.mpr fun temp last =>
      ends ⟨temp, (ofExpr_value_eq_temp_iff flattens).mpr last⟩
    have wanted : isDiscardable (.mem place.value) = false := by
      unfold isDiscardable
      split
      · next isTemp => exact (ends ⟨_, Expr.mem.inj isTemp⟩).elim
      · rfl
    simp [wanted, needed, lasting, Stmt.eventsOfList, Stmt.events, Expr.events]

/-! ### Trees -/

section Trees

variable {sees : Event → Bool}

mutual

/-- A flattened statement has the events of the statement but for idle loads, in their
order. -/
theorem ofStmt_lasting : (statement : Stmt) → {flat : List Stmt} → {supply rest : TempSupply} →
    HidesDrawn sees supply.issued rest.issued → ofStmt statement supply = .ok (flat, rest) →
    (Stmt.eventsOfList flat).filter sees = (lasting statement.occurrences).filter sees
  | .seq items, _, _, _, hides, flattened =>
      ofStmts_lasting items hides (by rwa [ofStmt_seq] at flattened)
  | .label _, _, _, _, _, flattened => by
      obtain ⟨rfl, -⟩ := ofStmt_label_eq_ok.mp flattened
      rfl
  | .jump _, _, _, _, _, flattened => by
      obtain ⟨rfl, -⟩ := ofStmt_jump_eq_ok.mp flattened
      rfl
  | .cjump condition _ _, _, _, _, hides, flattened => by
      obtain ⟨test, flattens, rfl⟩ := ofStmt_cjump_eq_ok.mp flattened
      have same := ofExpr_lasting condition hides flattens
      simp only [Flattened.events, List.filter_append] at same
      simp [Stmt.occurrences, Stmt.eventsOfList, Stmt.events, ← same]
  | .exp value, _, _, _, hides, flattened => by
      obtain ⟨_, flattens, rfl⟩ := ofStmt_exp_eq_ok.mp flattened
      exact ofExpr_discarded value hides flattens
  | .move target source, _, _, _, hides, flattened =>
      ofMove_lasting target hides (fun inner flattens => ofExpr_lasting source inner flattens)
        (ofExpr_issued_le source) (by rwa [ofStmt_move] at flattened)

theorem ofStmts_lasting : (statements : List Stmt) → {flat : List Stmt} →
    {supply rest : TempSupply} → HidesDrawn sees supply.issued rest.issued →
    ofStmts statements supply = .ok (flat, rest) →
    (Stmt.eventsOfList flat).filter sees =
      (lasting (Stmt.occurrencesOfList statements)).filter sees
  | [], _, _, _, _, flattened => by
      obtain ⟨rfl, -⟩ := ofStmts_nil_eq_ok.mp flattened
      rfl
  | statement :: others, _, _, _, hides, flattened => by
      obtain ⟨_, _, _, first, last, rfl⟩ := ofStmts_cons_eq_ok.mp flattened
      have firstHides := hides.mono (Nat.le_refl _) (ofStmts_issued_le others last)
      have lastHides := hides.mono (ofStmt_issued_le statement first) (Nat.le_refl _)
      rw [Stmt.eventsOfList_append, Stmt.occurrencesOfList, lasting_append, List.filter_append,
        List.filter_append, ofStmt_lasting statement firstHides first,
        ofStmts_lasting others lastHides last]

theorem ofMove_lasting : (target : Expr) → {source : Flattening Flattened} →
    {stored : List Occurrence} → {flat : List Stmt} → {supply rest : TempSupply} →
    HidesDrawn sees supply.issued rest.issued →
    (∀ {flat : Flattened} {middle last : TempSupply},
      HidesDrawn sees middle.issued last.issued → source middle = .ok (flat, last) →
      (Flattened.events flat).filter sees = (lasting stored).filter sees) →
    (∀ {flat : Flattened} {middle last : TempSupply}, source middle = .ok (flat, last) →
      middle.issued ≤ last.issued) →
    ofMove source target supply = .ok (flat, rest) →
    (Stmt.eventsOfList flat).filter sees = (lasting (target.storeOccurrences stored)).filter sees
  | .temp _, _, _, _, _, _, hides, sourceEvents, _, flattened => by
      obtain ⟨value, flattens, rfl⟩ := ofMove_temp_eq_ok.mp flattened
      have same := sourceEvents hides flattens
      simp only [Flattened.events, List.filter_append] at same
      simp [Stmt.eventsOfList, Stmt.events, Expr.storeEvents, Expr.storeOccurrences, ← same]
  | .mem address, _, _, _, _, _, hides, sourceEvents, sourceLe, flattened => by
      obtain ⟨_, _, _, last, _, _, _, place, value, paired, rfl⟩ := ofMove_mem_eq_ok.mp flattened
      have placeLe := ofExpr_issued_le address place
      have valueLe := sourceLe value
      have pairLe := pair_issued_le paired
      have samePlace := ofExpr_lasting address
        (hides.mono (Nat.le_refl _) (valueLe.trans pairLe)) place
      have sameValue := sourceEvents (hides.mono placeLe pairLe) value
      have both := pair_events (hides.mono (placeLe.trans valueLe) (Nat.le_refl _)) paired
      rw [samePlace, sameValue] at both
      rw [Stmt.eventsOfList_append, Expr.storeOccurrences, lasting_append, lasting_append,
        List.filter_append, List.filter_append, List.filter_append, ← both]
      simp [Stmt.eventsOfList, Stmt.events, Expr.storeEvents]
  | .eseq effect value, _, _, _, _, _, hides, sourceEvents, sourceLe, flattened => by
      obtain ⟨_, _, _, first, last, rfl⟩ := ofMove_eseq_eq_ok.mp flattened
      have firstHides := hides.mono (Nat.le_refl _) (ofMove_issued_le value sourceLe last)
      have lastHides := hides.mono (ofStmt_issued_le effect first) (Nat.le_refl _)
      rw [Stmt.eventsOfList_append, Expr.storeOccurrences, lasting_append, List.filter_append,
        List.filter_append, ofStmt_lasting effect firstHides first,
        ofMove_lasting value lastHides sourceEvents sourceLe last]
  | .const _, _, _, _, _, _, _, _, _, flattened | .name _, _, _, _, _, _, _, _, _, flattened
  | .binop .., _, _, _, _, _, _, _, _, flattened
  | .call .., _, _, _, _, _, _, _, _, flattened => by
      cases flattened

/-- A flattened expression has the events of the expression but for idle loads, in their
order. -/
theorem ofExpr_lasting : (expression : Expr) → {flat : Flattened} → {supply rest : TempSupply} →
    HidesDrawn sees supply.issued rest.issued →
    ofExpr expression supply = .ok (flat, rest) →
    (Flattened.events flat).filter sees = (lasting expression.occurrences).filter sees
  | .const _, _, _, _, _, flattened => by
      obtain ⟨rfl, -⟩ := ofExpr_const_eq_ok.mp flattened
      rfl
  | .name _, _, _, _, _, flattened => by
      obtain ⟨rfl, -⟩ := ofExpr_name_eq_ok.mp flattened
      rfl
  | .temp _, _, _, _, _, flattened => by
      obtain ⟨rfl, -⟩ := ofExpr_temp_eq_ok.mp flattened
      rfl
  | .mem address, _, _, _, hides, flattened => by
      obtain ⟨_, place, rfl⟩ := ofExpr_mem_eq_ok.mp flattened
      have same := ofExpr_lasting address hides place
      simp only [Flattened.events, List.filter_append] at same
      simp [Flattened.events, Expr.events, Expr.occurrences, ← same]
  | .binop _ left right, _, _, _, hides, flattened => by
      obtain ⟨_, _, _, _, _, _, _, first, second, paired, rfl⟩ := ofExpr_binop_eq_ok.mp flattened
      have leftLe := ofExpr_issued_le left first
      have rightLe := ofExpr_issued_le right second
      have pairLe := pair_issued_le paired
      have both := pair_events (hides.mono (leftLe.trans rightLe) (Nat.le_refl _)) paired
      rw [ofExpr_lasting left (hides.mono (Nat.le_refl _) (rightLe.trans pairLe)) first,
        ofExpr_lasting right (hides.mono leftLe pairLe) second] at both
      rw [Flattened.events, Expr.events, ← List.append_assoc, ← List.append_assoc,
        List.filter_append, both, Expr.occurrences, lasting_append, lasting_append,
        List.filter_append, List.filter_append]
      rfl
  | .call _ arguments, _, _, _, hides, flattened => by
      obtain ⟨_, operands, rfl⟩ := ofExpr_call_eq_ok.mp flattened
      have same := ofOperands_lasting arguments hides operands
      have sameNumber := ofOperands_length operands
      simp only [FlattenedOperands.events, Stmt.eventsOfList, Expr.eventsOfList, List.length_nil,
        Nat.zero_add, List.append_nil, List.filter_nil, List.nil_append, List.filter_append]
        at same sameNumber
      simp [Flattened.events, Expr.events, Expr.occurrences, ← same, sameNumber]
  | .eseq effect value, _, _, _, hides, flattened => by
      obtain ⟨_, _, _, first, last, rfl⟩ := ofExpr_eseq_eq_ok.mp flattened
      have sameEffect := ofStmt_lasting effect
        (hides.mono (Nat.le_refl _) (ofExpr_issued_le value last)) first
      have sameValue := ofExpr_lasting value
        (hides.mono (ofStmt_issued_le effect first) (Nat.le_refl _)) last
      simp only [Flattened.events, List.filter_append] at sameValue
      simp [Flattened.events, Expr.occurrences, sameEffect, ← sameValue]

theorem ofOperands_lasting : (operands : List Expr) → {done flat : FlattenedOperands} →
    {supply rest : TempSupply} → HidesDrawn sees supply.issued rest.issued →
    ofOperands done operands supply = .ok (flat, rest) →
    (FlattenedOperands.events flat).filter sees =
      (FlattenedOperands.events done).filter sees ++
        (lasting (Expr.occurrencesOfList operands)).filter sees
  | [], _, _, _, _, _, flattened => by
      obtain ⟨rfl, -⟩ := ofOperands_nil_eq_ok.mp flattened
      simp [Expr.occurrencesOfList]
  | operand :: others, _, _, _, _, hides, flattened => by
      obtain ⟨_, _, _, _, first, appended, last⟩ := ofOperands_cons_eq_ok.mp flattened
      have firstLe := ofExpr_issued_le operand first
      have appendLe := (append_issued appended).1
      have lastLe := ofOperands_issued_le others last
      rw [ofOperands_lasting others (hides.mono (firstLe.trans appendLe) (Nat.le_refl _)) last,
        append_events (hides.mono firstLe lastLe) appended,
        ofExpr_lasting operand (hides.mono (Nat.le_refl _) (appendLe.trans lastLe)) first,
        Expr.occurrencesOfList, lasting_append, List.filter_append, List.append_assoc]

theorem ofExpr_discarded : (expression : Expr) → {flat : Flattened} →
    {supply rest : TempSupply} → HidesDrawn sees supply.issued rest.issued →
    ofExpr expression supply = .ok (flat, rest) →
    (Stmt.eventsOfList (if isDiscardable flat.value then flat.before
      else flat.before ++ [.exp flat.value])).filter sees =
      (lasting expression.discardedOccurrences).filter sees
  | .const _, _, _, _, _, flattened => by
      obtain ⟨rfl, -⟩ := ofExpr_const_eq_ok.mp flattened
      rfl
  | .name _, _, _, _, _, flattened => by
      obtain ⟨rfl, -⟩ := ofExpr_name_eq_ok.mp flattened
      rfl
  | .temp _, _, _, _, _, flattened => by
      obtain ⟨rfl, -⟩ := ofExpr_temp_eq_ok.mp flattened
      rfl
  | .mem address, _, _, _, hides, flattened => by
      obtain ⟨_, place, rfl⟩ := ofExpr_mem_eq_ok.mp flattened
      exact discarded_load_events place (ofExpr_lasting address hides place)
  | .binop operator left right, _, _, _, hides, flattened => by
      have same := ofExpr_lasting (.binop operator left right) hides flattened
      obtain ⟨_, _, _, _, _, _, _, -, -, -, rfl⟩ := ofExpr_binop_eq_ok.mp flattened
      simpa [isDiscardable, Expr.isFixed, Stmt.eventsOfList, Stmt.events, Flattened.events,
        Expr.occurrences, Expr.discardedOccurrences] using same
  | .call label arguments, _, _, _, hides, flattened => by
      have same := ofExpr_lasting (.call label arguments) hides flattened
      obtain ⟨_, -, rfl⟩ := ofExpr_call_eq_ok.mp flattened
      simpa [isDiscardable, Expr.isFixed, Stmt.eventsOfList, Stmt.events, Flattened.events,
        Expr.occurrences, Expr.discardedOccurrences] using same
  | .eseq effect value, _, _, _, hides, flattened => by
      obtain ⟨first, _, rest, effectFlattens, valueFlattens, rfl⟩ := ofExpr_eseq_eq_ok.mp flattened
      have sameEffect := ofStmt_lasting effect
        (hides.mono (Nat.le_refl _) (ofExpr_issued_le value valueFlattens)) effectFlattens
      have sameValue := ofExpr_discarded value
        (hides.mono (ofStmt_issued_le effect effectFlattens) (Nat.le_refl _)) valueFlattens
      rw [Expr.discardedOccurrences, lasting_append, List.filter_append, ← sameEffect, ← sameValue,
        ← List.filter_append, ← Stmt.eventsOfList_append]
      split <;> simp

end

/-- A view that shows neither loads nor assignments to temporaries from a number on. -/
structure Overlooks (sees : Event → Bool) (bound : Nat) : Prop where
  load : sees .load = false
  drawn : ∀ temp : Temp, bound ≤ temp.number → sees (.assign temp) = false

/-- A view that overlooks what flattening changes shows the same before and after. -/
theorem ofStmt_events (statement : Stmt) {flat : List Stmt} {supply rest : TempSupply}
    (overlooks : Overlooks sees supply.issued)
    (flattened : ofStmt statement supply = .ok (flat, rest)) :
    (Stmt.eventsOfList flat).filter sees = statement.events.filter sees :=
  (ofStmt_lasting statement (fun temp above _ => overlooks.drawn temp above) flattened).trans
    (statement.marks.filter_lasting overlooks.load)

theorem ofExpr_events (expression : Expr) {flat : Flattened} {supply rest : TempSupply}
    (overlooks : Overlooks sees supply.issued)
    (flattened : ofExpr expression supply = .ok (flat, rest)) :
    (Flattened.events flat).filter sees = expression.events.filter sees :=
  (ofExpr_lasting expression (fun temp above _ => overlooks.drawn temp above) flattened).trans
    (expression.marks.filter_lasting overlooks.load)

/-- Flattening neither adds nor loses a place, a jump or a call. -/
theorem mem_events {statement : Stmt} {flat : List Stmt} {supply rest : TempSupply}
    (flattened : ofStmt statement supply = .ok (flat, rest)) {event : Event}
    (loud : event.isQuiet = false) :
    event ∈ Stmt.eventsOfList flat ↔ event ∈ statement.events := by
  have overlooks : Overlooks (fun event => !event.isQuiet) supply.issued := ⟨rfl, fun _ _ => rfl⟩
  have same := ofStmt_events statement overlooks flattened
  have member : event ∈ (Stmt.eventsOfList flat).filter (fun event => !event.isQuiet) ↔
      event ∈ statement.events.filter fun event => !event.isQuiet := by rw [same]
  simpa [List.mem_filter, loud] using member

theorem mem_events_expr {expression : Expr} {flat : Flattened} {supply rest : TempSupply}
    (flattened : ofExpr expression supply = .ok (flat, rest)) {event : Event}
    (loud : event.isQuiet = false) :
    event ∈ Flattened.events flat ↔ event ∈ expression.events := by
  have overlooks : Overlooks (fun event => !event.isQuiet) supply.issued := ⟨rfl, fun _ _ => rfl⟩
  have same := ofExpr_events expression overlooks flattened
  have member : event ∈ (Flattened.events flat).filter (fun event => !event.isQuiet) ↔
      event ∈ expression.events.filter fun event => !event.isQuiet := by rw [same]
  simpa [List.mem_filter, loud] using member

/-- The statements of a flattened expression assign only temporaries of the expression and
those that flattening draws for it. -/
theorem not_mem_before_of_fresh {expression : Expr} {flat : Flattened} {supply rest : TempSupply}
    {temp : Temp} (flattened : ofExpr expression supply = .ok (flat, rest))
    (absent : temp ∉ expression.temps)
    (fresh : temp.number < supply.issued ∨ rest.issued ≤ temp.number) (source : Expr) :
    .move (.temp temp) source ∉ flat.before := by
  intro member
  have hides : HidesDrawn (fun event => decide (event = .assign temp)) supply.issued
      rest.issued := by
    intro other above below
    refine decide_eq_false fun same => ?_
    obtain rfl := Event.assign.inj same
    omega
  have same := ofExpr_lasting expression hides flattened
  have isEvent : .assign temp ∈ Flattened.events flat :=
    List.mem_append_left _ (Stmt.mem_eventsOfList.mpr
      ⟨_, member, by simp [Stmt.events, Expr.storeEvents]⟩)
  have isSeen : .assign temp ∈
      (Flattened.events flat).filter fun event => decide (event = .assign temp) :=
    List.mem_filter.mpr ⟨isEvent, decide_eq_true rfl⟩
  rw [same] at isSeen
  have original := expression.marks.mem_of_lasting (List.mem_filter.mp isSeen).1
  exact absent (expression.mem_temps_of_assign original)

theorem ofExpr_of_ofStmt {statement : Stmt} {flat : List Stmt} {supply rest : TempSupply}
    (flattened : ofStmt statement supply = .ok (flat, rest)) :
    ofExpr (.eseq statement (.const 0)) supply = .ok (⟨flat, .const 0⟩, rest) :=
  ofExpr_eseq_eq_ok.mpr
    ⟨flat, rest, ⟨[], .const 0⟩, flattened, ofExpr_const_eq_ok.mpr ⟨rfl, rfl⟩, by simp⟩

/-- A flattened statement assigns only temporaries of the statement and those that flattening
draws for it. -/
theorem not_mem_of_fresh {statement : Stmt} {flat : List Stmt} {supply rest : TempSupply}
    {temp : Temp} (flattened : ofStmt statement supply = .ok (flat, rest))
    (absent : temp ∉ statement.temps)
    (fresh : temp.number < supply.issued ∨ rest.issued ≤ temp.number) (source : Expr) :
    .move (.temp temp) source ∉ flat :=
  not_mem_before_of_fresh (ofExpr_of_ofStmt flattened) (by simpa [Expr.temps] using absent) fresh
    source

end Trees

/-! ### Exactly the events -/

def isDrawn (supply rest : TempSupply) : Event → Bool
  | .assign temp => decide (supply.issued ≤ temp.number ∧ temp.number < rest.issued)
  | .label _ | .jump _ | .branch .. | .call .. | .compute _ | .load | .store => false

/-- Flattening keeps every event of a statement, once and in order, if the assignments to
drawn temporaries are not counted.  The only loads that are missing afterwards are idle
ones: the last load of an expression whose value is discarded, from an address of which
flattening leaves a bare temporary. -/
theorem ofStmt_keeps_events {statement : Stmt} {flat : List Stmt} {supply rest : TempSupply}
    (below : ∀ temp ∈ statement.temps, temp.number < supply.issued)
    (flattened : ofStmt statement supply = .ok (flat, rest)) :
    let kept := (Stmt.eventsOfList flat).filter fun event => !isDrawn supply rest event
    kept.filter (· ≠ .load) = statement.events.filter (· ≠ .load) ∧
      kept = lasting statement.occurrences ∧
      IR.Marks statement.occurrences statement.events ∧
      ∀ address place supply rest, ofExpr address supply = .ok (place, rest) →
        (address.lastTemp?.isSome = true ↔ ∃ temp, place.value = .temp temp) := by
  intro kept
  have hides : HidesDrawn (fun event => !isDrawn supply rest event) supply.issued rest.issued :=
    fun temp above below => by simp [isDrawn, above, below]
  have isLasting : kept = lasting statement.occurrences := by
    refine (ofStmt_lasting statement hides flattened).trans (List.filter_eq_self.mpr ?_)
    intro event member
    have isEvent := statement.marks.mem_of_lasting member
    cases event with
    | assign temp =>
        have older := below temp (statement.mem_temps_of_assign isEvent)
        simp [isDrawn, Nat.not_le.mpr older]
    | _ => rfl
  refine ⟨?_, isLasting, statement.marks, fun address place supply rest flattens => ?_⟩
  · rw [isLasting]
    exact statement.marks.filter_lasting (by simp)
  · rw [Option.isSome_iff_exists]
    exact exists_congr fun temp => (ofExpr_value_eq_temp_iff flattens).symm

/-- The statement waits for the value of an operand that loops: the loop comes first, the
value of the operand to its left is kept before it, and the load through a temporary is
dropped. -/
theorem ofStmt_keeps_events_loop_in_operand :
    let cell : Expr := .mem .framePointer
    let loop : Stmt := .seq [.label (.anonymous 0), .exp (.mem (.temp ⟨0⟩)),
      .cjump (.call (.named "f") [cell]) (.anonymous 0) (.anonymous 1), .label (.anonymous 1)]
    let statement : Stmt := .move (.temp ⟨0⟩) (.binop .add cell (.eseq loop cell))
    let flat : List Stmt := [.move (.temp ⟨1⟩) cell, .label (.anonymous 0),
      .cjump (.call (.named "f") [cell]) (.anonymous 0) (.anonymous 1), .label (.anonymous 1),
      .move (.temp ⟨0⟩) (.binop .add (.temp ⟨1⟩) cell)]
    (∀ temp ∈ statement.temps, temp.number < 1) ∧ ofStmt statement ⟨1⟩ = .ok (flat, ⟨2⟩) ∧
      let kept := (Stmt.eventsOfList flat).filter fun event => !isDrawn ⟨1⟩ ⟨2⟩ event
      kept.filter (· ≠ .load) = statement.events.filter (· ≠ .load) ∧
        kept = lasting statement.occurrences ∧
        IR.Marks statement.occurrences statement.events ∧
        ∀ address place supply rest, ofExpr address supply = .ok (place, rest) →
          (address.lastTemp?.isSome = true ↔ ∃ temp, place.value = .temp temp) := by
  intro cell loop statement flat
  have below : ∀ temp ∈ statement.temps, temp.number < (⟨1⟩ : TempSupply).issued := by decide
  have flattened : ofStmt statement ⟨1⟩ = .ok (flat, ⟨2⟩) := rfl
  exact ⟨below, flattened, ofStmt_keeps_events below flattened⟩

end TreeBackend.Flattening
