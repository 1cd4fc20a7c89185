import TreeBackend.Proofs.Flattening.Plain
import TreeBackend.Proofs.Flattening.Supply

/-!
# Drawn temporaries are used once

A temporary that flattening draws keeps one value for one statement: it is assigned
once, and read once after that.  For each temporary that the tree does not mention,
what flattening does with it is the same at every place.  It uses the temporary in
this way if it draws it, and leaves it alone otherwise.
-/

namespace TreeBackend

open IR (Expr Stmt Temp TempSupply Chunk)

/-- A use of a temporary. -/
inductive IR.Use where
  | assign
  | read
  deriving DecidableEq, Repr

open IR (Use)

def IR.Expr.uses (temp : Temp) (expression : Expr) : List Use :=
  List.replicate (expression.temps.count temp) .read

/-- The uses of a temporary in a plain statement, in the order in which they happen. -/
def IR.Stmt.uses (temp : Temp) : Stmt → List Use
  | .move (.temp target) source => source.uses temp ++ if target = temp then [.assign] else []
  | statement => List.replicate (statement.temps.count temp) .read

def IR.Stmt.usesOfList (temp : Temp) (statements : List Stmt) : List Use :=
  statements.flatMap (Stmt.uses temp)

section Uses

variable {temp : Temp}

@[simp]
theorem IR.Expr.uses_eq_nil_iff {expression : Expr} :
    expression.uses temp = [] ↔ temp ∉ expression.temps := by
  rw [Expr.uses, List.replicate_eq_nil_iff, List.count_eq_zero]

theorem IR.Expr.tempsOfList_append (first second : List Expr) :
    Expr.tempsOfList (first ++ second) = Expr.tempsOfList first ++ Expr.tempsOfList second := by
  induction first with
  | nil => rfl
  | cons expression rest ih => simp [Expr.tempsOfList, ih]

theorem IR.Expr.uses_binop {operator : Operator} {left right : Expr} :
    (Expr.binop operator left right).uses temp = left.uses temp ++ right.uses temp := by
  simp [Expr.uses, Expr.temps]

@[simp]
theorem IR.Stmt.uses_eq_nil_iff {statement : Stmt} :
    statement.uses temp = [] ↔ temp ∉ statement.temps := by
  unfold Stmt.uses
  split
  · simp [Stmt.temps, Expr.temps, @eq_comm _ temp, and_comm]
  · simp [List.count_eq_zero]

@[simp]
theorem IR.Stmt.usesOfList_append {first second : List Stmt} :
    Stmt.usesOfList temp (first ++ second) =
      Stmt.usesOfList temp first ++ Stmt.usesOfList temp second :=
  List.flatMap_append

@[simp]
theorem IR.Stmt.usesOfList_singleton {statement : Stmt} :
    Stmt.usesOfList temp [statement] = statement.uses temp :=
  List.flatMap_singleton _ _

theorem IR.Stmt.usesOfList_eq_nil_iff {statements : List Stmt} :
    Stmt.usesOfList temp statements = [] ↔ temp ∉ Stmt.tempsOfList statements := by
  induction statements with
  | nil => simp [Stmt.usesOfList, Stmt.tempsOfList]
  | cons statement rest ih =>
      rw [Stmt.usesOfList] at ih
      simp [Stmt.usesOfList, Stmt.tempsOfList, ih]

end Uses

namespace Flattening

/-- The uses of a temporary in a flattened expression: first in its statements. -/
def Flattened.uses (temp : Temp) (flat : Flattened) : List Use :=
  Stmt.usesOfList temp flat.before ++ flat.value.uses temp

def FlattenedOperands.uses (temp : Temp) (flat : FlattenedOperands) : List Use :=
  Stmt.usesOfList temp flat.before ++
    List.replicate ((Expr.tempsOfList flat.values).count temp) .read

/-- The uses of a temporary where the ones from a first number up to a last one are
drawn. -/
def usesDrawn (temp : Temp) (first last : Nat) : List Use :=
  if first ≤ temp.number ∧ temp.number < last then [.assign, .read] else []

variable {temp : Temp}

theorem usesDrawn_self {number : Nat} : usesDrawn temp number number = [] :=
  if_neg fun drawn => Nat.lt_irrefl _ (Nat.lt_of_le_of_lt drawn.1 drawn.2)

theorem usesDrawn_eq_nil {first last : Nat} (idle : ¬(first ≤ temp.number ∧ temp.number < last)) :
    usesDrawn temp first last = [] :=
  if_neg idle

theorem usesDrawn_append {first middle last : Nat} (le : first ≤ middle) (le' : middle ≤ last) :
    usesDrawn temp first middle ++ usesDrawn temp middle last = usesDrawn temp first last := by
  unfold usesDrawn
  grind

/-! ### Operands -/

section Operands

variable {supply rest : TempSupply}

theorem keepAll_uses (temp : Temp) {values : List Expr} {kept : FlattenedOperands}
    (keeps : keepAll values supply = .ok (kept, rest)) :
    (¬(supply.issued ≤ temp.number ∧ temp.number < rest.issued) →
      ∃ early, Stmt.usesOfList temp kept.before = List.replicate early .read ∧
        early + (Expr.tempsOfList kept.values).count temp =
          (Expr.tempsOfList values).count temp) ∧
    (supply.issued ≤ temp.number → temp.number < rest.issued →
      temp ∉ Expr.tempsOfList values →
      Stmt.usesOfList temp kept.before = [.assign] ∧
        (Expr.tempsOfList kept.values).count temp = 1) := by
  induction values generalizing supply kept with
  | nil =>
      obtain ⟨rfl, rfl⟩ := keepAll_nil_eq_ok.mp keeps
      exact ⟨fun _ => ⟨0, rfl, rfl⟩, fun above below => absurd (below.trans_le above) (lt_irrefl _)⟩
  | cons value values ih =>
      obtain ⟨head, middle, tail, headKeeps, tailKeeps, rfl⟩ := keepAll_cons_eq_ok.mp keeps
      obtain ⟨tailIdle, tailDrawn⟩ := ih tailKeeps
      have le := (keepAll_issued tailKeeps).1
      simp only [Expr.tempsOfList, List.count_append, List.mem_append, not_or,
        Stmt.usesOfList_append]
      by_cases fixed : value.isFixed = true
      · obtain ⟨rfl, rfl⟩ := keep_of_isFixed fixed headKeeps
        refine ⟨fun idle => ?_, fun above below absent => ?_⟩
        · obtain ⟨early, same, total⟩ := tailIdle idle
          exact ⟨early, same, by dsimp only; omega⟩
        · obtain ⟨same, once⟩ := tailDrawn above below absent.2
          exact ⟨same, by simp [once, List.count_eq_zero_of_not_mem absent.1]⟩
      · obtain ⟨rfl, rfl⟩ := keep_of_not_isFixed fixed headKeeps
        have drawn : supply.next.number + 1 ≤ rest.issued := le
        simp only [Expr.temps, Stmt.usesOfList_singleton, Stmt.uses, List.count_singleton,
          beq_iff_eq]
        refine ⟨fun idle => ?_, fun above below absent => ?_⟩
        · have other : supply.next ≠ temp := by
            rintro rfl
            exact idle ⟨Nat.le_refl _, drawn⟩
          obtain ⟨early, same, total⟩ := tailIdle fun inTail =>
            idle ⟨Nat.le_of_succ_le inTail.1, inTail.2⟩
          refine ⟨value.temps.count temp + early, ?_, ?_⟩
          · simp [same, other, Expr.uses]
          · simp [other]
            omega
        · have unread : value.uses temp = [] := Expr.uses_eq_nil_iff.mpr absent.1
          by_cases first : supply.next = temp
          · obtain ⟨early, same, total⟩ := tailIdle fun inTail =>
              absurd inTail.1 (by simp [← first, TempSupply.next, TempSupply.rest])
            rw [List.count_eq_zero_of_not_mem absent.2] at total
            obtain ⟨rfl, unreadTail⟩ := Nat.add_eq_zero_iff.mp total
            simp [same, first, unread, unreadTail]
          · have inTail : supply.rest.issued ≤ temp.number :=
              Nat.lt_of_le_of_ne above fun same => first (by rw [TempSupply.next, same])
            obtain ⟨same, once⟩ := tailDrawn inTail below absent.2
            simp [same, first, unread, once]

/-- Operands are put behind each other after both have been flattened.  No temporary is
used by both of them, and what is drawn now is used by neither. -/
theorem append_uses {operands result : FlattenedOperands} {next : Flattened} {first middle : Nat}
    (appended : append operands next supply = .ok (result, rest))
    (le : first ≤ middle) (le' : middle ≤ supply.issued)
    (used : FlattenedOperands.uses temp operands = usesDrawn temp first middle)
    (nextUsed : Flattened.uses temp next = usesDrawn temp middle supply.issued) :
    FlattenedOperands.uses temp result = usesDrawn temp first rest.issued := by
  have restLe := (append_issued appended).1
  have joined : usesDrawn temp first rest.issued =
      FlattenedOperands.uses temp operands ++ Flattened.uses temp next ++
        usesDrawn temp supply.issued rest.issued := by
    rw [used, nextUsed, usesDrawn_append le le', usesDrawn_append (le.trans le') restLe]
  by_cases quiet : next.before = []
  · obtain ⟨rfl, rfl⟩ := append_of_nil quiet appended
    rw [joined, usesDrawn_self]
    simp [FlattenedOperands.uses, Flattened.uses, quiet, Expr.uses, Expr.tempsOfList_append,
      Expr.tempsOfList, Stmt.usesOfList]
  · obtain ⟨kept, keeps, rfl⟩ := append_of_ne_nil quiet appended
    obtain ⟨idle, drawn⟩ := keepAll_uses temp keeps
    have laidOut : FlattenedOperands.uses temp ⟨operands.before ++ kept.before ++ next.before,
        kept.values ++ [next.value]⟩ =
        Stmt.usesOfList temp operands.before ++ Stmt.usesOfList temp kept.before ++
          Stmt.usesOfList temp next.before ++
          List.replicate ((Expr.tempsOfList kept.values).count temp) .read ++
          next.value.uses temp := by
      simp [FlattenedOperands.uses, Expr.uses, Expr.tempsOfList_append, Expr.tempsOfList]
    rw [laidOut, joined]
    unfold FlattenedOperands.uses Flattened.uses at *
    by_cases now : supply.issued ≤ temp.number ∧ temp.number < rest.issued
    · rw [usesDrawn_eq_nil (by omega), List.append_eq_nil_iff, List.replicate_eq_nil_iff,
        List.count_eq_zero] at used
      rw [usesDrawn_eq_nil (by omega), List.append_eq_nil_iff] at nextUsed
      obtain ⟨assigned, once⟩ := drawn now.1 now.2 used.2
      simp [used, nextUsed, assigned, once, usesDrawn, now, List.count_eq_zero_of_not_mem used.2]
    · obtain ⟨early, same, total⟩ := idle now
      rw [usesDrawn_eq_nil now, same, ← total]
      by_cases earlier : temp.number < middle
      · rw [usesDrawn_eq_nil (by omega), List.append_eq_nil_iff] at nextUsed
        simp [nextUsed]
      · rw [usesDrawn_eq_nil (by omega), List.append_eq_nil_iff, List.replicate_eq_nil_iff,
          ← total] at used
        obtain ⟨rfl, unread⟩ := Nat.add_eq_zero_iff.mp used.2
        simp [used.1, unread]

theorem pair_uses {first second : Flattened} {before : List Stmt} {left right : Expr}
    {start middle : Nat} (paired : pair first second supply = .ok ((before, left, right), rest))
    (le : start ≤ middle) (le' : middle ≤ supply.issued)
    (used : Flattened.uses temp first = usesDrawn temp start middle)
    (nextUsed : Flattened.uses temp second = usesDrawn temp middle supply.issued) :
    Stmt.usesOfList temp before ++ (left.uses temp ++ right.uses temp) =
      usesDrawn temp start rest.issued := by
  have together := append_uses (pair_eq_ok.mp paired) le le'
    (by simpa [FlattenedOperands.uses, Flattened.uses, Expr.uses, Expr.tempsOfList] using used)
    nextUsed
  simpa [FlattenedOperands.uses, Expr.uses, Expr.tempsOfList] using together

end Operands

/-- A value that is left out uses no temporary that the expression does not mention. -/
theorem not_mem_temps_of_isDiscardable : (expression : Expr) → {flat : Flattened} →
    {supply rest : TempSupply} → ofExpr expression supply = .ok (flat, rest) →
    temp ∉ expression.temps → isDiscardable flat.value = true → temp ∉ flat.value.temps
  | .const _, _, _, _, flattened, _, _ => by
      obtain ⟨rfl, -⟩ := ofExpr_const_eq_ok.mp flattened
      simp [Expr.temps]
  | .name _, _, _, _, flattened, _, _ => by
      obtain ⟨rfl, -⟩ := ofExpr_name_eq_ok.mp flattened
      simp [Expr.temps]
  | .temp _, _, _, _, flattened, absent, _ => by
      obtain ⟨rfl, -⟩ := ofExpr_temp_eq_ok.mp flattened
      exact absent
  | .mem address, _, _, _, flattened, absent, discardable => by
      obtain ⟨place, flattens, rfl⟩ := ofExpr_mem_eq_ok.mp flattened
      cases value : place.value with
      | temp last =>
          have ends := (ofExpr_value_eq_temp_iff flattens).mp value
          have other : last ≠ temp := by
            rintro rfl
            have member := Expr.mem_temps_of_lastTemp? ends
            exact absent member
          simpa [value, Expr.temps, eq_comm] using other
      | const _ | name _ | mem _ | binop _ _ _ | call _ _ | eseq _ _ =>
          simp [isDiscardable, value, Expr.isFixed] at discardable
  | .binop .., _, _, _, flattened, _, discardable => by
      obtain ⟨_, _, _, _, _, _, _, -, -, -, rfl⟩ := ofExpr_binop_eq_ok.mp flattened
      simp [isDiscardable, Expr.isFixed] at discardable
  | .call .., _, _, _, flattened, _, discardable => by
      obtain ⟨_, -, rfl⟩ := ofExpr_call_eq_ok.mp flattened
      simp [isDiscardable, Expr.isFixed] at discardable
  | .eseq _ value, _, _, _, flattened, absent, discardable => by
      obtain ⟨_, _, last, -, flattens, rfl⟩ := ofExpr_eseq_eq_ok.mp flattened
      have unused : temp ∉ last.value.temps := not_mem_temps_of_isDiscardable value flattens
        (fun member => absent (List.mem_append_right _ member)) discardable
      exact unused

mutual

theorem ofStmt_uses : (statement : Stmt) → {flat : List Stmt} → {supply rest : TempSupply} →
    ofStmt statement supply = .ok (flat, rest) → temp ∉ statement.temps →
    Stmt.usesOfList temp flat = usesDrawn temp supply.issued rest.issued
  | .seq items, _, _, _, flattened, absent =>
      ofStmts_uses items (by rwa [ofStmt_seq] at flattened) absent
  | .label _, _, _, _, flattened, _ => by
      obtain ⟨rfl, rfl⟩ := ofStmt_label_eq_ok.mp flattened
      rw [usesDrawn_self]
      rfl
  | .jump _, _, _, _, flattened, _ => by
      obtain ⟨rfl, rfl⟩ := ofStmt_jump_eq_ok.mp flattened
      rw [usesDrawn_self]
      rfl
  | .cjump condition _ _, _, _, _, flattened, absent => by
      obtain ⟨test, flattens, rfl⟩ := ofStmt_cjump_eq_ok.mp flattened
      have used := ofExpr_uses condition flattens absent
      rw [Stmt.usesOfList_append, Stmt.usesOfList_singleton]
      exact used
  | .exp value, _, _, _, flattened, absent => by
      obtain ⟨last, flattens, rfl⟩ := ofStmt_exp_eq_ok.mp flattened
      have used := ofExpr_uses value flattens absent
      split
      · next discardable =>
          have unused := not_mem_temps_of_isDiscardable value flattens absent discardable
          rwa [Flattened.uses, Expr.uses_eq_nil_iff.mpr unused, List.append_nil] at used
      · rw [Stmt.usesOfList_append, Stmt.usesOfList_singleton]
        exact used
  | .move target source, _, _, _, flattened, absent => by
      simp only [Stmt.temps, List.mem_append, not_or] at absent
      exact ofMove_uses target
        (fun flattens => ⟨ofExpr_uses source flattens absent.2, ofExpr_issued_le source flattens⟩)
        (by rwa [ofStmt_move] at flattened) absent.1

theorem ofStmts_uses : (statements : List Stmt) → {flat : List Stmt} →
    {supply rest : TempSupply} → ofStmts statements supply = .ok (flat, rest) →
    temp ∉ Stmt.tempsOfList statements →
    Stmt.usesOfList temp flat = usesDrawn temp supply.issued rest.issued
  | [], _, _, _, flattened, _ => by
      obtain ⟨rfl, rfl⟩ := ofStmts_nil_eq_ok.mp flattened
      rw [usesDrawn_self]
      rfl
  | statement :: others, _, _, _, flattened, absent => by
      obtain ⟨_, _, _, first, last, rfl⟩ := ofStmts_cons_eq_ok.mp flattened
      simp only [Stmt.tempsOfList, List.mem_append, not_or] at absent
      rw [Stmt.usesOfList_append, ofStmt_uses statement first absent.1,
        ofStmts_uses others last absent.2,
        usesDrawn_append (ofStmt_issued_le statement first) (ofStmts_issued_le others last)]

theorem ofMove_uses : (target : Expr) → {source : Flattening Flattened} →
    (sourceUses : ∀ {flat : Flattened} {supply rest : TempSupply},
      source supply = .ok (flat, rest) →
      Flattened.uses temp flat = usesDrawn temp supply.issued rest.issued ∧
        supply.issued ≤ rest.issued) →
    {flat : List Stmt} → {supply rest : TempSupply} →
    ofMove source target supply = .ok (flat, rest) → temp ∉ target.temps →
    Stmt.usesOfList temp flat = usesDrawn temp supply.issued rest.issued
  | .temp other, _, sourceUses, _, _, _, flattened, absent => by
      obtain ⟨value, flattens, rfl⟩ := ofMove_temp_eq_ok.mp flattened
      have different : other ≠ temp := by
        rintro rfl
        exact absent (List.mem_singleton_self _)
      rw [← (sourceUses flattens).1]
      simp [Stmt.uses, Flattened.uses, different]
  | .mem address, _, sourceUses, _, _, _, flattened, absent => by
      obtain ⟨place, _, value, _, before, left, right, placed, valued, paired, rfl⟩ :=
        ofMove_mem_eq_ok.mp flattened
      obtain ⟨valueUses, le⟩ := sourceUses valued
      have together := pair_uses paired (ofExpr_issued_le address placed) le
        (ofExpr_uses address placed absent) valueUses
      rw [← together]
      simp [Stmt.uses, Stmt.temps, Expr.uses, Expr.temps]
  | .eseq effect value, _, sourceUses, _, _, _, flattened, absent => by
      obtain ⟨_, _, _, first, last, rfl⟩ := ofMove_eseq_eq_ok.mp flattened
      simp only [Expr.temps, List.mem_append, not_or] at absent
      rw [Stmt.usesOfList_append, ofStmt_uses effect first absent.1,
        ofMove_uses value sourceUses last absent.2,
        usesDrawn_append (ofStmt_issued_le effect first)
          (ofMove_issued_le value (fun flattens => (sourceUses flattens).2) last)]
  | .const _, _, _, _, _, _, flattened, _ | .name _, _, _, _, _, _, flattened, _
  | .binop .., _, _, _, _, _, flattened, _ | .call .., _, _, _, _, _, flattened, _ => by
      cases flattened

theorem ofExpr_uses : (expression : Expr) → {flat : Flattened} → {supply rest : TempSupply} →
    ofExpr expression supply = .ok (flat, rest) → temp ∉ expression.temps →
    Flattened.uses temp flat = usesDrawn temp supply.issued rest.issued
  | .const _, _, _, _, flattened, _ => by
      obtain ⟨rfl, rfl⟩ := ofExpr_const_eq_ok.mp flattened
      rw [usesDrawn_self]
      rfl
  | .name _, _, _, _, flattened, _ => by
      obtain ⟨rfl, rfl⟩ := ofExpr_name_eq_ok.mp flattened
      rw [usesDrawn_self]
      rfl
  | .temp _, _, _, _, flattened, absent => by
      obtain ⟨rfl, rfl⟩ := ofExpr_temp_eq_ok.mp flattened
      rw [usesDrawn_self]
      exact Expr.uses_eq_nil_iff.mpr absent
  | .mem address, _, _, _, flattened, absent => by
      obtain ⟨_, place, rfl⟩ := ofExpr_mem_eq_ok.mp flattened
      have used := ofExpr_uses address place absent
      exact used
  | .binop _ left right, _, _, _, flattened, absent => by
      obtain ⟨_, _, _, _, _, _, _, first, second, paired, rfl⟩ := ofExpr_binop_eq_ok.mp flattened
      simp only [Expr.temps, List.mem_append, not_or] at absent
      rw [Flattened.uses, Expr.uses_binop]
      exact pair_uses paired (ofExpr_issued_le left first) (ofExpr_issued_le right second)
        (ofExpr_uses left first absent.1) (ofExpr_uses right second absent.2)
  | .call _ arguments, _, _, _, flattened, absent => by
      obtain ⟨_, operands, rfl⟩ := ofExpr_call_eq_ok.mp flattened
      exact ofOperands_uses arguments operands absent (Nat.le_refl _) usesDrawn_self.symm
  | .eseq effect value, _, _, _, flattened, absent => by
      obtain ⟨_, _, _, first, last, rfl⟩ := ofExpr_eseq_eq_ok.mp flattened
      simp only [Expr.temps, List.mem_append, not_or] at absent
      have used := ofExpr_uses value last absent.2
      rw [Flattened.uses] at used
      rw [Flattened.uses, Stmt.usesOfList_append, List.append_assoc, used,
        ofStmt_uses effect first absent.1,
        usesDrawn_append (ofStmt_issued_le effect first) (ofExpr_issued_le value last)]

theorem ofOperands_uses : (operands : List Expr) → {done flat : FlattenedOperands} →
    {start : Nat} → {supply rest : TempSupply} →
    ofOperands done operands supply = .ok (flat, rest) → temp ∉ Expr.tempsOfList operands →
    start ≤ supply.issued →
    FlattenedOperands.uses temp done = usesDrawn temp start supply.issued →
    FlattenedOperands.uses temp flat = usesDrawn temp start rest.issued
  | [], _, _, _, _, _, flattened, _, _, used => by
      obtain ⟨rfl, rfl⟩ := ofOperands_nil_eq_ok.mp flattened
      exact used
  | operand :: others, _, _, _, _, _, flattened, absent, le, used => by
      obtain ⟨_, _, _, _, first, appended, last⟩ := ofOperands_cons_eq_ok.mp flattened
      simp only [Expr.tempsOfList, List.mem_append, not_or] at absent
      have firstLe := ofExpr_issued_le operand first
      exact ofOperands_uses others last absent.2
        ((le.trans firstLe).trans (append_issued appended).1)
        (append_uses appended le firstLe used (ofExpr_uses operand first absent.1))

end

/-! ### Where the uses are -/

mutual

theorem assigned_of_isPlain :
    (expression : Expr) → expression.isPlain = true → expression.assigned = []
  | .const _, _ | .name _, _ | .temp _, _ => rfl
  | .mem address, plain => assigned_of_isPlain address plain
  | .binop _ left right, plain => by
      rw [Expr.isPlain, Bool.and_eq_true] at plain
      rw [Expr.assigned, assigned_of_isPlain left plain.1, assigned_of_isPlain right plain.2,
        List.nil_append]
  | .call _ arguments, plain => assignedOfList_of_arePlain arguments plain

theorem assignedOfList_of_arePlain :
    (expressions : List Expr) → Expr.arePlain expressions = true →
      Expr.assignedOfList expressions = []
  | [], _ => rfl
  | expression :: rest, plain => by
      rw [Expr.arePlain, Bool.and_eq_true] at plain
      rw [Expr.assignedOfList, assigned_of_isPlain expression plain.1,
        assignedOfList_of_arePlain rest plain.2, List.nil_append]

end

def ReadsOnce (temp : Temp) (statement : Stmt) : Prop :=
  statement.temps.count temp = 1 ∧ temp ∉ statement.assigned

/-- A temporary is assigned by one statement, read once by a later one, and used nowhere
else. -/
def IsUsedOnce (temp : Temp) (items : List Stmt) : Prop :=
  ∃ before source between user after,
    items = before ++ .move (.temp temp) source :: (between ++ user :: after) ∧
    ReadsOnce temp user ∧ temp ∉ source.temps ∧
    ∀ statement ∈ before ++ between ++ after, temp ∉ statement.temps

theorem exists_of_usesOfList_eq_cons {items : List Stmt} {use : Use} {uses : List Use}
    (used : Stmt.usesOfList temp items = use :: uses) :
    ∃ before statement after more, items = before ++ statement :: after ∧
      (∀ other ∈ before, temp ∉ other.temps) ∧ statement.uses temp = use :: more ∧
      uses = more ++ Stmt.usesOfList temp after := by
  rw [Stmt.usesOfList, List.flatMap_def, List.flatten_eq_cons_iff] at used
  obtain ⟨unused, more, others, split, quiet, rfl⟩ := used
  obtain ⟨before, behind, rfl, rfl, behindUses⟩ := List.map_eq_append_iff.mp split
  obtain ⟨statement, after, rfl, first, rfl⟩ := List.map_eq_cons_iff.mp behindUses
  refine ⟨before, statement, after, more, rfl, fun other member => ?_, first, rfl⟩
  exact Stmt.uses_eq_nil_iff.mp (quiet _ (List.mem_map_of_mem member))

/-- A temporary is assigned at the end of a store to it, and read anywhere else. -/
theorem uses_cases (temp : Temp) (statement : Stmt) :
    (∃ source, statement = .move (.temp temp) source ∧
      statement.uses temp = source.uses temp ++ [.assign]) ∨
    ((∀ source, statement ≠ .move (.temp temp) source) ∧
      statement.uses temp = List.replicate (statement.temps.count temp) .read) := by
  unfold Stmt.uses
  split
  · next target source =>
      by_cases same : target = temp
      · subst same
        exact .inl ⟨source, rfl, by rw [if_pos rfl]⟩
      · refine .inr ⟨fun other stores => same (by cases stores; rfl), ?_⟩
        simp [same, Stmt.temps, Expr.temps, Expr.uses]
  · next other => exact .inr ⟨fun source => other temp source, rfl⟩

/-- A statement that assigns a temporary before it reads it does not read it. -/
theorem eq_move_of_uses_eq_cons {statement : Stmt} {uses : List Use}
    (used : statement.uses temp = .assign :: uses) :
    ∃ source, statement = .move (.temp temp) source ∧ temp ∉ source.temps ∧ uses = [] := by
  obtain ⟨source, rfl, shape⟩ | ⟨-, shape⟩ := uses_cases temp statement
  · rw [shape, Expr.uses] at used
    cases reads : source.temps.count temp with
    | zero =>
        rw [reads] at used
        cases used
        exact ⟨source, rfl, List.count_eq_zero.mp reads, rfl⟩
    | succ others =>
        rw [reads] at used
        cases used
  · have assigns : Use.assign ∈ statement.uses temp := by simp [used]
    rw [shape] at assigns
    cases List.eq_of_mem_replicate assigns

theorem not_mem_assigned_of_isPlain {statement : Stmt} (plain : statement.isPlain = true)
    (other : ∀ source, statement ≠ .move (.temp temp) source) : temp ∉ statement.assigned := by
  cases statement with
  | seq _ => cases plain
  | label _ | jump _ => simp [Stmt.assigned]
  | cjump condition _ _ => simp [Stmt.assigned, assigned_of_isPlain condition plain]
  | exp value => simp [Stmt.assigned, assigned_of_isPlain value plain]
  | move target source =>
      rw [Stmt.isPlain, Bool.and_eq_true] at plain
      rw [Stmt.assigned, assigned_of_isPlain source plain.2, List.append_nil]
      cases target with
      | temp place =>
          have different : temp ≠ place := by
            rintro rfl
            exact other source rfl
          simpa [Expr.assignedAsTarget] using different
      | mem address => simp [Expr.assignedAsTarget, assigned_of_isPlain address plain.1]
      | eseq _ _ => cases plain.1
      | const _ | name _ | binop _ _ _ | call _ _ => simp [Expr.assignedAsTarget]

theorem readsOnce_of_uses_eq_singleton {statement : Stmt} (plain : statement.isPlain = true)
    (used : statement.uses temp = [.read]) : ReadsOnce temp statement := by
  obtain ⟨source, rfl, shape⟩ | ⟨other, shape⟩ := uses_cases temp statement
  · have assigns : Use.assign ∈ [Use.read] := by
      rw [← used, shape]
      exact List.mem_append_right _ (List.mem_singleton_self _)
    cases List.mem_singleton.mp assigns
  · have once := congrArg List.length (shape.symm.trans used)
    rw [List.length_replicate] at once
    exact ⟨once, not_mem_assigned_of_isPlain plain other⟩

theorem isUsedOnce_of_uses {items : List Stmt} (plain : ArePlain items)
    (used : Stmt.usesOfList temp items = [.assign, .read]) : IsUsedOnce temp items := by
  obtain ⟨before, store, behind, more, rfl, unusedBefore, stores, rest⟩ :=
    exists_of_usesOfList_eq_cons used
  obtain ⟨source, rfl, unread, rfl⟩ := eq_move_of_uses_eq_cons stores
  obtain ⟨between, user, after, more, rfl, unusedBetween, reads, rest⟩ :=
    exists_of_usesOfList_eq_cons rest.symm
  obtain ⟨rfl, unusedAfter⟩ := List.append_eq_nil_iff.mp rest.symm
  refine ⟨before, source, between, user, after, rfl,
    readsOnce_of_uses_eq_singleton (plain user (by simp)) reads, unread, fun statement member => ?_⟩
  simp only [List.mem_append] at member
  obtain (member | member) | member := member
  · exact unusedBefore statement member
  · exact unusedBetween statement member
  · exact Stmt.uses_eq_nil_iff.mp (List.flatMap_eq_nil_iff.mp unusedAfter statement member)

end Flattening

/-! ### Chunks -/

def IR.Chunk.temps : Chunk → List Temp
  | .code _ body => body.temps
  | .data .. | .global _ => []

def IR.Chunk.withoutBody : Chunk → Chunk
  | .code frame _ => .code frame (.seq [])
  | chunk => chunk

namespace Flattening

def IsUsedOnceIn (temp : Temp) (chunks : List Chunk) : Prop :=
  ∃ front frame items back, chunks = front ++ .code frame (.seq items) :: back ∧
    IsUsedOnce temp items ∧ ∀ chunk ∈ front ++ back, temp ∉ chunk.temps

theorem mem_temps_of_isUsedOnceIn {chunks : List Chunk} (used : IsUsedOnceIn temp chunks) :
    ∃ chunk ∈ chunks, temp ∈ chunk.temps := by
  obtain ⟨front, frame, _, back, rfl, ⟨before, source, between, user, after, rfl, -⟩, -⟩ := used
  refine ⟨_, List.mem_append_right _ (List.mem_cons_self ..), ?_⟩
  by_contra absent
  have unused := List.flatMap_eq_nil_iff.mp (Stmt.usesOfList_eq_nil_iff.mpr absent)
    (.move (.temp temp) source) (by simp)
  exact Stmt.uses_eq_nil_iff.mp unused (List.mem_cons_self ..)

/-- A chunk keeps its kind, its label and its frame.  The temporaries that are drawn for
it are used once in it, and no other ones are new. -/
theorem ofChunk_uses (temp : Temp) {chunk flat : Chunk} {supply rest : TempSupply}
    (flattened : ofChunk chunk supply = .ok (flat, rest)) :
    flat.withoutBody = chunk.withoutBody ∧ supply.issued ≤ rest.issued ∧
    (temp ∉ chunk.temps →
      (¬(supply.issued ≤ temp.number ∧ temp.number < rest.issued) → temp ∉ flat.temps) ∧
      (supply.issued ≤ temp.number → temp.number < rest.issued →
        ∃ frame items, flat = .code frame (.seq items) ∧ IsUsedOnce temp items)) := by
  cases chunk with
  | code frame body =>
      simp only [ofChunk, bind_eq_ok, pure_eq_ok] at flattened
      obtain ⟨items, last, flattens, rfl, rfl⟩ := flattened
      refine ⟨rfl, ofStmt_issued_le body flattens, fun absent => ?_⟩
      have used := ofStmt_uses body flattens absent
      refine ⟨fun idle => ?_, fun above below => ⟨frame, items, rfl, ?_⟩⟩
      · rw [usesDrawn_eq_nil idle, Stmt.usesOfList_eq_nil_iff] at used
        exact used
      · rw [usesDrawn, if_pos ⟨above, below⟩] at used
        exact isUsedOnce_of_uses (ofStmt_arePlain body flattens) used
  | data slot text =>
      obtain ⟨rfl, rfl⟩ := pure_eq_ok.mp flattened
      exact ⟨rfl, Nat.le_refl _, fun absent => ⟨fun _ => absent, fun above below =>
        absurd (Nat.lt_of_lt_of_le below above) (Nat.lt_irrefl _)⟩⟩
  | global slot =>
      obtain ⟨rfl, rfl⟩ := pure_eq_ok.mp flattened
      exact ⟨rfl, Nat.le_refl _, fun absent => ⟨fun _ => absent, fun above below =>
        absurd (Nat.lt_of_lt_of_le below above) (Nat.lt_irrefl _)⟩⟩

theorem ofChunks_uses (temp : Temp) {chunks flat : List Chunk} {supply rest : TempSupply}
    (flattened : ofChunks chunks supply = .ok (flat, rest)) :
    flat.map Chunk.withoutBody = chunks.map Chunk.withoutBody ∧ supply.issued ≤ rest.issued ∧
    ((∀ chunk ∈ chunks, temp ∉ chunk.temps) →
      (¬(supply.issued ≤ temp.number ∧ temp.number < rest.issued) →
        ∀ chunk ∈ flat, temp ∉ chunk.temps) ∧
      (supply.issued ≤ temp.number → temp.number < rest.issued → IsUsedOnceIn temp flat)) := by
  induction chunks generalizing supply flat with
  | nil =>
      obtain ⟨rfl, rfl⟩ := pure_eq_ok.mp flattened
      exact ⟨rfl, Nat.le_refl _, fun absent => ⟨fun _ => absent, fun above below =>
        absurd (Nat.lt_of_lt_of_le below above) (Nat.lt_irrefl _)⟩⟩
  | cons chunk others ih =>
      simp only [ofChunks, bind_eq_ok, pure_eq_ok] at flattened
      obtain ⟨first, middle, chunkFlat, last, _, othersFlat, rfl, rfl⟩ := flattened
      obtain ⟨same, le, uses⟩ := ofChunk_uses temp chunkFlat
      obtain ⟨sameOthers, othersLe, othersUses⟩ := ih othersFlat
      refine ⟨by rw [List.map_cons, List.map_cons, same, sameOthers], le.trans othersLe,
        fun absent => ?_⟩
      obtain ⟨idle, drawn⟩ := uses (absent chunk (List.mem_cons_self ..))
      obtain ⟨othersIdle, othersDrawn⟩ :=
        othersUses fun other member => absent other (List.mem_cons_of_mem _ member)
      refine ⟨fun now => ?_, fun above below => ?_⟩
      · exact List.forall_mem_cons.mpr ⟨idle (by omega), othersIdle (by omega)⟩
      · by_cases here : temp.number < middle.issued
        · obtain ⟨frame, items, rfl, used⟩ := drawn above here
          exact ⟨[], frame, items, last, rfl, used, othersIdle (by omega)⟩
        · obtain ⟨front, frame, items, back, rfl, used, unused⟩ := othersDrawn (by omega) below
          exact ⟨first :: front, frame, items, back, rfl, used,
            List.forall_mem_cons.mpr ⟨idle (by omega), unused⟩⟩

/-- Flattening chunks whose temporaries have all been drawn before.  The temporaries that
are new are those that it draws.  Each of them is assigned by one statement of one chunk
and read once, by a later statement there.  Nothing but the bodies of functions changes. -/
theorem ofChunks_draws_used_once {chunks flat : List Chunk} {supply rest : TempSupply}
    (fresh : ∀ chunk ∈ chunks, ∀ temp ∈ chunk.temps, temp.number < supply.issued)
    (flattened : ofChunks chunks supply = .ok (flat, rest)) :
    (∀ temp : Temp, ((∃ chunk ∈ flat, temp ∈ chunk.temps) ∧ ∀ chunk ∈ chunks, temp ∉ chunk.temps) ↔
      supply.issued ≤ temp.number ∧ temp.number < rest.issued) ∧
    (∀ temp : Temp, supply.issued ≤ temp.number → temp.number < rest.issued →
      IsUsedOnceIn temp flat) ∧
    flat.map Chunk.withoutBody = chunks.map Chunk.withoutBody := by
  have absent : ∀ temp : Temp, supply.issued ≤ temp.number → ∀ chunk ∈ chunks, temp ∉ chunk.temps :=
    fun temp above chunk member occurs =>
      absurd (fresh chunk member temp occurs) (Nat.not_lt.mpr above)
  have used : ∀ temp : Temp, supply.issued ≤ temp.number → temp.number < rest.issued →
      IsUsedOnceIn temp flat := fun temp above below =>
    ((ofChunks_uses temp flattened).2.2 (absent temp above)).2 above below
  refine ⟨fun temp => ⟨fun ⟨⟨chunk, member, occurs⟩, isNew⟩ => ?_, fun ⟨above, below⟩ => ?_⟩, used,
    (ofChunks_uses supply.next flattened).1⟩
  · by_contra idle
    exact ((ofChunks_uses temp flattened).2.2 isNew).1 idle chunk member occurs
  · exact ⟨mem_temps_of_isUsedOnceIn (used temp above below), absent temp above⟩

/-- Two bodies with a text between them.  The second body keeps two operands, the first
of them inside another operand that is kept. -/
theorem ofChunks_draws_used_once_two_bodies :
    let cell : Expr := .mem .framePointer
    let disturbed : Expr := .binop .add cell (.eseq (.move cell (.const 7)) (.const 1))
    let frame : Frame := { label := .named "f", level := 1 }
    let text : Chunk := .data ⟨8, .named "s"⟩ "text"
    let chunks : List Chunk := [.code frame (.move (.temp ⟨0⟩) disturbed), text,
      .code frame (.exp (.call (.named "g") [disturbed, .eseq (.exp cell) (.temp ⟨1⟩)]))]
    let flat : List Chunk :=
      [.code frame (.seq [.move (.temp ⟨2⟩) cell, .move cell (.const 7),
        .move (.temp ⟨0⟩) (.binop .add (.temp ⟨2⟩) (.const 1))]), text,
      .code frame (.seq [.move (.temp ⟨3⟩) cell, .move cell (.const 7),
        .move (.temp ⟨4⟩) (.binop .add (.temp ⟨3⟩) (.const 1)), .exp cell,
        .exp (.call (.named "g") [.temp ⟨4⟩, .temp ⟨1⟩])])]
    ofChunks chunks ⟨2⟩ = .ok (flat, ⟨5⟩) ∧
      (∀ temp : Temp, ((∃ chunk ∈ flat, temp ∈ chunk.temps) ∧
        ∀ chunk ∈ chunks, temp ∉ chunk.temps) ↔ 2 ≤ temp.number ∧ temp.number < 5) ∧
      (∀ temp : Temp, 2 ≤ temp.number → temp.number < 5 → IsUsedOnceIn temp flat) ∧
      flat.map Chunk.withoutBody = chunks.map Chunk.withoutBody := by
  intro cell disturbed frame text chunks flat
  have flattened : ofChunks chunks ⟨2⟩ = .ok (flat, ⟨5⟩) := rfl
  exact ⟨flattened, ofChunks_draws_used_once (by decide) flattened⟩

end Flattening

end TreeBackend
