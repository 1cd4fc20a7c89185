import Mathlib.Data.List.Nodup
import Mathlib.Order.Nat
import TreeBackend.Proofs.IR.Labels
import TreeBackend.Proofs.Lowering.Inversion
import TreeBackend.Proofs.Source.Parts

/-!
# What lowering draws

Lowering only ever moves its supplies forward, and finished chunks stay.  The
labels and temporaries of the code that comes out of a part are those that were
drawn for this part, and no label is used for two places.
-/

namespace TreeBackend

open IR (Stmt Temp Chunk)

abbrev Label.IsBetween (low high : Nat) (label : Label) : Prop :=
  ∃ number, low ≤ number ∧ number < high ∧ label = .anonymous number

theorem Label.disjoint_of_isBetween {low middle high : Nat} {first second : List Label}
    (lower : ∀ label ∈ first, IsBetween low middle label)
    (upper : ∀ label ∈ second, IsBetween middle high label) : first.Disjoint second := by
  intro label isFirst isSecond
  obtain ⟨number, -, below, rfl⟩ := lower label isFirst
  obtain ⟨other, above, -, same⟩ := upper _ isSecond
  have same := Label.anonymous.inj same
  omega

/-- The labels that a chunk has within its code, or by which a string constant is known. -/
def IR.Chunk.innerLabels : Chunk → List Label
  | .code _ body => body.labels
  | .data slot _ => [slot.label]
  | .global _ => []

namespace LoweringState

/-- One state comes before another one. -/
structure Precedes (state final : LoweringState) : Prop where
  labels : state.labels.issued ≤ final.labels.issued
  temps : state.temps.issued ≤ final.temps.issued
  chunks : state.chunks <+: final.chunks

theorem Precedes.refl (state : LoweringState) : state.Precedes state :=
  ⟨Nat.le_refl _, Nat.le_refl _, List.prefix_refl _⟩

theorem Precedes.trans {state middle final : LoweringState} (first : state.Precedes middle)
    (second : middle.Precedes final) : state.Precedes final :=
  ⟨first.labels.trans second.labels, first.temps.trans second.temps,
    first.chunks.trans second.chunks⟩

/-- No label occurs twice in the body of a function, and all temporaries there have
been drawn. -/
def IsSound (state : LoweringState) : Prop :=
  ∀ frame body, .code frame body ∈ state.chunks →
    body.labels.Nodup ∧ ∀ temp ∈ body.temps, temp.number < state.temps.issued

/-- The labels that finished chunks have within them, and those of string constants. -/
def innerLabels (state : LoweringState) : List Label := state.chunks.flatMap Chunk.innerLabels

@[simp] theorem innerLabels_withChunk (state : LoweringState) (chunk : Chunk) :
    (state.withChunk chunk).innerLabels = state.innerLabels ++ chunk.innerLabels := by
  simp [innerLabels, withChunk]

/-- Between two states, certain labels have been drawn once each, and certain
temporaries. All other labels that were drawn went to finished chunks. -/
structure Draws (state final : LoweringState) (labels : List Label) (temps : List Temp) :
    Prop where
  precedes : state.Precedes final
  once : labels.Nodup
  label : ∀ label ∈ labels, Label.IsBetween state.labels.issued final.labels.issued label
  temp : ∀ temp ∈ temps, state.temps.issued ≤ temp.number ∧ temp.number < final.temps.issued
  sound : state.IsSound → final.IsSound
  inner : ∃ kept, final.innerLabels = state.innerLabels ++ kept ∧ (labels ++ kept).Nodup ∧
    ∀ label ∈ kept, Label.IsBetween state.labels.issued final.labels.issued label

namespace Draws

variable {state middle final : LoweringState} {labels moreLabels : List Label}
  {temps moreTemps : List Temp}

theorem refl (state : LoweringState) : state.Draws state [] [] where
  precedes := .refl state
  once := .nil
  label := by simp
  temp := by simp
  sound := id
  inner := ⟨[], by simp⟩

theorem append (first : state.Draws middle labels temps)
    (second : middle.Draws final moreLabels moreTemps) :
    state.Draws final (labels ++ moreLabels) (temps ++ moreTemps) where
  precedes := first.precedes.trans second.precedes
  once := List.nodup_append'.mpr
    ⟨first.once, second.once, Label.disjoint_of_isBetween first.label second.label⟩
  label label member := by
    rcases List.mem_append.mp member with member | member
    · obtain ⟨number, above, below, rfl⟩ := first.label label member
      exact ⟨number, above, below.trans_le second.precedes.labels, rfl⟩
    · obtain ⟨number, above, below, rfl⟩ := second.label label member
      exact ⟨number, first.precedes.labels.trans above, below, rfl⟩
  temp temp member := by
    rcases List.mem_append.mp member with member | member
    · obtain ⟨above, below⟩ := first.temp temp member
      exact ⟨above, below.trans_le second.precedes.temps⟩
    · obtain ⟨above, below⟩ := second.temp temp member
      exact ⟨first.precedes.temps.trans above, below⟩
  sound sound := second.sound (first.sound sound)
  inner := by
    obtain ⟨kept, same, once, drawn⟩ := first.inner
    obtain ⟨more, sameMore, moreOnce, moreDrawn⟩ := second.inner
    have disjoint : (labels ++ kept).Disjoint (moreLabels ++ more) :=
      Label.disjoint_of_isBetween (List.forall_mem_append.mpr ⟨first.label, drawn⟩)
        (List.forall_mem_append.mpr ⟨second.label, moreDrawn⟩)
    have regrouped : (labels ++ moreLabels ++ (kept ++ more)).Perm
        (labels ++ kept ++ (moreLabels ++ more)) := by
      refine List.perm_iff_count.mpr fun label => ?_
      simp only [List.count_append]
      omega
    refine ⟨kept ++ more, by rw [sameMore, same, List.append_assoc],
      regrouped.nodup_iff.mpr (List.nodup_append'.mpr ⟨once, moreOnce, disjoint⟩), ?_⟩
    rw [List.forall_mem_append]
    constructor
    · intro label member
      obtain ⟨number, above, below, rfl⟩ := drawn label member
      exact ⟨number, above, below.trans_le second.precedes.labels, rfl⟩
    · intro label member
      obtain ⟨number, above, below, rfl⟩ := moreDrawn label member
      exact ⟨number, first.precedes.labels.trans above, below, rfl⟩

/-- The order of the labels does not matter, nor does it if some are left out. -/
theorem congr (draws : state.Draws final labels temps)
    (fewer : ∀ label, moreLabels.count label ≤ labels.count label)
    (includes : moreTemps ⊆ temps) : state.Draws final moreLabels moreTemps where
  precedes := draws.precedes
  once := by
    have once := List.nodup_iff_count_le_one.mp draws.once
    exact List.nodup_iff_count_le_one.mpr fun label => (fewer label).trans (once label)
  label label member := by
    have occurs := List.count_pos_iff.mpr member
    exact draws.label label (List.count_pos_iff.mp (occurs.trans_le (fewer label)))
  temp temp member := draws.temp temp (includes member)
  sound := draws.sound
  inner := by
    obtain ⟨kept, same, once, drawn⟩ := draws.inner
    refine ⟨kept, same, List.nodup_iff_count_le_one.mpr fun label => ?_, drawn⟩
    have atMostOnce := List.nodup_iff_count_le_one.mp once label
    rw [List.count_append] at atMostOnce ⊢
    have := fewer label
    omega

theorem afterTemp (state : LoweringState) : state.Draws state.afterTemp [] [state.temps.next] where
  precedes := ⟨Nat.le_refl _, Nat.le_succ _, List.prefix_refl _⟩
  once := .nil
  label := by simp
  temp temp member := by
    obtain rfl := List.mem_singleton.mp member
    exact ⟨Nat.le_refl _, Nat.lt_succ_self _⟩
  sound sound frame body member := by
    obtain ⟨once, below⟩ := sound frame body member
    exact ⟨once, fun temp member => (below temp member).trans (Nat.lt_succ_self _)⟩
  inner := ⟨[], (List.append_nil _).symm, .nil, by simp⟩

theorem afterLabel (state : LoweringState) :
    state.Draws state.afterLabel [state.labels.next] [] where
  precedes := ⟨Nat.le_succ _, Nat.le_refl _, List.prefix_refl _⟩
  once := List.nodup_singleton _
  label label member := by
    obtain rfl := List.mem_singleton.mp member
    exact ⟨_, Nat.le_refl _, Nat.lt_succ_self _, rfl⟩
  temp := by simp
  sound sound := sound
  inner := ⟨[], (List.append_nil _).symm, List.nodup_singleton _, by simp⟩

theorem afterLabels (state : LoweringState) :
    state.Draws state.afterLabels
      [state.nextLabels.first, state.nextLabels.second, state.nextLabels.third] [] :=
  (afterLabel state).append ((afterLabel _).append (afterLabel _))

/-- A counting loop takes three labels and two temporaries. -/
theorem afterLoop (state : LoweringState) :
    state.Draws state.afterLabels.afterTemp.afterTemp
      [state.nextLabels.first, state.nextLabels.second, state.nextLabels.third]
      [state.temps.next, state.temps.rest.next] :=
  (afterLabels state).append
    ((afterTemp state.afterLabels).append (afterTemp state.afterLabels.afterTemp))

theorem inner_withChunk {chunk : Chunk} (draws : state.Draws final labels temps)
    (same : chunk.innerLabels = labels) :
    ∃ kept, (final.withChunk chunk).innerLabels = state.innerLabels ++ kept ∧
      ([] ++ kept).Nodup ∧
      ∀ label ∈ kept, Label.IsBetween state.labels.issued final.labels.issued label := by
  obtain ⟨kept, sameKept, once, drawn⟩ := draws.inner
  refine ⟨kept ++ labels, by rw [innerLabels_withChunk, sameKept, same, List.append_assoc],
    by rw [List.nil_append]; exact List.perm_append_comm.nodup_iff.mp once, ?_⟩
  exact List.forall_mem_append.mpr ⟨drawn, draws.label⟩

/-- A chunk other than a function can be finished at any time, with labels that were drawn. -/
theorem withChunk {chunk : Chunk} (draws : state.Draws final labels temps)
    (same : chunk.innerLabels = labels) (noCode : ∀ frame body, chunk ≠ .code frame body) :
    state.Draws (final.withChunk chunk) [] [] where
  precedes := draws.precedes.trans ⟨Nat.le_refl _, Nat.le_refl _, List.prefix_append _ _⟩
  once := .nil
  label := by simp
  temp := by simp
  sound sound frame body member := by
    rcases List.mem_append.mp member with member | member
    · exact draws.sound sound frame body member
    · exact (noCode frame body (List.mem_singleton.mp member).symm).elim
  inner := draws.inner_withChunk same

theorem withCode (draws : state.Draws final labels temps) {frame : Frame} {body : Stmt}
    (same : body.labels = labels) (includes : body.temps ⊆ temps) :
    state.Draws (final.withChunk (.code frame body)) [] [] where
  precedes := draws.precedes.trans
    ⟨Nat.le_refl _, Nat.le_refl _, List.prefix_append _ _⟩
  once := .nil
  label := by simp
  temp := by simp
  sound sound otherFrame otherBody member := by
    rcases List.mem_append.mp member with member | member
    · exact draws.sound sound otherFrame otherBody member
    · obtain ⟨rfl, rfl⟩ := Chunk.code.inj (List.mem_singleton.mp member)
      exact ⟨same ▸ draws.once, fun temp member => (draws.temp temp (includes member)).2⟩
  inner := draws.inner_withChunk same

end Draws

end LoweringState

namespace Lowering

open Source
open LoweringState

/-! ### Labels and temporaries of the code of each construct -/

/-- The address of a frame, which mentions no label of a place and no temporary. -/
theorem enclosingFrame_quiet (hops : Nat) :
    (enclosingFrame hops).labels = [] ∧ (enclosingFrame hops).temps = [] := by
  induction hops with
  | zero => exact ⟨rfl, rfl⟩
  | succ hops ih => exact ih

theorem staticLink_quiet (level calleeLevel : Nat) :
    (staticLink level calleeLevel).labels = [] ∧ (staticLink level calleeLevel).temps = [] := by
  unfold staticLink
  split
  · exact ⟨rfl, rfl⟩
  · split
    · exact ⟨rfl, rfl⟩
    · exact enclosingFrame_quiet _

/-- The cell of a variable is the word at a plain address. -/
theorem cell?_quiet {level : Nat} {storage : Storage} {value : IR.Expr}
    (found : cell? level storage = some value) :
    ∃ address, value = .mem address ∧ address.labels = [] ∧ address.temps = [] := by
  have stack : ∀ slot, stackCell? level slot = some value →
      ∃ address, value = .mem address ∧ address.labels = [] ∧ address.temps = [] := by
    intro slot found
    unfold stackCell? at found
    split at found
    · obtain rfl := Option.some_inj.mp found
      obtain ⟨noLabels, noTemps⟩ := enclosingFrame_quiet (level - slot.level)
      exact ⟨_, rfl, by simp [IR.Expr.labels, noLabels], by simp [IR.Expr.temps, noTemps]⟩
    · cases found
  cases storage with
  | global slot => exact ⟨_, (Option.some_inj.mp found).symm, rfl, rfl⟩
  | localVar slot | parameter slot => exact stack slot found

theorem baseAddress_labels (value : IR.Expr) : (baseAddress value).labels = value.labels := by
  cases value <;> rfl

theorem baseAddress_temps (value : IR.Expr) : (baseAddress value).temps = value.temps := by
  cases value <;> rfl

/-- An address that may be computed twice defines no labels. -/
theorem labels_of_isRepeatable {address : IR.Expr} (repeatable : isRepeatable address = true) :
    address.labels = [] := by
  match address with
  | .const _ | .name _ | .temp _ => simp [IR.Expr.labels]
  | .binop _ left right =>
      rw [isRepeatable, Bool.and_eq_true] at repeatable
      rw [IR.Expr.labels, labels_of_isRepeatable repeatable.1, labels_of_isRepeatable repeatable.2,
        List.append_nil]
  | .mem _ | .call .. | .eseq .. => cases repeatable

theorem unary_labels (operator : UnaryOperator) (operand : IR.Expr) :
    (unary operator operand).labels = operand.labels := by
  cases operator <;> simp [unary, IR.Expr.labels]

theorem unary_temps (operator : UnaryOperator) (operand : IR.Expr) :
    (unary operator operand).temps = operand.temps := by
  cases operator <;> simp [unary, IR.Expr.temps]

theorem savePointer_quiet (offset : Option Int) :
    (savePointer offset).labels = [] ∧ (savePointer offset).temps = [] := by
  cases offset <;> exact ⟨rfl, rfl⟩

theorem call_labels (level : Nat) (callee : Callee) (arguments : List IR.Expr) :
    (call level callee arguments).labels = IR.Expr.labelsOfList arguments := by
  simp [call, IR.Expr.labels, IR.Expr.labelsOfList, (savePointer_quiet _).1,
    (staticLink_quiet _ _).1]

theorem call_temps (level : Nat) (callee : Callee) (arguments : List IR.Expr) :
    (call level callee arguments).temps = IR.Expr.tempsOfList arguments := by
  simp [call, IR.Expr.temps, IR.Expr.tempsOfList, (savePointer_quiet _).2,
    (staticLink_quiet _ _).2]

theorem toStmt_labels (value : IR.Expr) : (Lowered.expr value).toStmt.labels = value.labels := by
  simp [Lowered.toStmt, Stmt.labels]

theorem toStmt_temps (value : IR.Expr) : (Lowered.expr value).toStmt.temps = value.temps := by
  simp [Lowered.toStmt, Stmt.temps]

/-- The statements of the items of a block, followed by its value. -/
theorem block_labels (front : List Lowered) (last : IR.Expr) :
    (IR.Expr.eseq (.seq (front.map Lowered.toStmt)) last).labels =
      Stmt.labelsOfList ((front ++ [Lowered.expr last]).map Lowered.toStmt) := by
  induction front with
  | nil => simp [IR.Expr.labels, Stmt.labels, Stmt.labelsOfList, toStmt_labels]
  | cons part rest ih =>
      simp only [IR.Expr.labels, Stmt.labels] at ih ⊢
      simp only [List.map_cons, List.cons_append, Stmt.labelsOfList, List.append_assoc, ih]

theorem block_temps (front : List Lowered) (last : IR.Expr) :
    (IR.Expr.eseq (.seq (front.map Lowered.toStmt)) last).temps =
      Stmt.tempsOfList ((front ++ [Lowered.expr last]).map Lowered.toStmt) := by
  induction front with
  | nil => simp [IR.Expr.temps, Stmt.temps, Stmt.tempsOfList, toStmt_temps]
  | cons part rest ih =>
      simp only [IR.Expr.temps, Stmt.temps] at ih ⊢
      simp only [List.map_cons, List.cons_append, Stmt.tempsOfList, List.append_assoc, ih]

/-! ### Drawing -/

section Draws

variable {context : LoweringContext}

theorem ofBinary_draws {node : Node} {operator : BinaryOperator}
    {left right value : IR.Expr} {state final : LoweringState}
    (isCell : operator = .assign → ∃ address, left = .mem address)
    (lowered : ofBinary context node operator left right state = .ok value final) :
    ∃ temps, state.Draws final [] temps ∧ value.labels = left.labels ++ right.labels ∧
      value.temps ⊆ left.temps ++ (right.temps ++ temps) := by
  cases operator with
  | compute operator =>
      obtain ⟨rfl, rfl⟩ := Outcome.pure_eq_ok.mp lowered
      exact ⟨[], .refl _, rfl, by simp [IR.Expr.temps]⟩
  | index =>
      obtain ⟨ty, -, rfl, rfl⟩ := ofBinary_index_eq_ok.mp lowered
      refine ⟨[], .refl _, ?_, ?_⟩
      · simp [elementCell, IR.Expr.labels, baseAddress_labels]
      · simp [elementCell, IR.Expr.temps, baseAddress_temps]
  | assign =>
      obtain ⟨address, rfl⟩ := isCell rfl
      rw [ofBinary_assign_mem_eq_ok] at lowered
      split at lowered
      · next repeatable =>
          obtain ⟨rfl, rfl⟩ := lowered
          refine ⟨[], .refl _, ?_, ?_⟩
          · simp [assignment, IR.Expr.labels, Stmt.labels, labels_of_isRepeatable repeatable]
          · simp [assignment, IR.Expr.temps, Stmt.temps]
      · obtain ⟨rfl, rfl⟩ := lowered
        refine ⟨_, .afterTemp state, ?_, ?_⟩
        · simp [assignmentOnce, IR.Expr.labels, Stmt.labels, Stmt.labelsOfList]
        · simp [assignmentOnce, IR.Expr.temps, Stmt.temps, Stmt.tempsOfList]

/-- What stands for a cell becomes the word at an address. -/
theorem ofExpr_isCell {level : Nat} {expression : Source.Expr} {value : IR.Expr}
    {state final : LoweringState} (cell : expression.isCell = true)
    (lowered : ofExpr context level expression state = .ok (.expr value) final) :
    ∃ address, value = .mem address := by
  match expression with
  | .name .. =>
      obtain ⟨_, _, _, -, -, found, same, -⟩ := ofExpr_name_eq_ok.mp lowered
      obtain rfl := Lowered.expr.inj same
      obtain ⟨address, rfl, -⟩ := cell?_quiet found
      exact ⟨address, rfl⟩
  | .binary _ .index .. =>
      obtain ⟨_, _, _, _, _, -, -, built, same⟩ := ofExpr_binary_eq_ok.mp lowered
      obtain rfl := Lowered.expr.inj same
      obtain ⟨_, -, rfl, -⟩ := ofBinary_index_eq_ok.mp built
      exact ⟨_, rfl⟩
  | .unary _ .plus operand =>
      obtain ⟨_, operandLowered, same⟩ := ofExpr_unary_eq_ok.mp lowered
      obtain rfl := Lowered.expr.inj same
      exact ofExpr_isCell (by simpa [Expr.isCell] using cell) operandLowered
  | .whereIn _ _ inner =>
      obtain ⟨_, _, -, innerLowered, same⟩ := ofExpr_whereIn_eq_ok.mp lowered
      obtain rfl := Lowered.expr.inj same
      exact ofExpr_isCell (by simpa [Expr.isCell] using cell) innerLowered

mutual

theorem ofExpr_draws : (expression : Source.Expr) → {level : Nat} →
    {state final : LoweringState} → {code : Lowered} → AssignToCells expression.parts →
    ofExpr context level expression state = .ok code final →
    state.Draws final code.toStmt.labels code.toStmt.temps
  | .literal _ (.int _), _, _, _, _, _, lowered => by
      obtain ⟨rfl, rfl⟩ := ofExpr_int_eq_ok.mp lowered
      exact .refl _
  | .literal _ (.log _), _, _, _, _, _, lowered => by
      obtain ⟨rfl, rfl⟩ := ofExpr_log_eq_ok.mp lowered
      exact .refl _
  | .literal _ (.str text), _, state, _, _, _, lowered => by
      obtain ⟨rfl, rfl⟩ := ofExpr_str_eq_ok.mp lowered
      exact (Draws.afterLabel state).withChunk rfl (by simp)
  | .name .., _, _, _, _, _, lowered => by
      obtain ⟨_, _, _, -, -, cell, rfl, rfl⟩ := ofExpr_name_eq_ok.mp lowered
      obtain ⟨address, rfl, noLabels, noTemps⟩ := cell?_quiet cell
      rw [toStmt_labels, toStmt_temps, IR.Expr.labels, IR.Expr.temps, noLabels, noTemps]
      exact .refl _
  | .unary _ operator operand, _, _, _, _, assign, lowered => by
      obtain ⟨value, operandLowered, rfl⟩ := ofExpr_unary_eq_ok.mp lowered
      have drawn := ofExpr_draws operand assign.within operandLowered
      simpa [toStmt_labels, toStmt_temps, unary_labels, unary_temps] using drawn
  | .binary node operator left right, _, _, _, _, assign, lowered => by
      obtain ⟨first, _, second, _, value, leftLowered, rightLowered, built, rfl⟩ :=
        ofExpr_binary_eq_ok.mp lowered
      have leftDrawn := ofExpr_draws left assign.within.left leftLowered
      have rightDrawn := ofExpr_draws right assign.within.right rightLowered
      obtain ⟨temps, drawn, labels, includes⟩ := ofBinary_draws (fun isAssign => by
        subst isAssign
        exact ofExpr_isCell (assign _ (Source.Expr.mem_parts _)) leftLowered)
        built
      simp only [toStmt_labels, toStmt_temps] at leftDrawn rightDrawn ⊢
      refine (leftDrawn.append (rightDrawn.append drawn)).congr ?_ includes
      simp [labels]
  | .call _ _ arguments, _, _, _, _, assign, lowered => by
      obtain ⟨_, _, -, argumentsLowered, rfl⟩ := ofExpr_call_eq_ok.mp lowered
      have drawn := ofArguments_draws arguments assign.within argumentsLowered
      simpa [toStmt_labels, toStmt_temps, call_labels, call_temps] using drawn
  | .block _ items, _, _, _, _, assign, lowered => by
      obtain ⟨_, _, itemsLowered, rfl⟩ := ofExpr_block_eq_ok.mp lowered
      have drawn := ofExprs_draws items assign.within itemsLowered
      rwa [toStmt_labels, toStmt_temps, block_labels, block_temps]
  | .ifThen _ condition thenBranch, _, _, _, _, assign, lowered => by
      obtain ⟨_, _, _, last, tests, branches, rfl, rfl⟩ := ofExpr_ifThen_eq_ok.mp lowered
      have testDrawn := ofExpr_draws condition assign.within.left tests
      have branchDrawn := ofExpr_draws thenBranch assign.within.right branches
      rw [toStmt_labels, toStmt_temps] at testDrawn
      refine (testDrawn.append (branchDrawn.append (.afterLabels last))).congr (fun label => ?_) ?_
      · simp [Lowered.toStmt, ifThen, Stmt.labels, Stmt.labelsOfList, List.count_cons]
        omega
      · simp [Lowered.toStmt, ifThen, Stmt.temps, Stmt.tempsOfList]
  | .ifThenElse _ condition thenBranch elseBranch, _, _, _, _, assign, lowered => by
      obtain ⟨_, _, _, _, _, last, tests, branches, others, rfl, rfl⟩ :=
        ofExpr_ifThenElse_eq_ok.mp lowered
      have testDrawn := ofExpr_draws condition assign.within.left.left tests
      have branchDrawn := ofExpr_draws thenBranch assign.within.left.right branches
      have otherDrawn := ofExpr_draws elseBranch assign.within.right others
      rw [toStmt_labels, toStmt_temps] at testDrawn
      refine (testDrawn.append (branchDrawn.append (otherDrawn.append (.afterLabels last)))).congr
        (fun label => ?_) ?_
      · simp [Lowered.toStmt, ifThenElse, Stmt.labels, Stmt.labelsOfList, List.count_cons]
        omega
      · simp [Lowered.toStmt, ifThenElse, Stmt.temps, Stmt.tempsOfList]
  | .whileLoop _ condition body, _, _, _, _, assign, lowered => by
      obtain ⟨_, _, _, last, tests, bodied, rfl, rfl⟩ := ofExpr_whileLoop_eq_ok.mp lowered
      have testDrawn := ofExpr_draws condition assign.within.left tests
      have bodyDrawn := ofExpr_draws body assign.within.right bodied
      rw [toStmt_labels, toStmt_temps] at testDrawn
      refine (testDrawn.append (bodyDrawn.append (.afterLabels last))).congr (fun label => ?_) ?_
      · simp [Lowered.toStmt, whileLoop, Stmt.labels, Stmt.labelsOfList, List.count_cons]
        omega
      · simp [Lowered.toStmt, whileLoop, Stmt.temps, Stmt.tempsOfList]
  | .forLoop _ counter low high step body, _, _, _, _, assign, lowered => by
      obtain ⟨_, _, cell, _, _, _, _, _, _, _, last, rfl, counted, lows, highs, steps, bodied, rfl,
        rfl⟩ := ofExpr_forLoop_eq_ok.mp lowered
      obtain ⟨_, _, -, -, reached, -⟩ := ofName_eq_ok.mp counted
      obtain ⟨address, rfl, noLabels, noTemps⟩ := cell?_quiet reached
      have lowDrawn := ofExpr_draws low assign.within.left.left.left.right lows
      have highDrawn := ofExpr_draws high assign.within.left.left.right highs
      have stepDrawn := ofExpr_draws step assign.within.left.right steps
      have bodyDrawn := ofExpr_draws body assign.within.right bodied
      rw [toStmt_labels, toStmt_temps] at lowDrawn highDrawn stepDrawn
      refine (lowDrawn.append (highDrawn.append (stepDrawn.append
        (bodyDrawn.append (.afterLoop last))))).congr (fun label => ?_) ?_
      · simp [Lowered.toStmt, forLoop, Stmt.labels, Stmt.labelsOfList, IR.Expr.labels,
          List.count_cons, noLabels]
        omega
      · simp [Lowered.toStmt, forLoop, Stmt.temps, Stmt.tempsOfList, IR.Expr.temps, noTemps]
        grind
  | .whereIn _ definitions inner, _, _, _, _, assign, lowered => by
      obtain ⟨_, _, defined, innerLowered, rfl⟩ := ofExpr_whereIn_eq_ok.mp lowered
      exact (ofDefs_draws definitions assign.within.left defined).append
        (ofExpr_draws inner assign.within.right innerLowered)

theorem ofExprs_draws : (expressions : List Source.Expr) → {level : Nat} →
    {state final : LoweringState} → {parts : List Lowered} →
    AssignToCells (Source.Expr.partsOfList expressions) →
    ofExprs context level expressions state = .ok parts final →
    state.Draws final (Stmt.labelsOfList (parts.map Lowered.toStmt))
      (Stmt.tempsOfList (parts.map Lowered.toStmt))
  | [], _, _, _, _, _, lowered => by
      obtain ⟨rfl, rfl⟩ := ofExprs_nil_eq_ok.mp lowered
      exact .refl _
  | expression :: others, _, _, _, _, assign, lowered => by
      obtain ⟨_, _, _, first, rest, rfl⟩ := ofExprs_cons_eq_ok.mp lowered
      exact (ofExpr_draws expression assign.left first).append
        (ofExprs_draws others assign.right rest)

theorem ofArguments_draws : (expressions : List Source.Expr) → {level : Nat} →
    {state final : LoweringState} → {values : List IR.Expr} →
    AssignToCells (Source.Expr.partsOfList expressions) →
    ofArguments context level expressions state = .ok values final →
    state.Draws final (IR.Expr.labelsOfList values) (IR.Expr.tempsOfList values)
  | [], _, _, _, _, _, lowered => by
      obtain ⟨rfl, rfl⟩ := ofArguments_nil_eq_ok.mp lowered
      exact .refl _
  | expression :: others, _, _, _, _, assign, lowered => by
      obtain ⟨_, _, _, first, rest, rfl⟩ := ofArguments_cons_eq_ok.mp lowered
      have firstDrawn := ofExpr_draws expression assign.left first
      rw [toStmt_labels, toStmt_temps] at firstDrawn
      exact firstDrawn.append (ofArguments_draws others assign.right rest)

theorem ofDef_draws : (definition : Def) → {level : Nat} → {state final : LoweringState} →
    AssignToCells definition.parts → ofDef context level definition state = .ok () final →
    state.Draws final [] []
  | .function _ _ _ body, _, _, _, assign, lowered => by
      obtain ⟨_, _, _, bodyLowered, -, rfl⟩ := ofDef_function_eq_ok.mp lowered
      have drawn := ofExpr_draws body assign bodyLowered
      rw [toStmt_labels, toStmt_temps] at drawn
      exact drawn.withCode rfl (List.Subset.refl _)
  | .var .., _, _, _, _, lowered => by
      obtain ⟨storage, -, rfl⟩ := ofDef_var_eq_ok.mp lowered
      cases storage with
      | global slot => exact (Draws.refl _).withChunk rfl (by simp)
      | localVar _ | parameter _ => exact .refl _
  | .typeAlias .., _, _, _, _, lowered => by
      obtain rfl := ofDef_typeAlias_eq_ok.mp lowered
      exact .refl _

theorem ofDefs_draws : (definitions : List Def) → {level : Nat} →
    {state final : LoweringState} → AssignToCells (Def.partsOfList definitions) →
    ofDefs context level definitions state = .ok () final → state.Draws final [] []
  | [], _, _, _, _, lowered => by
      obtain rfl := ofDefs_nil_eq_ok.mp lowered
      exact .refl _
  | definition :: others, _, _, _, assign, lowered => by
      obtain ⟨_, first, rest⟩ := ofDefs_cons_eq_ok.mp lowered
      exact (ofDef_draws definition assign.left first).append
        (ofDefs_draws others assign.right rest)

end

end Draws

end Lowering

end TreeBackend
