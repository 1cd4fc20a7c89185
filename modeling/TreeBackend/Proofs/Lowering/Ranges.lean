import TreeBackend.Proofs.Lowering.Emission

/-!
# The range of a part

The labels and temporaries in the code of a part were drawn for this part, whatever the
assignments in it go to.  A target that is lowered twice has its labels twice, but they are
from the same range.  So the code of two parts in a row has no label and no temporary in
common.
-/

namespace TreeBackend

open IR (Stmt Temp)

namespace LoweringState

/-- Certain labels and temporaries were drawn between two states. -/
structure Ranges (state final : LoweringState) (labels : List Label) (temps : List Temp) :
    Prop where
  precedes : state.Precedes final
  label : ∀ label ∈ labels, Label.IsBetween state.labels.issued final.labels.issued label
  temp : ∀ temp ∈ temps, state.temps.issued ≤ temp.number ∧ temp.number < final.temps.issued

variable {state middle final : LoweringState} {labels moreLabels : List Label}
  {temps moreTemps : List Temp}

/-- What was drawn once for each use was drawn. -/
theorem Draws.ranges (draws : state.Draws final labels temps) :
    state.Ranges final labels temps := ⟨draws.precedes, draws.label, draws.temp⟩

namespace Ranges

theorem none (precedes : state.Precedes final) : state.Ranges final [] [] :=
  ⟨precedes, by simp, by simp⟩

theorem append (first : state.Ranges middle labels temps)
    (second : middle.Ranges final moreLabels moreTemps) :
    state.Ranges final (labels ++ moreLabels) (temps ++ moreTemps) where
  precedes := first.precedes.trans second.precedes
  label label member := by
    rcases List.mem_append.mp member with member | member
    · obtain ⟨number, above, below, rfl⟩ := first.label label member
      exact ⟨number, above, below.trans_le second.precedes.labels, rfl⟩
    · obtain ⟨number, above, below, rfl⟩ := second.label label member
      exact ⟨number, first.precedes.labels.trans above, below, rfl⟩
  temp temp member := by
    rcases List.mem_append.mp member with member | member
    · obtain ⟨above, below⟩ := first.temp temp member
      exact ⟨above, below.trans_le second.precedes.temps⟩
    · obtain ⟨above, below⟩ := second.temp temp member
      exact ⟨first.precedes.temps.trans above, below⟩

/-- It does not matter how often something occurs. -/
theorem mono (ranges : state.Ranges final labels temps) (fewer : moreLabels ⊆ labels)
    (includes : moreTemps ⊆ temps) : state.Ranges final moreLabels moreTemps where
  precedes := ranges.precedes
  label label member := ranges.label label (fewer member)
  temp temp member := ranges.temp temp (includes member)

/-- The labels of two parts in a row differ. -/
theorem disjoint (first : state.Ranges middle labels temps)
    (second : middle.Ranges final moreLabels moreTemps) : labels.Disjoint moreLabels :=
  Label.disjoint_of_isBetween first.label second.label

end Ranges

end LoweringState

namespace Lowering

open Source LoweringState

variable {context : LoweringContext}

/-- An assignment has the labels of its target and its value, and perhaps a temporary more. -/
theorem ofBinary_ranges {node : Node} {operator : BinaryOperator} {left right value : IR.Expr}
    {state final : LoweringState}
    (lowered : ofBinary context node operator left right state = .ok value final) :
    ∃ temps, state.Ranges final [] temps ∧ value.labels ⊆ left.labels ++ right.labels ∧
      value.temps ⊆ left.temps ++ (right.temps ++ temps) := by
  by_cases isCell : operator = .assign → ∃ address, left = .mem address
  · obtain ⟨temps, drawn, labels, includes⟩ := ofBinary_draws isCell lowered
    exact ⟨temps, drawn.ranges, labels ▸ List.Subset.refl _, includes⟩
  · obtain ⟨rfl, noCell⟩ := Classical.not_imp.mp isCell
    cases left with
    | mem address => exact (noCell ⟨address, rfl⟩).elim
    | const | name | temp | binop | call | eseq =>
        obtain ⟨rfl, rfl⟩ := Outcome.pure_eq_ok.mp lowered
        refine ⟨[], .none (.refl _), ?_, ?_⟩
        · simp [assignment, IR.Expr.labels, Stmt.labels]
        · simp [assignment, IR.Expr.temps, Stmt.temps]

mutual

theorem ofExpr_ranges : (expression : Source.Expr) → {level : Nat} →
    {state final : LoweringState} → {code : Lowered} →
    ofExpr context level expression state = .ok code final →
    state.Ranges final code.toStmt.labels code.toStmt.temps
  | .literal .., _, _, _, _, lowered =>
      (ofExpr_draws _ (by simp [AssignToCells, Source.Expr.parts, Source.Expr.assignsToCell])
        lowered).ranges
  | .name .., _, _, _, _, lowered =>
      (ofExpr_draws _ (by simp [AssignToCells, Source.Expr.parts, Source.Expr.assignsToCell])
        lowered).ranges
  | .unary _ operator operand, _, _, _, _, lowered => by
      obtain ⟨value, operandLowered, rfl⟩ := ofExpr_unary_eq_ok.mp lowered
      have ranges := ofExpr_ranges operand operandLowered
      simpa [toStmt_labels, toStmt_temps, unary_labels, unary_temps] using ranges
  | .binary _ _ left right, _, _, _, _, lowered => by
      obtain ⟨first, _, second, _, value, leftLowered, rightLowered, built, rfl⟩ :=
        ofExpr_binary_eq_ok.mp lowered
      have leftRanges := ofExpr_ranges left leftLowered
      have rightRanges := ofExpr_ranges right rightLowered
      obtain ⟨temps, ranges, labels, includes⟩ := ofBinary_ranges built
      simp only [toStmt_labels, toStmt_temps] at leftRanges rightRanges ⊢
      exact (leftRanges.append (rightRanges.append ranges)).mono (by simpa using labels) includes
  | .call _ _ arguments, _, _, _, _, lowered => by
      obtain ⟨_, _, -, argumentsLowered, rfl⟩ := ofExpr_call_eq_ok.mp lowered
      have ranges := ofArguments_ranges arguments argumentsLowered
      simpa [toStmt_labels, toStmt_temps, call_labels, call_temps] using ranges
  | .block _ items, _, _, _, _, lowered => by
      obtain ⟨_, _, itemsLowered, rfl⟩ := ofExpr_block_eq_ok.mp lowered
      have ranges := ofExprs_ranges items itemsLowered
      rwa [toStmt_labels, toStmt_temps, block_labels, block_temps]
  | .ifThen _ condition thenBranch, _, _, _, _, lowered => by
      obtain ⟨_, _, _, last, tests, branches, rfl, rfl⟩ := ofExpr_ifThen_eq_ok.mp lowered
      have testRanges := ofExpr_ranges condition tests
      have branchRanges := ofExpr_ranges thenBranch branches
      rw [toStmt_labels, toStmt_temps] at testRanges
      refine (testRanges.append (branchRanges.append (Draws.afterLabels last).ranges)).mono ?_ ?_
      · simp [Lowered.toStmt, ifThen, Stmt.labels, Stmt.labelsOfList]
      · simp [Lowered.toStmt, ifThen, Stmt.temps, Stmt.tempsOfList]
  | .ifThenElse _ condition thenBranch elseBranch, _, _, _, _, lowered => by
      obtain ⟨_, _, _, _, _, last, tests, branches, others, rfl, rfl⟩ :=
        ofExpr_ifThenElse_eq_ok.mp lowered
      have testRanges := ofExpr_ranges condition tests
      have branchRanges := ofExpr_ranges thenBranch branches
      have otherRanges := ofExpr_ranges elseBranch others
      rw [toStmt_labels, toStmt_temps] at testRanges
      refine (testRanges.append (branchRanges.append
        (otherRanges.append (Draws.afterLabels last).ranges))).mono ?_ ?_
      · simp [Lowered.toStmt, ifThenElse, Stmt.labels, Stmt.labelsOfList]
        grind
      · simp [Lowered.toStmt, ifThenElse, Stmt.temps, Stmt.tempsOfList]
  | .whileLoop _ condition body, _, _, _, _, lowered => by
      obtain ⟨_, _, _, last, tests, bodied, rfl, rfl⟩ := ofExpr_whileLoop_eq_ok.mp lowered
      have testRanges := ofExpr_ranges condition tests
      have bodyRanges := ofExpr_ranges body bodied
      rw [toStmt_labels, toStmt_temps] at testRanges
      refine (testRanges.append (bodyRanges.append (Draws.afterLabels last).ranges)).mono ?_ ?_
      · simp [Lowered.toStmt, whileLoop, Stmt.labels, Stmt.labelsOfList]
      · simp [Lowered.toStmt, whileLoop, Stmt.temps, Stmt.tempsOfList]
  | .forLoop _ _ low high step body, _, _, _, _, lowered => by
      obtain ⟨_, _, cell, _, _, _, _, _, _, _, last, rfl, counted, lows, highs, steps, bodied, rfl,
        rfl⟩ := ofExpr_forLoop_eq_ok.mp lowered
      obtain ⟨_, _, -, -, reached, -⟩ := ofName_eq_ok.mp counted
      obtain ⟨address, rfl, noLabels, noTemps⟩ := cell?_quiet reached
      have lowRanges := ofExpr_ranges low lows
      have highRanges := ofExpr_ranges high highs
      have stepRanges := ofExpr_ranges step steps
      have bodyRanges := ofExpr_ranges body bodied
      rw [toStmt_labels, toStmt_temps] at lowRanges highRanges stepRanges
      refine (lowRanges.append (highRanges.append (stepRanges.append
        (bodyRanges.append (Draws.afterLoop last).ranges)))).mono ?_ ?_
      · simp [Lowered.toStmt, forLoop, Stmt.labels, Stmt.labelsOfList, IR.Expr.labels, noLabels]
        grind
      · simp [Lowered.toStmt, forLoop, Stmt.temps, Stmt.tempsOfList, IR.Expr.temps, noTemps]
        grind
  | .whereIn _ _ inner, _, _, _, _, lowered => by
      obtain ⟨_, _, defined, innerLowered, rfl⟩ := ofExpr_whereIn_eq_ok.mp lowered
      exact (Ranges.none (ofDefs_precedes defined)).append (ofExpr_ranges inner innerLowered)

theorem ofExprs_ranges : (expressions : List Source.Expr) → {level : Nat} →
    {state final : LoweringState} → {parts : List Lowered} →
    ofExprs context level expressions state = .ok parts final →
    state.Ranges final (Stmt.labelsOfList (parts.map Lowered.toStmt))
      (Stmt.tempsOfList (parts.map Lowered.toStmt))
  | [], _, _, _, _, lowered => by
      obtain ⟨rfl, rfl⟩ := ofExprs_nil_eq_ok.mp lowered
      exact .none (.refl _)
  | expression :: others, _, _, _, _, lowered => by
      obtain ⟨_, _, _, first, rest, rfl⟩ := ofExprs_cons_eq_ok.mp lowered
      exact (ofExpr_ranges expression first).append (ofExprs_ranges others rest)

theorem ofArguments_ranges : (expressions : List Source.Expr) → {level : Nat} →
    {state final : LoweringState} → {values : List IR.Expr} →
    ofArguments context level expressions state = .ok values final →
    state.Ranges final (IR.Expr.labelsOfList values) (IR.Expr.tempsOfList values)
  | [], _, _, _, _, lowered => by
      obtain ⟨rfl, rfl⟩ := ofArguments_nil_eq_ok.mp lowered
      exact .none (.refl _)
  | expression :: others, _, _, _, _, lowered => by
      obtain ⟨_, _, _, first, rest, rfl⟩ := ofArguments_cons_eq_ok.mp lowered
      have firstRanges := ofExpr_ranges expression first
      rw [toStmt_labels, toStmt_temps] at firstRanges
      exact firstRanges.append (ofArguments_ranges others rest)

end

end Lowering

end TreeBackend
