import TreeBackend.Proofs.IR.Events
import TreeBackend.Proofs.IR.Temps

/-!
# The labels of trees

The labels that the statements of a tree define, in the order in which the tree runs.
They are the ones among the events of the tree.
-/

namespace TreeBackend

open IR

mutual

/-- The labels that statements inside an expression define. -/
def IR.Expr.labels : Expr → List Label
  | .const _ | .name _ | .temp _ => []
  | .mem address => address.labels
  | .binop _ left right => left.labels ++ right.labels
  | .call _ arguments => Expr.labelsOfList arguments
  | .eseq effect value => effect.labels ++ value.labels

def IR.Expr.labelsOfList : List Expr → List Label
  | [] => []
  | expression :: rest => expression.labels ++ Expr.labelsOfList rest

/-- The labels that a statement defines, in the order in which it runs. -/
def IR.Stmt.labels : Stmt → List Label
  | .seq items => Stmt.labelsOfList items
  | .label label => [label]
  | .jump _ => []
  | .cjump condition _ _ => condition.labels
  | .exp value => value.labels
  | .move target source => target.labels ++ source.labels

def IR.Stmt.labelsOfList : List Stmt → List Label
  | [] => []
  | statement :: rest => statement.labels ++ Stmt.labelsOfList rest

end

mutual

theorem IR.Expr.labels_of_isStraight : (expression : Expr) → expression.isStraight = true →
    expression.labels = []
  | .const _, _ | .name _, _ | .temp _, _ => by simp [Expr.labels]
  | .mem address, straight => by
      rw [Expr.labels, Expr.labels_of_isStraight address straight]
  | .binop _ left right, straight => by
      rw [Expr.isStraight, Bool.and_eq_true] at straight
      rw [Expr.labels, Expr.labels_of_isStraight left straight.1,
        Expr.labels_of_isStraight right straight.2, List.append_nil]
  | .call _ arguments, straight => by
      rw [Expr.labels, Expr.labelsOfList_of_areStraight arguments straight]
  | .eseq effect value, straight => by
      rw [Expr.isStraight, Bool.and_eq_true] at straight
      rw [Expr.labels, Stmt.labels_of_isStraight effect straight.1,
        Expr.labels_of_isStraight value straight.2, List.append_nil]

theorem IR.Expr.labelsOfList_of_areStraight : (expressions : List Expr) →
    Expr.areStraight expressions = true → Expr.labelsOfList expressions = []
  | [], _ => by simp [Expr.labelsOfList]
  | expression :: rest, straight => by
      rw [Expr.areStraight, Bool.and_eq_true] at straight
      rw [Expr.labelsOfList, Expr.labels_of_isStraight expression straight.1,
        Expr.labelsOfList_of_areStraight rest straight.2, List.append_nil]

theorem IR.Stmt.labels_of_isStraight : (statement : Stmt) → statement.isStraight = true →
    statement.labels = []
  | .seq items, straight => by
      rw [Stmt.labels, Stmt.labelsOfList_of_areStraight items straight]
  | .exp value, straight => by
      rw [Stmt.labels, Expr.labels_of_isStraight value straight]
  | .move target source, straight => by
      rw [Stmt.isStraight, Bool.and_eq_true] at straight
      rw [Stmt.labels, Expr.labels_of_isStraight target straight.1,
        Expr.labels_of_isStraight source straight.2, List.append_nil]
  | .label _, straight | .jump _, straight | .cjump .., straight => by
      simp [Stmt.isStraight] at straight

theorem IR.Stmt.labelsOfList_of_areStraight : (statements : List Stmt) →
    Stmt.areStraight statements = true → Stmt.labelsOfList statements = []
  | [], _ => by simp [Stmt.labelsOfList]
  | statement :: rest, straight => by
      rw [Stmt.areStraight, Bool.and_eq_true] at straight
      rw [Stmt.labelsOfList, Stmt.labels_of_isStraight statement straight.1,
        Stmt.labelsOfList_of_areStraight rest straight.2, List.append_nil]

end

mutual

theorem IR.Expr.labels_eq_filterMap : (expression : Expr) →
    expression.labels = expression.events.filterMap Event.label?
  | .const _ | .name _ | .temp _ => by simp [Expr.labels, Expr.events]
  | .mem address => by
      simp [Expr.labels, Expr.events, Event.label?, Expr.labels_eq_filterMap address]
  | .binop _ left right => by
      simp [Expr.labels, Expr.events, Event.label?, Expr.labels_eq_filterMap left,
        Expr.labels_eq_filterMap right]
  | .call _ arguments => by
      simp [Expr.labels, Expr.events, Event.label?, Expr.labelsOfList_eq_filterMap arguments]
  | .eseq effect value => by
      simp [Expr.labels, Expr.events, Stmt.labels_eq_filterMap effect,
        Expr.labels_eq_filterMap value]

theorem IR.Expr.labelsOfList_eq_filterMap : (expressions : List Expr) →
    Expr.labelsOfList expressions = (Expr.eventsOfList expressions).filterMap Event.label?
  | [] => by simp [Expr.labelsOfList, Expr.eventsOfList]
  | expression :: rest => by
      simp [Expr.labelsOfList, Expr.eventsOfList, Expr.labels_eq_filterMap expression,
        Expr.labelsOfList_eq_filterMap rest]

theorem IR.Stmt.labels_eq_filterMap : (statement : Stmt) →
    statement.labels = statement.events.filterMap Event.label?
  | .seq items => by simp [Stmt.labels, Stmt.events, Stmt.labelsOfList_eq_filterMap items]
  | .label _ => by simp [Stmt.labels, Stmt.events, Event.label?]
  | .jump _ => by simp [Stmt.labels, Stmt.events, Event.label?]
  | .cjump condition _ _ => by
      simp [Stmt.labels, Stmt.events, Event.label?, Expr.labels_eq_filterMap condition]
  | .exp value => by simp [Stmt.labels, Stmt.events, Expr.labels_eq_filterMap value]
  | .move target source => by
      rw [Stmt.labels, Stmt.events, Expr.labels_eq_filterMap source,
        Expr.labels_append_eq_filterMap target]

theorem IR.Stmt.labelsOfList_eq_filterMap : (statements : List Stmt) →
    Stmt.labelsOfList statements = (Stmt.eventsOfList statements).filterMap Event.label?
  | [] => by simp [Stmt.labelsOfList, Stmt.eventsOfList]
  | statement :: rest => by
      simp [Stmt.labelsOfList, Stmt.eventsOfList, Stmt.labels_eq_filterMap statement,
        Stmt.labelsOfList_eq_filterMap rest]

/-- A store passes the places of its target, then those of its source. -/
theorem IR.Expr.labels_append_eq_filterMap {source : List Event} : (target : Expr) →
    target.labels ++ source.filterMap Event.label? =
      (target.storeEvents source).filterMap Event.label?
  | .const _ | .name _ => by simp [Expr.labels, Expr.storeEvents]
  | .temp _ => by simp [Expr.labels, Expr.storeEvents, Event.label?]
  | .mem address => by
      simp [Expr.labels, Expr.storeEvents, Event.label?, Expr.labels_eq_filterMap address]
  | .binop _ left right => by
      simp [Expr.labels, Expr.storeEvents, Event.label?, List.filterMap_cons,
        Expr.labels_eq_filterMap left, Expr.labels_eq_filterMap right]
  | .call _ arguments => by
      simp [Expr.labels, Expr.storeEvents, Event.label?, List.filterMap_cons,
        Expr.labelsOfList_eq_filterMap arguments]
  | .eseq effect value => by
      simp [Expr.labels, Expr.storeEvents, Stmt.labels_eq_filterMap effect,
        ← Expr.labels_append_eq_filterMap value]

end

mutual

theorem IR.Expr.labels_of_isPlain : (expression : Expr) → expression.isPlain = true →
    expression.labels = []
  | .const _, _ | .name _, _ | .temp _, _ => by simp [Expr.labels]
  | .mem address, plain => by rw [Expr.labels, Expr.labels_of_isPlain address plain]
  | .binop _ left right, plain => by
      rw [Expr.isPlain, Bool.and_eq_true] at plain
      rw [Expr.labels, Expr.labels_of_isPlain left plain.1, Expr.labels_of_isPlain right plain.2,
        List.append_nil]
  | .call _ arguments, plain => by
      rw [Expr.labels, Expr.labelsOfList_of_arePlain arguments plain]

theorem IR.Expr.labelsOfList_of_arePlain : (expressions : List Expr) →
    Expr.arePlain expressions = true → Expr.labelsOfList expressions = []
  | [], _ => by simp [Expr.labelsOfList]
  | expression :: rest, plain => by
      rw [Expr.arePlain, Bool.and_eq_true] at plain
      rw [Expr.labelsOfList, Expr.labels_of_isPlain expression plain.1,
        Expr.labelsOfList_of_arePlain rest plain.2, List.append_nil]

end

end TreeBackend
