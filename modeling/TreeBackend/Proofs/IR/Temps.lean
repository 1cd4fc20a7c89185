import TreeBackend.IR.Tree

/-!
# Temporaries in trees

Which temporaries occur in a tree, which ones its statements assign, and when
the operands of a node leave each other's temporaries alone.
-/

namespace TreeBackend.IR

mutual

/-- The temporaries that occur in an expression, statements inside it included. -/
def Expr.temps : Expr → List Temp
  | .const _ | .name _ => []
  | .temp temp => [temp]
  | .mem address => address.temps
  | .binop _ left right => left.temps ++ right.temps
  | .call _ arguments => Expr.tempsOfList arguments
  | .eseq effect value => effect.temps ++ value.temps

def Expr.tempsOfList : List Expr → List Temp
  | [] => []
  | expression :: rest => expression.temps ++ Expr.tempsOfList rest

/-- The temporaries that occur in a statement. -/
def Stmt.temps : Stmt → List Temp
  | .seq items => Stmt.tempsOfList items
  | .label _ | .jump _ => []
  | .cjump condition _ _ => condition.temps
  | .exp value => value.temps
  | .move target source => target.temps ++ source.temps

def Stmt.tempsOfList : List Stmt → List Temp
  | [] => []
  | statement :: rest => statement.temps ++ Stmt.tempsOfList rest

end

mutual

def Expr.assigned : Expr → List Temp
  | .const _ | .name _ | .temp _ => []
  | .mem address => address.assigned
  | .binop _ left right => left.assigned ++ right.assigned
  | .call _ arguments => Expr.assignedOfList arguments
  | .eseq effect value => effect.assigned ++ value.assigned

def Expr.assignedOfList : List Expr → List Temp
  | [] => []
  | expression :: rest => expression.assigned ++ Expr.assignedOfList rest

def Stmt.assigned : Stmt → List Temp
  | .seq items => Stmt.assignedOfList items
  | .label _ | .jump _ => []
  | .cjump condition _ _ => condition.assigned
  | .exp value => value.assigned
  | .move target source => target.assignedAsTarget ++ source.assigned

def Stmt.assignedOfList : List Stmt → List Temp
  | [] => []
  | statement :: rest => statement.assigned ++ Stmt.assignedOfList rest

def Expr.assignedAsTarget : Expr → List Temp
  | .temp temp => [temp]
  | .eseq effect value => effect.assigned ++ value.assignedAsTarget
  | .mem address => address.assigned
  | .const _ | .name _ | .binop .. | .call .. => []

end

theorem append_subset_append {first second others more : List Temp} (left : first ⊆ others)
    (right : second ⊆ more) : first ++ second ⊆ others ++ more :=
  List.append_subset.mpr
    ⟨List.subset_append_of_subset_left _ left, List.subset_append_of_subset_right _ right⟩

mutual

theorem Expr.assigned_subset : (expression : Expr) → expression.assigned ⊆ expression.temps
  | .const _ | .name _ | .temp _ => List.nil_subset _
  | .mem address => Expr.assigned_subset address
  | .binop _ left right =>
      append_subset_append (Expr.assigned_subset left) (Expr.assigned_subset right)
  | .call _ arguments => Expr.assignedOfList_subset arguments
  | .eseq effect value =>
      append_subset_append (Stmt.assigned_subset effect) (Expr.assigned_subset value)

theorem Expr.assignedOfList_subset : (expressions : List Expr) →
    Expr.assignedOfList expressions ⊆ Expr.tempsOfList expressions
  | [] => List.nil_subset _
  | expression :: rest =>
      append_subset_append (Expr.assigned_subset expression) (Expr.assignedOfList_subset rest)

theorem Stmt.assigned_subset : (statement : Stmt) → statement.assigned ⊆ statement.temps
  | .seq items => Stmt.assignedOfList_subset items
  | .label _ | .jump _ => List.nil_subset _
  | .cjump condition _ _ => Expr.assigned_subset condition
  | .exp value => Expr.assigned_subset value
  | .move target source =>
      append_subset_append (Expr.assignedAsTarget_subset target) (Expr.assigned_subset source)

theorem Stmt.assignedOfList_subset : (statements : List Stmt) →
    Stmt.assignedOfList statements ⊆ Stmt.tempsOfList statements
  | [] => List.nil_subset _
  | statement :: rest =>
      append_subset_append (Stmt.assigned_subset statement) (Stmt.assignedOfList_subset rest)

theorem Expr.assignedAsTarget_subset : (target : Expr) → target.assignedAsTarget ⊆ target.temps
  | .temp _ => List.Subset.refl _
  | .eseq effect value =>
      append_subset_append (Stmt.assigned_subset effect) (Expr.assignedAsTarget_subset value)
  | .mem address => Expr.assigned_subset address
  | .const _ | .name _ | .binop .. | .call .. => List.nil_subset _

end

/-- No temporary of the first list is in the second one. -/
def spares (occurring assigned : List Temp) : Bool := occurring.all fun temp => temp ∉ assigned

theorem spares_iff {occurring assigned : List Temp} :
    spares occurring assigned = true ↔ ∀ temp ∈ occurring, temp ∉ assigned := by
  simp [spares]

/-- The temporary whose value an expression gives at its end, if it ends in one. -/
def Expr.lastTemp? : Expr → Option Temp
  | .temp last => some last
  | .eseq _ value => value.lastTemp?
  | _ => none

theorem Expr.mem_temps_of_lastTemp? {expression : Expr} {temp : Temp}
    (ends : expression.lastTemp? = some temp) : temp ∈ expression.temps := by
  match expression with
  | .temp _ => simpa [Expr.lastTemp?, Expr.temps, eq_comm] using ends
  | .eseq _ value => exact List.mem_append_right _ (Expr.mem_temps_of_lastTemp? ends)
  | .const _ | .name _ | .mem _ | .binop .. | .call .. => simp [Expr.lastTemp?] at ends

mutual

/-- Whether no operand of an operator, a call or a store to a cell assigns a
temporary that occurs in an operand to its left. -/
def Expr.isUndisturbed : Expr → Bool
  | .const _ | .name _ | .temp _ => true
  | .mem address => address.isUndisturbed
  | .binop _ left right =>
      left.isUndisturbed && right.isUndisturbed && spares left.temps right.assigned
  | .call _ arguments => Expr.areUndisturbed arguments
  | .eseq effect value => effect.isUndisturbed && value.isUndisturbed

def Expr.areUndisturbed : List Expr → Bool
  | [] => true
  | operand :: rest =>
      operand.isUndisturbed && spares operand.temps (Expr.assignedOfList rest) &&
        Expr.areUndisturbed rest

def Stmt.isUndisturbed : Stmt → Bool
  | .seq items => Stmt.areUndisturbed items
  | .label _ | .jump _ => true
  | .cjump condition _ _ => condition.isUndisturbed
  | .exp value => value.isUndisturbed
  | .move target source => source.isUndisturbed && target.isUndisturbedTarget source.assigned

def Stmt.areUndisturbed : List Stmt → Bool
  | [] => true
  | statement :: rest => statement.isUndisturbed && Stmt.areUndisturbed rest

def Expr.isUndisturbedTarget (assigned : List Temp) : Expr → Bool
  | .mem address => address.isUndisturbed && spares address.temps assigned
  | .eseq effect value => effect.isUndisturbed && value.isUndisturbedTarget assigned
  | .const _ | .name _ | .temp _ | .binop .. | .call .. => true

end

mutual

/-- Whether an expression is free of labels and jumps. -/
def Expr.isStraight : Expr → Bool
  | .const _ | .name _ | .temp _ => true
  | .mem address => address.isStraight
  | .binop _ left right => left.isStraight && right.isStraight
  | .call _ arguments => Expr.areStraight arguments
  | .eseq effect value => effect.isStraight && value.isStraight

/-- Whether expressions are free of labels and jumps. -/
def Expr.areStraight : List Expr → Bool
  | [] => true
  | expression :: rest => expression.isStraight && Expr.areStraight rest

/-- Whether a statement is free of labels and jumps. -/
def Stmt.isStraight : Stmt → Bool
  | .seq items => Stmt.areStraight items
  | .label _ | .jump _ | .cjump .. => false
  | .exp value => value.isStraight
  | .move target source => target.isStraight && source.isStraight

/-- Whether statements are free of labels and jumps. -/
def Stmt.areStraight : List Stmt → Bool
  | [] => true
  | statement :: rest => statement.isStraight && Stmt.areStraight rest

end

theorem Expr.mem_tempsOfList {expressions : List Expr} {temp : Temp} :
    temp ∈ Expr.tempsOfList expressions ↔ ∃ expression ∈ expressions, temp ∈ expression.temps := by
  induction expressions with
  | nil => simp [Expr.tempsOfList]
  | cons expression rest ih => simp [Expr.tempsOfList, ih]

end TreeBackend.IR
