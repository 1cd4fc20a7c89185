import TreeBackend.Proofs.Flattening.Inversion

/-!
# Where flattening fails

Flattening fails only at a store whose target, behind all statements in front of
it, is neither a temporary nor a cell.  If there are several of them, it reports
the first one that it reaches.
-/

namespace TreeBackend

open IR (Expr Stmt TempSupply)

/-- What a target stands for, behind the statements in front of it. -/
def IR.Expr.destination : Expr → Expr
  | .eseq _ value => value.destination
  | expression => expression

/-- Whether an expression stands for a temporary or a cell, behind the statements
in front of it. -/
def IR.Expr.isTarget : Expr → Bool
  | .temp _ | .mem _ => true
  | .eseq _ value => value.isTarget
  | .const _ | .name _ | .binop .. | .call .. => false

mutual

/-- The targets of the stores inside an expression, in the order in which they are
reached. -/
def IR.Expr.storeTargets : Expr → List Expr
  | .const _ | .name _ | .temp _ => []
  | .mem address => address.storeTargets
  | .binop _ left right => left.storeTargets ++ right.storeTargets
  | .call _ arguments => Expr.storeTargetsOfList arguments
  | .eseq effect value => effect.storeTargets ++ value.storeTargets

def IR.Expr.storeTargetsOfList : List Expr → List Expr
  | [] => []
  | expression :: rest => expression.storeTargets ++ Expr.storeTargetsOfList rest

/-- The targets of the stores inside the target of a store, and between them the one of
the store itself.  It is reached behind the statements in front of its destination, and
the parts of the destination come after it. -/
def IR.Expr.storeTargetsUpTo : Expr → Expr → List Expr
  | .const _, target | .name _, target | .temp _, target => [target]
  | .mem address, target => target :: address.storeTargets
  | .binop _ left right, target => target :: (left.storeTargets ++ right.storeTargets)
  | .call _ arguments, target => target :: Expr.storeTargetsOfList arguments
  | .eseq effect value, target => effect.storeTargets ++ value.storeTargetsUpTo target

/-- The targets of the stores of a statement at any depth, in the order in which they
are reached. -/
def IR.Stmt.storeTargets : Stmt → List Expr
  | .seq items => Stmt.storeTargetsOfList items
  | .label _ | .jump _ => []
  | .cjump condition _ _ => condition.storeTargets
  | .exp value => value.storeTargets
  | .move target source => target.storeTargetsUpTo target ++ source.storeTargets

def IR.Stmt.storeTargetsOfList : List Stmt → List Expr
  | [] => []
  | statement :: rest => statement.storeTargets ++ Stmt.storeTargetsOfList rest

end

theorem IR.Expr.isTarget_destination :
    (expression : Expr) → expression.destination.isTarget = expression.isTarget
  | .eseq _ value => value.isTarget_destination
  | .const _ | .name _ | .temp _ | .mem _ | .binop .. | .call .. => rfl

/-- The first of some targets that is neither a temporary nor a cell. -/
def IR.Expr.firstMisplaced? (targets : List Expr) : Option Expr :=
  targets.find? fun target => !target.isTarget

theorem IR.Expr.firstMisplaced?_eq_none_iff {targets : List Expr} :
    firstMisplaced? targets = none ↔ ∀ target ∈ targets, target.isTarget = true := by
  simp [firstMisplaced?]

namespace Flattening

open IR.Expr (firstMisplaced?)

/-- The error for a store to something that is neither a temporary nor a cell. -/
def misplaced (target : Expr) : CompileError :=
  .unflattenable ("move into " ++ target.destination.inline)

/-- A part of flattening that reaches stores to some targets, one after the other: it
fails at the first one that is neither a temporary nor a cell, and only there. -/
def Reaches {α : Type} (part : Flattening α) (targets : List Expr) : Prop :=
  ∀ supply, match firstMisplaced? targets with
    | none => ∃ result rest, part supply = .ok (result, rest)
    | some target => part supply = .error (misplaced target)

namespace Reaches

variable {α β : Type} {part : Flattening α} {next : α → Flattening β} {first second : List Expr}

theorem pure (value : α) : Reaches (pure value : Flattening α) [] :=
  fun supply => ⟨value, supply, rfl⟩

theorem bind (left : Reaches part first) (right : ∀ value, Reaches (next value) second) :
    Reaches (part >>= next) (first ++ second) := by
  intro supply
  have sequence : (part >>= next) supply = part supply >>= fun step => next step.1 step.2 := rfl
  have reached := left supply
  rw [firstMisplaced?, List.find?_append, ← firstMisplaced?, sequence]
  cases found : firstMisplaced? first with
  | none =>
      rw [found] at reached
      obtain ⟨value, middle, done⟩ := reached
      rw [done]
      exact right value middle
  | some target =>
      rw [found] at reached
      rw [reached]
      rfl

/-- A part that never fails. -/
theorem then_pure (reaches : Reaches part first) (finish : α → β) :
    Reaches (part >>= fun value => Pure.pure (finish value)) first := by
  simpa using reaches.bind fun value => pure (finish value)

/-- A store that may be made. -/
theorem store {target : Expr} (reaches : Reaches part first) (placed : target.isTarget = true) :
    Reaches part (target :: first) := by
  unfold Reaches firstMisplaced?
  rw [List.find?_cons_of_neg (by simpa using placed)]
  exact reaches

/-- A store that may not be made. -/
theorem failure {target reached : Expr} (stuck : target.isTarget = false)
    (same : target.destination = reached) :
    Reaches (throw (.unflattenable ("move into " ++ reached.inline)) : Flattening α)
      (target :: first) := by
  unfold Reaches firstMisplaced?
  rw [List.find?_cons_of_pos (by simpa using stuck), ← same]
  exact fun _ => rfl

end Reaches

/-! ### Operands reach no store of their own -/

theorem reaches_drawTemp : Reaches drawTemp [] :=
  fun supply => ⟨supply.next, supply.rest, rfl⟩

theorem reaches_keep (value : Expr) : Reaches (keep value) [] := by
  unfold keep
  split
  · exact .pure _
  · exact reaches_drawTemp.then_pure _

theorem reaches_keepAll (values : List Expr) : Reaches (keepAll values) [] := by
  induction values with
  | nil => exact .pure _
  | cons value rest ih => exact (reaches_keep value).bind fun kept => ih.then_pure _

theorem reaches_append (operands : FlattenedOperands) (next : Flattened) :
    Reaches (append operands next) [] := by
  unfold append
  split
  · exact .pure _
  · exact (reaches_keepAll _).then_pure _

theorem reaches_pair (first second : Flattened) : Reaches (pair first second) [] := by
  unfold pair
  split
  · exact .pure _
  · exact (reaches_keep _).then_pure _

mutual

theorem reaches_ofStmt : (statement : Stmt) → Reaches (ofStmt statement) statement.storeTargets
  | .seq items => reaches_ofStmts items
  | .label _ | .jump _ => .pure _
  | .cjump condition _ _ => (reaches_ofExpr condition).then_pure _
  | .exp value => (reaches_ofExpr value).then_pure _
  | .move target source => reaches_ofMove target rfl (reaches_ofExpr source)

theorem reaches_ofStmts : (statements : List Stmt) →
    Reaches (ofStmts statements) (Stmt.storeTargetsOfList statements)
  | [] => .pure _
  | statement :: rest => (reaches_ofStmt statement).bind fun _ => (reaches_ofStmts rest).then_pure _

/-- On the way to the destination of a store, what is left of its target stands for the
same destination. -/
theorem reaches_ofMove : (expression : Expr) → {target : Expr} → {source : Flattening Flattened} →
    {targets : List Expr} → target.destination = expression.destination →
    Reaches source targets →
    Reaches (ofMove source expression) (expression.storeTargetsUpTo target ++ targets)
  | .temp _, target, _, _, same, reaches =>
      (reaches.then_pure _).store (by rw [← target.isTarget_destination, same]; rfl)
  | .mem address, target, _, _, same, reaches => by
      refine Reaches.store ?_ (by rw [← target.isTarget_destination, same]; rfl)
      refine (reaches_ofExpr address).bind fun flat => ?_
      simpa using reaches.bind fun value => (reaches_pair flat value).then_pure _
  | .eseq effect value, target, _, _, same, reaches => by
      rw [Expr.storeTargetsUpTo, List.append_assoc]
      exact (reaches_ofStmt effect).bind fun _ =>
        (reaches_ofMove value same reaches).then_pure _
  | .const _, target, _, _, same, _ | .name _, target, _, _, same, _
  | .binop .., target, _, _, same, _ | .call .., target, _, _, same, _ =>
      .failure (by rw [← target.isTarget_destination, same]; rfl) same

theorem reaches_ofExpr : (expression : Expr) → Reaches (ofExpr expression) expression.storeTargets
  | .const _ | .name _ | .temp _ => .pure _
  | .mem address => (reaches_ofExpr address).then_pure _
  | .binop _ left right => by
      refine (reaches_ofExpr left).bind fun first => ?_
      simpa using (reaches_ofExpr right).bind fun second => (reaches_pair first second).then_pure _
  | .call _ arguments => (reaches_ofOperands arguments {}).then_pure _
  | .eseq effect value => (reaches_ofStmt effect).bind fun _ => (reaches_ofExpr value).then_pure _

theorem reaches_ofOperands : (operands : List Expr) → (done : FlattenedOperands) →
    Reaches (ofOperands done operands) (Expr.storeTargetsOfList operands)
  | [], _ => .pure _
  | operand :: rest, done => (reaches_ofExpr operand).bind fun flat =>
      (reaches_append done flat).bind fun next => reaches_ofOperands rest next

end

/-! ### No operand is missing -/

/-- The error for a construct that is short of operands. -/
def missingOperands (what : String) : CompileError :=
  .unflattenable (what ++ " with missing operands")

/-- Takes two operands off the end of those of a construct. -/
def takeTwo (what : String) (operands : FlattenedOperands) : Flattening (List Stmt × Expr × Expr) :=
  match operands.values.reverse with
  | second :: first :: _ => return (operands.before, first, second)
  | [] | [_] => throw (missingOperands what)

/-- There is nothing to keep in front of the first operand. -/
theorem append_first (operand : Flattened) :
    append {} operand = pure ⟨operand.before, [operand.value]⟩ := by
  unfold append
  split
  · next quiet => rw [List.isEmpty_iff.mp quiet]; rfl
  · rfl

theorem pair_eq_takeTwo (what : String) (first second : Flattened) :
    pair first second = append ⟨first.before, [first.value]⟩ second >>= takeTwo what := by
  unfold pair append
  split <;> simp [keepAll, takeTwo]

theorem ofOperands_pair_eq (left right : Expr) :
    ofOperands {} [left, right] = (do
      let first ← ofExpr left
      let second ← ofExpr right
      append ⟨first.before, [first.value]⟩ second) := by
  simp [ofOperands, append_first]

theorem ofExpr_binop_eq_takeTwo (operator : Operator) (left right : Expr) :
    ofExpr (.binop operator left right) = do
      let operands ← ofOperands {} [left, right]
      let (before, first, second) ← takeTwo operator.mnemonic operands
      return ⟨before, .binop operator first second⟩ := by
  simp [ofExpr, ofOperands_pair_eq, pair_eq_takeTwo operator.mnemonic]

/-- The address and the value of a store to a cell are the last two of a row of two. -/
theorem ofStmt_move_mem_eq_takeTwo (address source : Expr) :
    ofStmt (.move (.mem address) source) = do
      let operands ← ofOperands {} [address, source]
      let (before, place, value) ← takeTwo "move" operands
      return before ++ [.move (.mem place) value] := by
  simp [ofStmt, ofMove, ofOperands_pair_eq, pair_eq_takeTwo "move"]

/-- Whatever is not a temporary, a cell or a statement with a value is shown with a
bracket at its end. -/
theorem inline_destination_eq_append :
    (target : Expr) → target.isTarget = false → ∃ text ending,
      target.destination.inline = text ++ ending ∧ ending ∈ [")", " \x7d", "] \x7d"]
  | .eseq _ value, stuck => inline_destination_eq_append value stuck
  | .temp _, stuck | .mem _, stuck => nomatch stuck
  | .const _, _ | .name _, _ | .binop .., _ | .call .., _ => ⟨_, _, rfl, by simp⟩

/-- The last characters tell the two kinds of errors apart. -/
theorem misplaced_ne_missingOperands {target : Expr} (stuck : target.isTarget = false)
    (what : String) : misplaced target ≠ missingOperands what := by
  obtain ⟨text, ending, shown, bracket⟩ := inline_destination_eq_append target stuck
  intro same
  have lasts := congrArg (fun text => text.toList.getLast?) (CompileError.unflattenable.inj same)
  simp only [shown, String.toList_append, List.getLast?_append] at lasts
  simp only [List.mem_cons, List.not_mem_nil, or_false] at bracket
  obtain rfl | rfl | rfl := bracket <;> exact nomatch lasts

/-- Flattening a statement fails exactly if there is a store in it, at any depth, whose
destination is neither a temporary nor a cell.  The error shows the destination of the
first such store that is reached.  Operands are never missing, although constructs with
two operands take them off the end of a row. -/
theorem ofStmt_fails_iff_store_misplaced (statement : Stmt) (supply : TempSupply) :
    ((∃ problem, ofStmt statement supply = .error problem) ↔
      ∃ target ∈ statement.storeTargets, target.destination.isTarget = false) ∧
    (∀ problem, ofStmt statement supply = .error problem ↔
      ∃ target, statement.storeTargets.find? (fun target => !target.destination.isTarget) =
        some target ∧ problem = .unflattenable ("move into " ++ target.destination.inline)) ∧
    (∀ what, ofStmt statement supply ≠ .error (missingOperands what)) ∧
    (∀ operator left right, ofExpr (.binop operator left right) = do
      let operands ← ofOperands {} [left, right]
      let (before, first, second) ← takeTwo operator.mnemonic operands
      return ⟨before, .binop operator first second⟩) ∧
    ∀ address source, ofStmt (.move (.mem address) source) = do
      let operands ← ofOperands {} [address, source]
      let (before, place, value) ← takeTwo "move" operands
      return before ++ [.move (.mem place) value] := by
  have verdict : ∀ problem, ofStmt statement supply = .error problem ↔
      ∃ target, firstMisplaced? statement.storeTargets = some target ∧
        problem = misplaced target := by
    have reached := reaches_ofStmt statement supply
    intro problem
    cases found : firstMisplaced? statement.storeTargets with
    | none =>
        rw [found] at reached
        obtain ⟨result, rest, done⟩ := reached
        simp [done]
    | some target =>
        rw [found] at reached
        simp [reached, eq_comm]
  simp only [Expr.isTarget_destination]
  refine ⟨?_, verdict, ?_, ofExpr_binop_eq_takeTwo, ofStmt_move_mem_eq_takeTwo⟩
  · calc (∃ problem, ofStmt statement supply = .error problem)
        ↔ (firstMisplaced? statement.storeTargets).isSome := by
          simp [verdict, Option.isSome_iff_exists, exists_comm]
      _ ↔ ∃ target ∈ statement.storeTargets, target.isTarget = false := by
          simp [firstMisplaced?]
  · intro what missing
    obtain ⟨target, found, same⟩ := (verdict _).mp missing
    have stuck : target.isTarget = false := by simpa using List.find?_some found
    exact misplaced_ne_missingOperands stuck what same.symm

/-- The store in front of the destination of another one is reached before it. -/
example : ofStmt (.move (.eseq (.move (.const 1) (.const 2)) (.const 3)) (.const 4)) {} =
    .error (.unflattenable "move into Const(1)") := by
  rfl

end Flattening

end TreeBackend
