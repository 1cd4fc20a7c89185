import TreeBackend.Proofs.Lowering.Events
import TreeBackend.Proofs.Source.Parts

/-!
# Code without loops

Where an expression contains no loop, the jumps of its code lead forward: each goes to a place
that comes after it in the run through the tree.  Only the order of places, jumps and calls
matters for this, and a target that an assignment mentions twice brings its places twice, each
time behind the jumps to them.  The calls of the code are those of the expression.
-/

namespace TreeBackend

open IR (Stmt Event)

/-- The places, jumps and calls among events, in their order. -/
def IR.Event.loud (events : List Event) : List Event :=
  events.filter fun event => !event.isQuiet

namespace IR.Event

@[simp] theorem loud_nil : loud [] = [] := rfl

@[simp] theorem loud_append (first second : List Event) :
    loud (first ++ second) = loud first ++ loud second :=
  List.filter_append ..

@[simp] theorem loud_compute (operator : Operator) (rest : List Event) :
    loud (.compute operator :: rest) = loud rest := rfl

@[simp] theorem loud_load (rest : List Event) : loud (.load :: rest) = loud rest := rfl

@[simp] theorem loud_store (rest : List Event) : loud (.store :: rest) = loud rest := rfl

@[simp] theorem loud_assign (temp : IR.Temp) (rest : List Event) :
    loud (.assign temp :: rest) = loud rest := rfl

theorem loud_cons_of_loud {event : Event} {rest : List Event}
    (isLoud : event.isQuiet = false) : loud (event :: rest) = event :: loud rest := by
  simp [loud, isLoud]

@[simp] theorem loud_label (label : Label) (rest : List Event) :
    loud (.label label :: rest) = .label label :: loud rest := rfl

@[simp] theorem loud_jump (target : Label) (rest : List Event) :
    loud (.jump target :: rest) = .jump target :: loud rest := rfl

@[simp] theorem loud_branch (whenTrue whenFalse : Label) (rest : List Event) :
    loud (.branch whenTrue whenFalse :: rest) = .branch whenTrue whenFalse :: loud rest := rfl

@[simp] theorem loud_call (label : Label) (arguments : Nat) (rest : List Event) :
    loud (.call label arguments :: rest) = .call label arguments :: loud rest := rfl

theorem loud_eq_nil {events : List Event} (quiet : ∀ event ∈ events, event.isQuiet = true) :
    loud events = [] :=
  List.filter_eq_nil_iff.mpr fun event member => by simp [quiet event member]

theorem mem_loud {events : List Event} {event : Event} (isLoud : event.isQuiet = false) :
    event ∈ loud events ↔ event ∈ events := by
  simp [loud, List.mem_filter, isLoud]

end IR.Event

open IR.Event (loud)

/-- Each jump goes to a place that comes after it. -/
def LeadsForward (events : List Event) : Prop :=
  ∀ front event back, events = front ++ event :: back →
    ∀ target ∈ event.targets, .label target ∈ back

namespace LeadsForward

variable {events more : List Event}

theorem nil : LeadsForward [] := by
  rintro (_ | ⟨_, _⟩) event back same <;> cases same

/-- In front of code stands what jumps into the code, if it jumps at all. -/
theorem cons {event : Event} (rest : LeadsForward events)
    (into : ∀ target ∈ event.targets, .label target ∈ events) :
    LeadsForward (event :: events) := by
  rintro (_ | ⟨head, front⟩) other back same target isTarget
  · obtain ⟨rfl, rfl⟩ := List.cons.inj same
    exact into target isTarget
  · obtain ⟨rfl, rfl⟩ := List.cons.inj same
    exact rest front other back rfl target isTarget

theorem append (left : LeadsForward events) (right : LeadsForward more) :
    LeadsForward (events ++ more) := by
  intro front event back same target isTarget
  rcases List.append_eq_append_iff.mp same with ⟨between, rfl, isMore⟩ | ⟨between, isFirst, rest⟩
  · exact right between event back isMore target isTarget
  · cases between with
    | nil => exact right [] event back rest.symm target isTarget
    | cons head between =>
        obtain ⟨rfl, rfl⟩ := List.cons.inj rest
        exact List.mem_append_left _ (left front event between isFirst target isTarget)

/-- Quiet events are no places and no jumps. -/
theorem iff_loud : LeadsForward events ↔ LeadsForward (loud events) := by
  constructor
  · intro forward front event back same target isTarget
    obtain ⟨before, rest, rfl, -, isRest⟩ := List.filter_eq_append_iff.mp same
    obtain ⟨between, after, rfl, -, -, rfl⟩ := List.filter_eq_cons_iff.mp isRest
    rw [← List.append_assoc] at forward
    exact List.mem_filter.mpr ⟨forward _ event after rfl target isTarget, rfl⟩
  · rintro forward front event back rfl target isTarget
    have isLoud : event.isQuiet = false := by
      cases event <;> first | rfl | cases isTarget
    rw [Event.loud_append, Event.loud_cons_of_loud isLoud] at forward
    exact (Event.mem_loud rfl).mp (forward _ event _ rfl target isTarget)

end LeadsForward

def Source.Expr.isLoop : Source.Expr → Bool
  | .whileLoop .. | .forLoop .. => true
  | .literal .. | .name .. | .unary .. | .binary .. | .call .. | .block .. | .ifThen ..
  | .ifThenElse .. | .whereIn .. => false

namespace Lowering

open Source

/-- A label is called by a call in a list of expressions: it is that of a builtin, or of a
function to which the call refers. -/
def IsCallee (context : LoweringContext) (parts : List Source.Expr) (label : Label) : Prop :=
  ∃ node name arguments, .call node name arguments ∈ parts ∧
    ((∃ builtin, Builtin.ofName? name = some builtin ∧ label = .named builtin.name) ∨
      Builtin.ofName? name = none ∧ ∃ definition frame,
        context.resolution.definitionOf? node.id = some definition ∧
        context.frames.frame? definition = some frame ∧ label = frame.label)

/-- The events of the code of expressions without loops: jumps lead forward, and calls are those
of the expressions. -/
structure Advances (context : LoweringContext) (parts : List Source.Expr) (events : List Event) :
    Prop where
  forward : LeadsForward events
  callees : ∀ label number, .call label number ∈ events → IsCallee context parts label

namespace Advances

variable {context : LoweringContext} {parts : List Source.Expr} {events more : List Event}

theorem congr (advances : Advances context parts events) (same : loud more = loud events) :
    Advances context parts more where
  forward := by
    rw [LeadsForward.iff_loud, same, ← LeadsForward.iff_loud]
    exact advances.forward
  callees label number member := by
    have isLoud := (Event.mem_loud rfl).mpr member
    rw [same] at isLoud
    exact advances.callees label number ((Event.mem_loud rfl).mp isLoud)

theorem append (left : Advances context parts events) (right : Advances context parts more) :
    Advances context parts (events ++ more) where
  forward := left.forward.append right.forward
  callees label number member :=
    (List.mem_append.mp member).elim (left.callees label number) (right.callees label number)

theorem nil : Advances context parts [] where
  forward := .nil
  callees label number member := by cases member

theorem place (rest : Advances context parts events) (label : Label) :
    Advances context parts (.label label :: events) where
  forward := rest.forward.cons fun target isTarget => by cases isTarget
  callees called number member :=
    rest.callees called number ((List.mem_cons.mp member).resolve_left Event.noConfusion)

theorem jump (rest : Advances context parts events) (target : Label)
    (into : .label target ∈ events) : Advances context parts (.jump target :: events) where
  forward := rest.forward.cons (by simpa [Event.targets] using into)
  callees called number member :=
    rest.callees called number ((List.mem_cons.mp member).resolve_left Event.noConfusion)

theorem branch (rest : Advances context parts events) (whenTrue whenFalse : Label)
    (first : .label whenTrue ∈ events) (second : .label whenFalse ∈ events) :
    Advances context parts (.branch whenTrue whenFalse :: events) where
  forward := rest.forward.cons (by simpa [Event.targets] using ⟨first, second⟩)
  callees called number member :=
    rest.callees called number ((List.mem_cons.mp member).resolve_left Event.noConfusion)

theorem call (rest : Advances context parts events) {label : Label}
    (isCallee : IsCallee context parts label) (number : Nat) :
    Advances context parts (.call label number :: events) where
  forward := rest.forward.cons fun target isTarget => by cases isTarget
  callees called passed member := by
    rcases List.mem_cons.mp member with same | member
    · obtain ⟨rfl, -⟩ := Event.call.inj same
      exact isCallee
    · exact rest.callees called passed member

theorem quiet (quiet : ∀ event ∈ events, event.isQuiet = true) :
    Advances context parts events :=
  nil.congr (Event.loud_eq_nil quiet)

end Advances

/-! ### Constructs -/

section Constructs

variable {context : LoweringContext} {parts : List Source.Expr}

theorem loud_storeEvents (source : List Event) (target : IR.Expr) :
    loud (target.storeEvents source) = loud target.events ++ loud source := by
  cases target with
  | eseq _ value => simp [IR.Expr.storeEvents, IR.Expr.events, loud_storeEvents source value]
  | const | name | temp | mem | binop | call => simp [IR.Expr.storeEvents, IR.Expr.events]

theorem loud_baseAddress (value : IR.Expr) :
    loud (baseAddress value).events = loud value.events := by
  cases value <;> simp [baseAddress, IR.Expr.events]

theorem advances_unary {operator : UnaryOperator} {operand : IR.Expr}
    (advances : Advances context parts operand.events) :
    Advances context parts (unary operator operand).events :=
  advances.congr (by cases operator <;> simp [unary, IR.Expr.events])

/-- An assignment may run through its target twice. -/
theorem advances_ofBinary {node : Node} {operator : BinaryOperator} {left right value : IR.Expr}
    {state final : LoweringState} (first : Advances context parts left.events)
    (second : Advances context parts right.events)
    (lowered : ofBinary context node operator left right state = .ok value final) :
    Advances context parts value.events := by
  have both := first.append second
  have twice : Advances context parts (assignment left right).events :=
    (both.append first).congr (by
      simp [assignment, IR.Expr.events, Stmt.events, loud_storeEvents])
  cases operator with
  | compute operator =>
      obtain ⟨rfl, -⟩ := Outcome.pure_eq_ok.mp lowered
      exact both.congr (by simp [IR.Expr.events])
  | index =>
      obtain ⟨_, -, rfl, -⟩ := ofBinary_index_eq_ok.mp lowered
      exact both.congr (by simp [elementCell, IR.Expr.events, loud_baseAddress])
  | assign =>
      cases left with
      | mem address =>
          rw [ofBinary_assign_mem_eq_ok] at lowered
          split at lowered
          · obtain ⟨rfl, -⟩ := lowered
            exact twice
          · obtain ⟨rfl, -⟩ := lowered
            exact both.congr (by
              simp [assignmentOnce, IR.Expr.events, Stmt.events, Stmt.eventsOfList,
                IR.Expr.storeEvents])
      | const | name | temp | binop | call | eseq =>
          obtain ⟨rfl, -⟩ := Outcome.pure_eq_ok.mp lowered
          exact twice

theorem advances_call {node : Node} {name : String} {callee : Callee}
    {sources : List Source.Expr} {arguments : List IR.Expr} {level : Nat}
    {state final : LoweringState} (found : findCallee context node name state = .ok callee final)
    (member : .call node name sources ∈ parts)
    (advances : Advances context parts (IR.Expr.eventsOfList arguments)) :
    Advances context parts (call level callee arguments).events := by
  have isCallee : IsCallee context parts callee.label := by
    refine ⟨node, name, sources, member, ?_⟩
    obtain ⟨⟨builtin, isBuiltin, rfl⟩ | ⟨none, definition, frame, bound, isFrame, rfl⟩, -⟩ :=
      findCallee_eq_ok.mp found
    · exact .inl ⟨builtin, isBuiltin, rfl⟩
    · exact .inr ⟨none, definition, frame, bound, isFrame, rfl⟩
  refine (advances.append (Advances.nil.call isCallee (arguments.length + 1))).congr ?_
  have saves : loud (savePointer callee.savedPointerOffset).events = [] :=
    Event.loud_eq_nil fun event member => isQuiet_of_mem_savePointer member
  have links : loud (staticLink level callee.level).events = [] :=
    Event.loud_eq_nil fun event member => isQuiet_of_mem_staticLink member
  simp [call, IR.Expr.events, IR.Expr.eventsOfList, saves, links]

theorem advances_functionBody {value : IR.Expr} (advances : Advances context parts value.events) :
    Advances context parts (functionBody value).events :=
  advances.congr (by
    simp [functionBody, Stmt.events, loud_storeEvents, IR.Expr.framePointer, IR.Expr.events])

end Constructs

/-! ### Trees -/

section Trees

variable {context : LoweringContext} {parts : List Source.Expr}

mutual

/-- The code of an expression without loops leads forward. -/
theorem ofExpr_advances (loopFree : ∀ part ∈ parts, part.isLoop = false) :
    (expression : Source.Expr) → expression.ownParts ⊆ parts → {level : Nat} →
    {state final : LoweringState} → {code : Lowered} →
    ofExpr context level expression state = .ok code final →
    Advances context parts code.toStmt.events
  | .literal _ (.int _), _, _, _, _, _, lowered => by
      obtain ⟨rfl, -⟩ := ofExpr_int_eq_ok.mp lowered
      exact .quiet (by simp [toStmt_events, IR.Expr.events])
  | .literal _ (.log _), _, _, _, _, _, lowered => by
      obtain ⟨rfl, -⟩ := ofExpr_log_eq_ok.mp lowered
      exact .quiet (by simp [toStmt_events, IR.Expr.events])
  | .literal _ (.str _), _, _, _, _, _, lowered => by
      obtain ⟨rfl, -⟩ := ofExpr_str_eq_ok.mp lowered
      exact .quiet (by simp [toStmt_events, IR.Expr.events])
  | .name .., _, _, _, _, _, lowered => by
      obtain ⟨_, _, _, -, -, cell, rfl, -⟩ := ofExpr_name_eq_ok.mp lowered
      exact .quiet fun event member => isQuiet_of_mem_cell? cell member
  | .unary _ _ operand, own, _, _, _, _, lowered => by
      obtain ⟨-, within⟩ := List.cons_subset.mp own
      obtain ⟨_, operandLowered, rfl⟩ := ofExpr_unary_eq_ok.mp lowered
      exact advances_unary (ofExpr_advances loopFree operand within operandLowered)
  | .binary _ _ left right, own, _, _, _, _, lowered => by
      obtain ⟨lefts, rights⟩ := List.append_subset.mp (List.cons_subset.mp own).2
      obtain ⟨_, _, _, _, _, leftLowered, rightLowered, built, rfl⟩ :=
        ofExpr_binary_eq_ok.mp lowered
      exact advances_ofBinary (ofExpr_advances loopFree left lefts leftLowered)
        (ofExpr_advances loopFree right rights rightLowered) built
  | .call _ _ arguments, own, _, _, _, _, lowered => by
      obtain ⟨member, within⟩ := List.cons_subset.mp own
      obtain ⟨_, _, found, argumentsLowered, rfl⟩ := ofExpr_call_eq_ok.mp lowered
      exact advances_call found member (ofArguments_advances loopFree arguments within
        argumentsLowered)
  | .block _ items, own, _, _, _, _, lowered => by
      obtain ⟨-, within⟩ := List.cons_subset.mp own
      obtain ⟨_, _, itemsLowered, rfl⟩ := ofExpr_block_eq_ok.mp lowered
      have advances := ofExprs_advances loopFree items within itemsLowered
      rwa [← block_events] at advances
  | .ifThen _ condition thenBranch, own, _, _, _, _, lowered => by
      obtain ⟨conditions, thens⟩ := List.append_subset.mp (List.cons_subset.mp own).2
      obtain ⟨_, _, _, last, tests, branches, -, rfl⟩ := ofExpr_ifThen_eq_ok.mp lowered
      have exit : Advances context parts
          [.jump last.nextLabels.third, .label last.nextLabels.third] :=
        (Advances.nil.place _).jump _ (by simp)
      have branch := ((ofExpr_advances loopFree thenBranch thens branches).append exit).place
        last.nextLabels.first
      have split := branch.branch last.nextLabels.first last.nextLabels.third (by simp) (by simp)
      have whole := (ofExpr_advances loopFree condition conditions tests).append split
      simpa [Lowered.toStmt, ifThen, Stmt.events, Stmt.eventsOfList] using whole
  | .ifThenElse _ condition thenBranch elseBranch, own, _, _, _, _, lowered => by
      obtain ⟨both, elses⟩ := List.append_subset.mp (List.cons_subset.mp own).2
      obtain ⟨conditions, thens⟩ := List.append_subset.mp both
      obtain ⟨_, _, _, _, _, last, tests, branches, others, -, rfl⟩ :=
        ofExpr_ifThenElse_eq_ok.mp lowered
      have exit : Advances context parts
          [.jump last.nextLabels.third, .label last.nextLabels.third] :=
        (Advances.nil.place _).jump _ (by simp)
      have other := ((ofExpr_advances loopFree elseBranch elses others).append exit).place
        last.nextLabels.second
      have branch := ((ofExpr_advances loopFree thenBranch thens branches).append
        (other.jump last.nextLabels.third (by simp))).place last.nextLabels.first
      have split := branch.branch last.nextLabels.first last.nextLabels.second (by simp) (by simp)
      have whole := (ofExpr_advances loopFree condition conditions tests).append split
      simpa [Lowered.toStmt, ifThenElse, Stmt.events, Stmt.eventsOfList] using whole
  | .whileLoop .., own, _, _, _, _, _ => by
      cases loopFree _ (List.cons_subset.mp own).1
  | .forLoop .., own, _, _, _, _, _ => by
      cases loopFree _ (List.cons_subset.mp own).1
  | .whereIn _ _ inner, own, _, _, _, _, lowered => by
      obtain ⟨_, _, -, innerLowered, rfl⟩ := ofExpr_whereIn_eq_ok.mp lowered
      exact ofExpr_advances loopFree inner (List.cons_subset.mp own).2 innerLowered

theorem ofExprs_advances (loopFree : ∀ part ∈ parts, part.isLoop = false) :
    (expressions : List Source.Expr) → Source.Expr.ownPartsOfList expressions ⊆ parts →
    {level : Nat} → {state final : LoweringState} → {codes : List Lowered} →
    ofExprs context level expressions state = .ok codes final →
    Advances context parts (Stmt.eventsOfList (codes.map Lowered.toStmt))
  | [], _, _, _, _, _, lowered => by
      obtain ⟨rfl, -⟩ := ofExprs_nil_eq_ok.mp lowered
      exact .nil
  | expression :: others, own, _, _, _, _, lowered => by
      obtain ⟨firsts, rests⟩ := List.append_subset.mp own
      obtain ⟨_, _, _, first, rest, rfl⟩ := ofExprs_cons_eq_ok.mp lowered
      exact (ofExpr_advances loopFree expression firsts first).append
        (ofExprs_advances loopFree others rests rest)

theorem ofArguments_advances (loopFree : ∀ part ∈ parts, part.isLoop = false) :
    (expressions : List Source.Expr) → Source.Expr.ownPartsOfList expressions ⊆ parts →
    {level : Nat} → {state final : LoweringState} → {values : List IR.Expr} →
    ofArguments context level expressions state = .ok values final →
    Advances context parts (IR.Expr.eventsOfList values)
  | [], _, _, _, _, _, lowered => by
      obtain ⟨rfl, -⟩ := ofArguments_nil_eq_ok.mp lowered
      exact .nil
  | expression :: others, own, _, _, _, _, lowered => by
      obtain ⟨firsts, rests⟩ := List.append_subset.mp own
      obtain ⟨_, _, _, first, rest, rfl⟩ := ofArguments_cons_eq_ok.mp lowered
      exact (ofExpr_advances loopFree expression firsts first).append
        (ofArguments_advances loopFree others rests rest)

end

end Trees

end Lowering

end TreeBackend
