import TreeBackend.IR.Tree

/-!
# The events of code

What code does when it is evaluated, apart from the values that it computes: the places
that it passes, its jumps, calls and operators, its loads and stores, and the temporaries
that it assigns.  The events of a tree come in the order in which the tree is evaluated:
operands from left to right, a statement before the value that follows it, and the
address of a store before what is stored.
-/

namespace TreeBackend.IR

/-- Something that code does. -/
inductive Event where
  | label (label : Label)
  | jump (target : Label)
  | branch (whenTrue whenFalse : Label)
  | call (label : Label) (arguments : Nat)
  | compute (operator : Operator)
  | load
  | store
  | assign (temp : Temp)
  deriving DecidableEq, Repr

def Event.label? : Event → Option Label
  | .label place => some place
  | .jump _ | .branch .. | .call .. | .compute _ | .load | .store | .assign _ => none

def Event.targets : Event → List Label
  | .jump target => [target]
  | .branch whenTrue whenFalse => [whenTrue, whenFalse]
  | .label _ | .call .. | .compute _ | .load | .store | .assign _ => []

def Event.arguments? : Event → Option Nat
  | .call _ arguments => some arguments
  | .label _ | .jump _ | .branch .. | .compute _ | .load | .store | .assign _ => none

/-- Whether an event has to do with neither places nor calls. -/
def Event.isQuiet : Event → Bool
  | .compute _ | .load | .store | .assign _ => true
  | .label _ | .jump _ | .branch .. | .call .. => false

mutual

def Expr.events : Expr → List Event
  | .const _ | .name _ | .temp _ => []
  | .mem address => address.events ++ [.load]
  | .binop operator left right => left.events ++ right.events ++ [.compute operator]
  | .call label arguments => Expr.eventsOfList arguments ++ [.call label arguments.length]
  | .eseq effect value => effect.events ++ value.events

def Expr.eventsOfList : List Expr → List Event
  | [] => []
  | expression :: rest => expression.events ++ Expr.eventsOfList rest

def Stmt.events : Stmt → List Event
  | .seq items => Stmt.eventsOfList items
  | .label label => [.label label]
  | .jump target => [.jump target]
  | .cjump condition whenTrue whenFalse => condition.events ++ [.branch whenTrue whenFalse]
  | .exp value => value.events
  | .move target source => target.storeEvents source.events

def Stmt.eventsOfList : List Stmt → List Event
  | [] => []
  | statement :: rest => statement.events ++ Stmt.eventsOfList rest

/-- The events of a store to a target, given those of what is stored. -/
def Expr.storeEvents (source : List Event) : Expr → List Event
  | .temp temp => source ++ [.assign temp]
  | .mem address => address.events ++ source ++ [.store]
  | .eseq effect value => effect.events ++ value.storeEvents source
  | .const _ | .name _ => source
  | .binop operator left right => left.events ++ right.events ++ [.compute operator] ++ source
  | .call label arguments =>
      Expr.eventsOfList arguments ++ [.call label arguments.length] ++ source

end

/-- The labels at which the jumps of a statement may go on, at any depth. -/
def Stmt.targets (statement : Stmt) : List Label := statement.events.flatMap Event.targets

/-- Where a single statement may go on, if not at the next one. -/
def Stmt.exits : Stmt → List Label
  | .jump target => [target]
  | .cjump _ whenTrue whenFalse => [whenTrue, whenFalse]
  | .seq _ | .label _ | .exp _ | .move .. => []

/-- To go on elsewhere is an event. -/
theorem Stmt.exists_event_of_mem_exits {statement : Stmt} {target : Label}
    (isExit : target ∈ statement.exits) :
    ∃ event ∈ statement.events, event.isQuiet = false ∧ target ∈ event.targets := by
  cases statement with
  | jump => exact ⟨_, List.mem_singleton_self _, rfl, isExit⟩
  | cjump => exact ⟨_, List.mem_append_right _ (List.mem_singleton_self _), rfl, isExit⟩
  | seq | label | exp | move => cases isExit

@[simp] theorem Expr.eventsOfList_append (first second : List Expr) :
    Expr.eventsOfList (first ++ second) =
      Expr.eventsOfList first ++ Expr.eventsOfList second := by
  induction first with
  | nil => rfl
  | cons expression rest ih => simp [Expr.eventsOfList, ih]

@[simp] theorem Stmt.eventsOfList_append (first second : List Stmt) :
    Stmt.eventsOfList (first ++ second) =
      Stmt.eventsOfList first ++ Stmt.eventsOfList second := by
  induction first with
  | nil => rfl
  | cons statement rest ih => simp [Stmt.eventsOfList, ih]

theorem Stmt.mem_eventsOfList {statements : List Stmt} {event : Event} :
    event ∈ Stmt.eventsOfList statements ↔ ∃ statement ∈ statements, event ∈ statement.events := by
  induction statements with
  | nil => simp [Stmt.eventsOfList]
  | cons statement rest ih => simp [Stmt.eventsOfList, ih]

/-- A fixed value can be had without doing anything. -/
theorem Expr.events_of_isFixed {value : Expr} (fixed : value.isFixed = true) :
    value.events = [] := by
  cases value <;> simp_all [Expr.isFixed, Expr.events]

end TreeBackend.IR
