import TreeBackend.Proofs.IR.Events
import TreeBackend.Proofs.IR.Temps

/-!
# Loads of which nothing is seen

A statement that evaluates an expression for its effect alone may end in a load from an
address that stands in a temporary.  Nothing is seen of such a load: its value is not
wanted, and its address has been computed before.  Here the events of a tree are listed
together with whether they are idle loads of this kind.
-/

namespace TreeBackend.IR

/-- An event in a run through a tree, and whether it is an idle load. -/
structure Occurrence where
  event : Event
  isIdle : Bool := false
  deriving DecidableEq, Repr

/-- The events that remain when idle loads are left out. -/
def Occurrence.lasting (occurrences : List Occurrence) : List Event :=
  (occurrences.filter fun occurrence => !occurrence.isIdle).map (·.event)

mutual

def Expr.occurrences : Expr → List Occurrence
  | .const _ | .name _ | .temp _ => []
  | .mem address => address.occurrences ++ [{ event := .load }]
  | .binop operator left right =>
      left.occurrences ++ right.occurrences ++ [{ event := .compute operator }]
  | .call label arguments =>
      Expr.occurrencesOfList arguments ++ [{ event := .call label arguments.length }]
  | .eseq effect value => effect.occurrences ++ value.occurrences

def Expr.occurrencesOfList : List Expr → List Occurrence
  | [] => []
  | expression :: rest => expression.occurrences ++ Expr.occurrencesOfList rest

def Stmt.occurrences : Stmt → List Occurrence
  | .seq items => Stmt.occurrencesOfList items
  | .label label => [{ event := .label label }]
  | .jump target => [{ event := .jump target }]
  | .cjump condition whenTrue whenFalse =>
      condition.occurrences ++ [{ event := .branch whenTrue whenFalse }]
  | .exp value => value.discardedOccurrences
  | .move target source => target.storeOccurrences source.occurrences

def Stmt.occurrencesOfList : List Stmt → List Occurrence
  | [] => []
  | statement :: rest => statement.occurrences ++ Stmt.occurrencesOfList rest

/-- The events of a store to a target, given those of what is stored. -/
def Expr.storeOccurrences (source : List Occurrence) : Expr → List Occurrence
  | .temp temp => source ++ [{ event := .assign temp }]
  | .mem address => address.occurrences ++ source ++ [{ event := .store }]
  | .eseq effect value => effect.occurrences ++ value.storeOccurrences source
  | .const _ | .name _ => source
  | .binop operator left right =>
      left.occurrences ++ right.occurrences ++ [{ event := .compute operator }] ++ source
  | .call label arguments =>
      Expr.occurrencesOfList arguments ++ [{ event := .call label arguments.length }] ++ source

/-- The events of an expression whose value is not wanted.  A load at its end is idle if
the address ends in a temporary. -/
def Expr.discardedOccurrences : Expr → List Occurrence
  | .mem address =>
      address.occurrences ++ [{ event := .load, isIdle := address.lastTemp?.isSome }]
  | .eseq effect value => effect.occurrences ++ value.discardedOccurrences
  | .const _ | .name _ | .temp _ => []
  | .binop operator left right =>
      left.occurrences ++ right.occurrences ++ [{ event := .compute operator }]
  | .call label arguments =>
      Expr.occurrencesOfList arguments ++ [{ event := .call label arguments.length }]

end

namespace Occurrence

@[simp] theorem lasting_nil : lasting [] = [] := rfl

@[simp] theorem lasting_append (first second : List Occurrence) :
    lasting (first ++ second) = lasting first ++ lasting second := by
  simp [lasting]

@[simp] theorem lasting_singleton (event : Event) : lasting [{ event }] = [event] := rfl

end Occurrence

/-- Occurrences mark events: they are the same events, and only loads among them are idle. -/
structure Marks (occurrences : List Occurrence) (events : List Event) : Prop where
  events : occurrences.map (·.event) = events
  idle : ∀ occurrence ∈ occurrences, occurrence.isIdle = true → occurrence.event = .load

namespace Marks

variable {first second : List Occurrence} {events others : List Event}

theorem nil : Marks [] [] := ⟨rfl, by simp⟩

theorem needed (event : Event) : Marks [{ event }] [event] := ⟨rfl, by simp⟩

theorem load (isIdle : Bool) : Marks [{ event := .load, isIdle }] [.load] := ⟨rfl, by simp⟩

theorem append (left : Marks first events) (right : Marks second others) :
    Marks (first ++ second) (events ++ others) :=
  ⟨by rw [List.map_append, left.events, right.events],
    List.forall_mem_append.mpr ⟨left.idle, right.idle⟩⟩

/-- A view without loads shows the same whether or not idle loads are left out. -/
theorem filter_lasting {sees : Event → Bool} (marks : Marks first events)
    (hidesLoad : sees .load = false) :
    (Occurrence.lasting first).filter sees = events.filter sees := by
  obtain ⟨rfl, idle⟩ := marks
  induction first with
  | nil => rfl
  | cons occurrence rest ih =>
      have rest := ih fun other member => idle other (List.mem_cons_of_mem _ member)
      by_cases isIdle : occurrence.isIdle = true
      · have isLoad := idle occurrence (List.mem_cons_self ..) isIdle
        simpa [Occurrence.lasting, isIdle, isLoad, hidesLoad] using rest
      · simp only [Occurrence.lasting] at rest
        simp [Occurrence.lasting, isIdle, List.filter_cons, rest]

/-- What remains is among the events. -/
theorem mem_of_lasting {event : Event} (marks : Marks first events)
    (member : event ∈ Occurrence.lasting first) : event ∈ events := by
  obtain ⟨occurrence, kept, rfl⟩ := List.mem_map.mp member
  rw [← marks.events]
  exact List.mem_map_of_mem (List.mem_filter.mp kept).1

end Marks

mutual

theorem Expr.marks : (expression : Expr) → Marks expression.occurrences expression.events
  | .const _ | .name _ | .temp _ => .nil
  | .mem address => (Expr.marks address).append (.needed _)
  | .binop _ left right => ((Expr.marks left).append (Expr.marks right)).append (.needed _)
  | .call _ arguments => (Expr.marks_list arguments).append (.needed _)
  | .eseq effect value => (Stmt.marks effect).append (Expr.marks value)

theorem Expr.marks_list : (expressions : List Expr) →
    Marks (Expr.occurrencesOfList expressions) (Expr.eventsOfList expressions)
  | [] => .nil
  | expression :: rest => (Expr.marks expression).append (Expr.marks_list rest)

theorem Stmt.marks : (statement : Stmt) → Marks statement.occurrences statement.events
  | .seq items => Stmt.marks_list items
  | .label _ | .jump _ => .needed _
  | .cjump condition _ _ => (Expr.marks condition).append (.needed _)
  | .exp value => Expr.marks_discarded value
  | .move target source => Expr.marks_store target (Expr.marks source)

theorem Stmt.marks_list : (statements : List Stmt) →
    Marks (Stmt.occurrencesOfList statements) (Stmt.eventsOfList statements)
  | [] => .nil
  | statement :: rest => (Stmt.marks statement).append (Stmt.marks_list rest)

theorem Expr.marks_store {source : List Occurrence} {events : List Event} : (target : Expr) →
    Marks source events → Marks (target.storeOccurrences source) (target.storeEvents events)
  | .const _, stored | .name _, stored => stored
  | .temp _, stored => stored.append (.needed _)
  | .mem address, stored => ((Expr.marks address).append stored).append (.needed _)
  | .binop _ left right, stored =>
      (((Expr.marks left).append (Expr.marks right)).append (.needed _)).append stored
  | .call _ arguments, stored => ((Expr.marks_list arguments).append (.needed _)).append stored
  | .eseq effect value, stored => (Stmt.marks effect).append (Expr.marks_store value stored)

theorem Expr.marks_discarded : (expression : Expr) →
    Marks expression.discardedOccurrences expression.events
  | .const _ | .name _ | .temp _ => .nil
  | .mem address => (Expr.marks address).append (.load _)
  | .binop _ left right => ((Expr.marks left).append (Expr.marks right)).append (.needed _)
  | .call _ arguments => (Expr.marks_list arguments).append (.needed _)
  | .eseq effect value => (Stmt.marks effect).append (Expr.marks_discarded value)

end

/-! ### Assignments to temporaries -/

mutual

theorem Expr.mem_temps_of_assign {temp : Temp} : (expression : Expr) →
    .assign temp ∈ expression.events → temp ∈ expression.temps
  | .const _, member | .name _, member | .temp _, member => by cases member
  | .mem address, member => by
      rw [Expr.temps]
      exact Expr.mem_temps_of_assign address (by simpa [Expr.events] using member)
  | .binop _ left right, member => by
      have inside : .assign temp ∈ left.events ∨ .assign temp ∈ right.events := by
        simpa [Expr.events] using member
      rw [Expr.temps, List.mem_append]
      exact inside.imp (Expr.mem_temps_of_assign left) (Expr.mem_temps_of_assign right)
  | .call _ arguments, member => by
      rw [Expr.temps]
      exact Expr.mem_tempsOfList_of_assign arguments (by simpa [Expr.events] using member)
  | .eseq effect value, member => by
      rw [Expr.temps, List.mem_append]
      exact (List.mem_append.mp member).imp (Stmt.mem_temps_of_assign effect)
        (Expr.mem_temps_of_assign value)

theorem Expr.mem_tempsOfList_of_assign {temp : Temp} : (expressions : List Expr) →
    .assign temp ∈ Expr.eventsOfList expressions → temp ∈ Expr.tempsOfList expressions
  | [], member => by cases member
  | expression :: rest, member => by
      rw [Expr.tempsOfList, List.mem_append]
      exact (List.mem_append.mp member).imp (Expr.mem_temps_of_assign expression)
        (Expr.mem_tempsOfList_of_assign rest)

theorem Stmt.mem_temps_of_assign {temp : Temp} : (statement : Stmt) →
    .assign temp ∈ statement.events → temp ∈ statement.temps
  | .seq items, member => Stmt.mem_tempsOfList_of_assign items member
  | .label _, member | .jump _, member => by simp [Stmt.events] at member
  | .cjump condition _ _, member => by
      rw [Stmt.temps]
      exact Expr.mem_temps_of_assign condition (by simpa [Stmt.events] using member)
  | .exp value, member => Expr.mem_temps_of_assign value member
  | .move target source, member => by
      rw [Stmt.temps, List.mem_append]
      exact (Expr.mem_temps_of_assign_store target member).imp_right
        (Expr.mem_temps_of_assign source)

theorem Stmt.mem_tempsOfList_of_assign {temp : Temp} : (statements : List Stmt) →
    .assign temp ∈ Stmt.eventsOfList statements → temp ∈ Stmt.tempsOfList statements
  | [], member => by cases member
  | statement :: rest, member => by
      rw [Stmt.tempsOfList, List.mem_append]
      exact (List.mem_append.mp member).imp (Stmt.mem_temps_of_assign statement)
        (Stmt.mem_tempsOfList_of_assign rest)

theorem Expr.mem_temps_of_assign_store {temp : Temp} {source : List Event} : (target : Expr) →
    .assign temp ∈ target.storeEvents source → temp ∈ target.temps ∨ .assign temp ∈ source
  | .const _, member | .name _, member => .inr member
  | .temp held, member => by
      have inside : .assign temp ∈ source ∨ temp = held := by
        simpa [Expr.storeEvents] using member
      simpa [Expr.temps, or_comm] using inside
  | .mem address, member => by
      have inside : .assign temp ∈ address.events ∨ .assign temp ∈ source := by
        simpa [Expr.storeEvents] using member
      exact inside.imp_left (Expr.mem_temps_of_assign address)
  | .binop operator left right, member => by
      have inside : .assign temp ∈ (Expr.binop operator left right).events ++ source := member
      exact (List.mem_append.mp inside).imp_left fun isThere =>
        List.mem_append.mpr ((by simpa [Expr.events] using isThere :
          .assign temp ∈ left.events ∨ .assign temp ∈ right.events).imp
            (Expr.mem_temps_of_assign left) (Expr.mem_temps_of_assign right))
  | .call _ arguments, member => by
      have inside : .assign temp ∈ Expr.eventsOfList arguments ∨ .assign temp ∈ source := by
        simpa [Expr.storeEvents] using member
      exact inside.imp_left (Expr.mem_tempsOfList_of_assign arguments)
  | .eseq effect value, member => by
      rw [Expr.temps, List.mem_append, or_assoc]
      exact (List.mem_append.mp member).imp (Stmt.mem_temps_of_assign effect)
        (Expr.mem_temps_of_assign_store value)

end

end TreeBackend.IR
