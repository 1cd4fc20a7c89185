import TreeBackend.Proofs.Machine.Invocation

/-!
# The states of a run

A run of a program from its entry goes through states in which some activations have not
ended, and the innermost one has something to do.  What it does is cut into the parts that
are run one after the other; each part is carried out by the machine.
-/

namespace TreeBackend.Machine

open IR (Expr Stmt)

/-- A function that runs, and where its frame pointer is. -/
structure Activation where
  routine : Routine
  framePointer : Int

namespace Activation

def savedAt (activation : Activation) : Int :=
  activation.routine.frame.savedAt activation.framePointer

end Activation

/-- What comes next in a run. -/
inductive Task where
  /-- The innermost activation runs the statement at a position, or ends behind the last. -/
  | run (jumps : Table Label Nat) (position : Nat) (temps : Temps)
  /-- It runs a statement. -/
  | execute (temps : Temps) (statement : Stmt)
  /-- It evaluates an expression. -/
  | evaluate (temps : Temps) (expression : Expr)
  /-- It evaluates expressions from left to right. -/
  | evaluateAll (temps : Temps) (expressions : List Expr)
  /-- It goes on with the value of an expression. -/
  | proceed
  /-- It calls a label. -/
  | call (label : Label) (arguments : List Int)
  /-- It stores the rest of the arguments of a function from an address upwards. -/
  | pass (routine : Routine) (address : Int) (arguments : List Int)
  /-- A function is invoked. -/
  | invoke (routine : Routine)

def callWith (fuel : Nat) : Label → List Int → Exec Int :=
  callLabel fun statements jumps => runFrom fuel statements jumps 0 {}

/-- How a function is invoked with a number of statements to run. -/
def invokeWith (fuel : Nat) : Routine → Exec Unit :=
  invoke fun statements jumps => runFrom fuel statements jumps 0 {}

/-- A state is reached in a run from an entry: the number of statements that may still be
run, the activations with the innermost one first, the machine, and what comes next. -/
inductive Reached (start : Machine) (entry : Label) :
    Nat → List Activation → Machine → Task → Prop where
  | start {fuel : Nat} {routine : Routine} {machine : Machine}
      (found : start.routine? entry = some routine)
      (stored : storeInt start.stackPointer 0 start = .ok () machine) :
      Reached start entry fuel [] machine (.invoke routine)
  | enter {fuel : Nat} {stack : List Activation} {machine entered : Machine} {routine : Routine}
      {jumps : Table Label Nat} (reached : Reached start entry fuel stack machine (.invoke routine))
      (enters : enter routine machine = .ok jumps entered) :
      Reached start entry fuel (⟨routine, entered.framePointer⟩ :: stack) entered (.run jumps 0 {})
  | execute {fuel : Nat} {activation : Activation} {stack : List Activation} {machine : Machine}
      {jumps : Table Label Nat} {position : Nat} {temps : Temps} {statement : Stmt}
      (reached : Reached start entry (fuel + 1) (activation :: stack) machine
        (.run jumps position temps))
      (found : activation.routine.statements[position]? = some statement) :
      Reached start entry fuel (activation :: stack) machine (.execute temps statement)
  | next {fuel : Nat} {activation : Activation} {stack : List Activation}
      {machine final : Machine} {jumps : Table Label Nat} {position : Nat} {temps : Temps}
      {statement : Stmt} {next : Continuation}
      (reached : Reached start entry (fuel + 1) (activation :: stack) machine
        (.run jumps position temps))
      (found : activation.routine.statements[position]? = some statement)
      (executed : execute (callWith fuel) temps statement machine = .ok next final)
      (noJump : next.jump = none) :
      Reached start entry fuel (activation :: stack) final (.run jumps (position + 1) next.temps)
  | jump {fuel : Nat} {activation : Activation} {stack : List Activation}
      {machine final : Machine} {jumps : Table Label Nat} {position target : Nat} {temps : Temps}
      {statement : Stmt} {next : Continuation} {label : Label}
      (reached : Reached start entry (fuel + 1) (activation :: stack) machine
        (.run jumps position temps))
      (found : activation.routine.statements[position]? = some statement)
      (executed : execute (callWith fuel) temps statement machine = .ok next final)
      (jumped : next.jump = some label) (isThere : jumps.get? label = some target) :
      Reached start entry fuel (activation :: stack) final (.run jumps target next.temps)
  | condition {fuel : Nat} {stack : List Activation} {machine : Machine} {temps : Temps}
      {condition : Expr} {whenTrue whenFalse : Label}
      (reached : Reached start entry fuel stack machine
        (.execute temps (.cjump condition whenTrue whenFalse))) :
      Reached start entry fuel stack machine (.evaluate temps condition)
  | expression {fuel : Nat} {stack : List Activation} {machine : Machine} {temps : Temps}
      {expression : Expr}
      (reached : Reached start entry fuel stack machine (.execute temps (.exp expression))) :
      Reached start entry fuel stack machine (.evaluate temps expression)
  | assigned {fuel : Nat} {stack : List Activation} {machine : Machine} {temps : Temps}
      {temp : IR.Temp} {source : Expr}
      (reached : Reached start entry fuel stack machine
        (.execute temps (.move (.temp temp) source))) :
      Reached start entry fuel stack machine (.evaluate temps source)
  | place {fuel : Nat} {stack : List Activation} {machine : Machine} {temps : Temps}
      {address source : Expr}
      (reached : Reached start entry fuel stack machine
        (.execute temps (.move (.mem address) source))) :
      Reached start entry fuel stack machine (.evaluate temps address)
  | stored {fuel : Nat} {stack : List Activation} {machine middle : Machine} {temps : Temps}
      {address source : Expr} {place : Int}
      (reached : Reached start entry fuel stack machine
        (.execute temps (.move (.mem address) source)))
      (places : eval (callWith fuel) temps address machine = .ok place middle) :
      Reached start entry fuel stack middle (.evaluate temps source)
  | address {fuel : Nat} {stack : List Activation} {machine : Machine} {temps : Temps}
      {address : Expr}
      (reached : Reached start entry fuel stack machine (.evaluate temps (.mem address))) :
      Reached start entry fuel stack machine (.evaluate temps address)
  | left {fuel : Nat} {stack : List Activation} {machine : Machine} {temps : Temps}
      {operator : Operator} {left right : Expr}
      (reached : Reached start entry fuel stack machine
        (.evaluate temps (.binop operator left right))) :
      Reached start entry fuel stack machine (.evaluate temps left)
  | right {fuel : Nat} {stack : List Activation} {machine middle : Machine} {temps : Temps}
      {operator : Operator} {left right : Expr} {value : Int}
      (reached : Reached start entry fuel stack machine
        (.evaluate temps (.binop operator left right)))
      (lefts : eval (callWith fuel) temps left machine = .ok value middle) :
      Reached start entry fuel stack middle (.evaluate temps right)
  | arguments {fuel : Nat} {stack : List Activation} {machine : Machine} {temps : Temps}
      {label : Label} {arguments : List Expr}
      (reached : Reached start entry fuel stack machine
        (.evaluate temps (.call label arguments))) :
      Reached start entry fuel stack machine (.evaluateAll temps arguments)
  | first {fuel : Nat} {stack : List Activation} {machine : Machine} {temps : Temps}
      {expression : Expr} {rest : List Expr}
      (reached : Reached start entry fuel stack machine
        (.evaluateAll temps (expression :: rest))) :
      Reached start entry fuel stack machine (.evaluate temps expression)
  | others {fuel : Nat} {stack : List Activation} {machine middle : Machine} {temps : Temps}
      {expression : Expr} {rest : List Expr} {value : Int}
      (reached : Reached start entry fuel stack machine
        (.evaluateAll temps (expression :: rest)))
      (evaluated : eval (callWith fuel) temps expression machine = .ok value middle) :
      Reached start entry fuel stack middle (.evaluateAll temps rest)
  | proceed {fuel : Nat} {stack : List Activation} {machine final : Machine} {temps : Temps}
      {expression : Expr} {value : Int}
      (reached : Reached start entry fuel stack machine (.evaluate temps expression))
      (evaluated : eval (callWith fuel) temps expression machine = .ok value final) :
      Reached start entry fuel stack final .proceed
  | call {fuel : Nat} {stack : List Activation} {machine middle : Machine} {temps : Temps}
      {label : Label} {arguments : List Expr} {values : List Int}
      (reached : Reached start entry fuel stack machine
        (.evaluate temps (.call label arguments)))
      (evaluated : evalAll (callWith fuel) temps arguments machine = .ok values middle) :
      Reached start entry fuel stack middle (.call label values)
  | pass {fuel : Nat} {stack : List Activation} {machine : Machine} {label : Label}
      {values : List Int} {routine : Routine}
      (reached : Reached start entry fuel stack machine (.call label values))
      (noBuiltin : NoBuiltin label) (found : machine.routine? label = some routine) :
      Reached start entry fuel stack machine (.pass routine machine.stackPointer values)
  | passed {fuel : Nat} {stack : List Activation} {machine middle : Machine} {routine : Routine}
      {address value : Int} {rest : List Int}
      (reached : Reached start entry fuel stack machine (.pass routine address (value :: rest)))
      (stored : storeInt address value machine = .ok () middle) :
      Reached start entry fuel stack middle (.pass routine (address + Word.size) rest)
  | invoke {fuel : Nat} {stack : List Activation} {machine : Machine} {routine : Routine}
      {address : Int}
      (reached : Reached start entry fuel stack machine (.pass routine address [])) :
      Reached start entry fuel stack machine (.invoke routine)

/-- Whether the innermost activation has run all its statements, the last of which stores the
result. -/
def Task.isDone (activation : Activation) : Task → Prop
  | .run _ position _ => activation.routine.statements.size ≤ position
  | _ => False

/-- Outside of all activations a run has only stored the static link of its first function. -/
theorem Reached.of_outside {start machine : Machine} {entry : Label} {fuel : Nat} {task : Task}
    (reached : Reached start entry fuel [] machine task) :
    ∃ routine, task = .invoke routine ∧ start.routine? entry = some routine ∧
      storeInt start.stackPointer 0 start = .ok () machine := by
  generalize isOutside : ([] : List Activation) = stack at reached
  induction reached with
  | start found stored => exact ⟨_, rfl, found, stored⟩
  | enter | execute | next | jump => cases isOutside
  | condition _ ih | expression _ ih | assigned _ ih | place _ ih | stored _ _ ih | address _ ih
  | left _ ih | right _ _ ih | arguments _ ih | first _ ih | others _ _ ih | proceed _ _ ih
  | call _ _ ih | pass _ _ _ ih | passed _ _ ih | invoke _ ih =>
      obtain ⟨_, same, -⟩ := ih isOutside
      cases same

theorem Reached.of_storeInts {start machine final : Machine} {entry : Label} {fuel : Nat}
    {stack : List Activation} {routine : Routine} {address : Int} {arguments : List Int}
    (reached : Reached start entry fuel stack machine (.pass routine address arguments))
    (stored : storeInts address arguments machine = .ok () final) :
    Reached start entry fuel stack final (.invoke routine) := by
  induction arguments generalizing machine address with
  | nil =>
      obtain ⟨-, rfl⟩ := Outcome.pure_eq_ok.mp stored
      exact reached.invoke
  | cons value rest ih =>
      obtain ⟨⟨⟩, middle, first, others⟩ := Outcome.bind_eq_ok.mp stored
      exact ih (reached.passed first) others

end TreeBackend.Machine
