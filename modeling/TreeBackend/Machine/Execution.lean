import TreeBackend.Builtin
import TreeBackend.IR.Inline
import TreeBackend.Machine.State

/-!
# Running code

Expressions are evaluated from left to right, statements run one after the other,
and a jump goes on at its label. To call a function, the caller computes all
arguments and stores them upwards from its stack pointer, the static link first.
The callee saves the frame pointer of the caller, takes the stack pointer as its
frame pointer and moves the stack pointer down by the size of its frame; when it
is done it undoes that. The caller finds the result where the static link was.

Code may run for ever, so a run is given a number of statements after which it is
broken off. That number bounds the statements of one activation and of those
inside it along any chain of calls.
-/

namespace TreeBackend.Machine

open IR (Expr Stmt Temp)

/-- Why a run has no result. -/
inductive Interruption where
  | fault (fault : Fault)
  | outOfFuel
  deriving DecidableEq, Repr

/-- A part of a run. -/
abbrev Exec (α : Type) := EStateM Interruption Machine α

abbrev Temps := Table Temp Int

/-- Ends the run with a fault. -/
def raise {α : Type} (fault : Fault) : Exec α := throw (.fault fault)

/-- Reads an integer from memory. -/
def loadInt (address : Int) : Exec Int := fun machine =>
  match machine.memory.loadInt address with
  | .ok value => .ok value machine
  | .error fault => .error (.fault fault) machine

def writeWord (machine : Machine) (address : Int) (value : Value) : Machine :=
  match machine with
  | ⟨memory, routines, random, output, framePointer, stackPointer⟩ =>
      ⟨memory.write address value, routines, random, output, framePointer, stackPointer⟩

def storeInt (address value : Int) : Exec Unit := fun machine =>
  if machine.memory.isAddress address then .ok () (machine.writeWord address (.int value))
  else .error (.fault (.invalidAddress address)) machine

/-- Stores integers in words that lie one above the other. -/
def storeInts (address : Int) : List Int → Exec Unit
  | [] => pure ()
  | value :: rest => do
      storeInt address value
      storeInts (address + Word.size) rest

def labelAddress (label : Label) : Exec Int := fun machine =>
  match machine.memory.address? label with
  | some address => .ok address machine
  | none => .error (.fault (.unknownLabel label)) machine

def readTemp (temps : Temps) (temp : Temp) : Exec Int :=
  match temps.get? temp with
  | some value => pure value
  | none => raise (.unassignedTemp temp.number)

def compute (operator : Operator) (left right : Int) : Exec Int :=
  match operator.apply left right with
  | some value => pure value
  | none => raise .divisionByZero

mutual

/-- The value of an expression, given how to call a label. -/
def eval (call : Label → List Int → Exec Int) (temps : Temps) : Expr → Exec Int
  | .const value => pure value
  | .name label => labelAddress label
  | .temp temp => readTemp temps temp
  | .mem address => do
      loadInt (← eval call temps address)
  | .binop operator left right => do
      let leftValue ← eval call temps left
      let rightValue ← eval call temps right
      compute operator leftValue rightValue
  | .call label arguments => do
      call label (← evalAll call temps arguments)
  | .eseq .. => raise (.notFlat (.named "ESEQ"))

def evalAll (call : Label → List Int → Exec Int) (temps : Temps) : List Expr → Exec (List Int)
  | [] => pure []
  | expression :: rest => do
      let value ← eval call temps expression
      return value :: (← evalAll call temps rest)

end

/-- Where a statement goes on, and the temporaries after it. -/
structure Continuation where
  jump : Option Label
  temps : Temps

/-- Runs one statement, given how to call a label. -/
def execute (call : Label → List Int → Exec Int) (temps : Temps) : Stmt → Exec Continuation
  | .cjump condition whenTrue whenFalse => do
      let value ← eval call temps condition
      return ⟨some (if value = 0 then whenFalse else whenTrue), temps⟩
  | .jump target => return ⟨some target, temps⟩
  | .label _ => return ⟨none, temps⟩
  | .exp value => do
      let _ ← eval call temps value
      return ⟨none, temps⟩
  | .move (.temp temp) source => do
      let value ← eval call temps source
      return ⟨none, temps.insert temp value⟩
  | .move (.mem address) source => do
      let place ← eval call temps address
      let value ← eval call temps source
      storeInt place value
      return ⟨none, temps⟩
  | .move target _ => raise (.invalidMoveTarget target.inline)
  | .seq _ => raise (.notFlat (.named "SEQ"))

def write (piece : String) : Exec Unit := fun machine =>
  match machine with
  | ⟨memory, routines, random, some sink, framePointer, stackPointer⟩ =>
      match sink.write piece with
      | .ok () sink => .ok () ⟨memory, routines, random, some sink, framePointer, stackPointer⟩
      | .error reason sink =>
          .error (.fault (.output reason))
            ⟨memory, routines, random, some sink, framePointer, stackPointer⟩
  | machine => .ok () machine

def printLine (line : String) : Exec Unit := do
  write line
  write "\n"

def loadText (address : Int) : Exec String := fun machine =>
  match machine.memory.load address with
  | .ok (.str text) => .ok text machine
  | .ok _ => .error (.fault (.notAString address)) machine
  | .error fault => .error (.fault fault) machine

def drawInt (low high : Int) : Exec Int := fun machine =>
  if low < high then
    match machine.random.draw? low high with
    | some (number, random) => .ok number { machine with random }
    | none => .error .outOfFuel machine
  else .error (.fault (.emptyRange low high)) machine

def reseed (seed : Int) : Exec Unit := fun machine =>
  .ok () { machine with random := machine.random.reseed (UInt64.ofInt seed) }

/-- Carries out a call of a builtin. The first argument is the static link, which
no builtin needs. -/
def callBuiltin : Builtin → List Int → Exec Int
  | .printInt, [_, value] => do
      printLine (toString value)
      return value
  | .printStr, [_, address] => do
      let text ← loadText address
      printLine ("\"" ++ text ++ "\"")
      return address
  | .printLog, [_, truth] => do
      printLine (if truth = 0 then "false" else "true")
      return truth
  | .randInt, [_, low, high] => drawInt low high
  | .seed, [_, seed] => do
      reseed seed
      return 0
  | builtin, arguments =>
      raise (.builtinArity builtin.name builtin.arity (arguments.length - 1))

/-- Makes the frame of a function: saves the frame pointer of the caller and moves
both pointers. Gives the jumps of the function. -/
def enter (routine : Routine) : Exec (Table Label Nat) := fun machine =>
  match routine.jumps? with
  | none => .error (.fault (.notFlat routine.frame.label)) machine
  | some jumps =>
      let stackPointer := routine.frame.topAt machine.stackPointer
      let saved := routine.frame.savedAt machine.stackPointer
      if stackPointer < machine.memory.staticTop then
        .error (.fault (.stackOverflow stackPointer machine.memory.staticTop)) machine
      else if machine.memory.isAddress saved then
        match machine with
        | ⟨memory, routines, random, output, framePointer, top⟩ =>
            .ok jumps (registerPointers
              ⟨memory.write saved (.int framePointer), routines, random, output, top, stackPointer⟩)
      else .error (.fault (.invalidAddress saved)) machine

/-- Removes the frame of a function and moves both pointers back. -/
def leave (routine : Routine) : Exec Unit := do
  modify fun machine => { machine with stackPointer := machine.framePointer }
  let saved ← loadInt (routine.frame.savedAt (← get).framePointer)
  modify fun machine => registerPointers { machine with framePointer := saved }

/-- Runs a function, given how to run statements with the jumps among them. -/
def invoke (body : Array Stmt → Table Label Nat → Exec Unit) (routine : Routine) : Exec Unit := do
  let jumps ← enter routine
  body routine.statements jumps
  leave routine

/-- Calls what a label stands for. A builtin goes by its name, whatever the memory
holds. -/
def callLabel (body : Array Stmt → Table Label Nat → Exec Unit) (label : Label)
    (arguments : List Int) : Exec Int :=
  match label with
  | .named name =>
      match Builtin.ofName? name with
      | some builtin => callBuiltin builtin arguments
      | none => callRoutine
  | .anonymous _ => callRoutine
where
  /-- Calls the function that the label stands for. -/
  callRoutine : Exec Int := do
    match (← get).routine? label with
    | none => raise (.notCallable label)
    | some routine => do
        storeInts (← get).stackPointer arguments
        invoke body routine
        loadInt (← get).stackPointer

/-- Runs the statements from a position on, until the last one is done. -/
def runFrom : (fuel : Nat) → Array Stmt → Table Label Nat → Nat → Temps → Exec Unit
  | 0, _, _, _, _ => throw .outOfFuel
  | fuel + 1, statements, jumps, position, temps => do
      match statements[position]? with
      | none => pure ()
      | some statement =>
          let body := fun statements jumps => runFrom fuel statements jumps 0 {}
          let next ← execute (callLabel body) temps statement
          match next.jump with
          | none => runFrom fuel statements jumps (position + 1) next.temps
          | some label =>
              match jumps.get? label with
              | some target => runFrom fuel statements jumps target next.temps
              | none => raise (.unknownJumpTarget label)

/-- Runs the function of a label as the outermost one, with an empty static link.
Gives its result. -/
def interpret (fuel : Nat) (entry : Label) : Exec Int := do
  match (← get).routine? entry with
  | none => raise (.missingEntry entry)
  | some routine => do
      storeInt (← get).stackPointer 0
      invoke (fun statements jumps => runFrom fuel statements jumps 0 {}) routine
      loadInt (← get).stackPointer

/-- The label of the function at which a program starts. -/
def mainLabel : Label := .named "main"

end TreeBackend.Machine
