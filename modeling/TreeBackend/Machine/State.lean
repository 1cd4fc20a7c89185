import TreeBackend.IR.Chunk
import TreeBackend.Machine.Memory
import TreeBackend.Machine.Writer

/-!
# The state of the machine

Loading a compiled program gives every chunk a place in the static area and its
label the address of that place. The frame pointer and the stack pointer are two
more labels, whose addresses follow the pointers.
-/

namespace TreeBackend.Machine

/-- A function that is ready to run. -/
structure Routine where
  frame : Frame
  statements : Array IR.Stmt
  /-- Where to go on after a jump to a label, unless the body is not flat. -/
  jumps? : Option (Table Label Nat)

namespace Routine

/-- The labels among statements, each with the number of its statement. -/
def labelPositions : Nat → List IR.Stmt → List (Label × Nat)
  | _, [] => []
  | position, .label label :: rest => (label, position) :: labelPositions (position + 1) rest
  | position, _ :: rest => labelPositions (position + 1) rest

def ofBody (frame : Frame) : IR.Stmt → Routine
  | .seq items =>
      { frame
        statements := items.toArray
        jumps? :=
          if (IR.Stmt.seq items).isFlat then some (.ofList (labelPositions 0 items)) else none }
  | body => { frame, statements := #[body], jumps? := none }

end Routine

end Machine

/-- A loaded machine. -/
structure Machine where
  memory : Machine.Memory
  routines : Array Machine.Routine
  random : Random.Source
  output : Option Machine.Sink := none
  framePointer : Int
  stackPointer : Int

namespace Machine

/-- Gives the labels of the two pointers the addresses that the pointers hold. -/
def registerPointers (machine : Machine) : Machine :=
  match machine with
  | ⟨memory, routines, random, output, framePointer, stackPointer⟩ =>
      ⟨(memory.register .framePointer framePointer).register .stackPointer stackPointer,
        routines, random, output, framePointer, stackPointer⟩

/-- Puts a chunk into the static area. -/
def placeChunk (memory : Memory) (routines : Array Routine) :
    IR.Chunk → Except Fault (Memory × Array Routine)
  | .code frame body => do
      let (address, memory) ← memory.allocate Word.size
      let memory ← memory.store address (.code routines.size)
      return (memory.register frame.label address, routines.push (.ofBody frame body))
  | .data slot text => do
      let (address, memory) ← memory.allocate slot.size
      let memory ← memory.store address (.str text)
      return (memory.register slot.label address, routines)
  | .global slot => do
      let (address, memory) ← memory.allocate slot.size
      return (memory.register slot.label address, routines)

/-- Puts chunks into the static area one after the other. -/
def placeChunks (memory : Memory) (routines : Array Routine) :
    List IR.Chunk → Except Fault (Memory × Array Routine)
  | [] => .ok (memory, routines)
  | chunk :: rest => do
      let (memory, routines) ← placeChunk memory routines chunk
      placeChunks memory routines rest

/-- A machine with a compiled program in its static area and an empty stack. It
prints nothing until it is given a sink. -/
def load (chunks : List IR.Chunk) (config : Config) : Except Fault Machine :=
  match config.validate with
  | .error error => .error (.config error)
  | .ok () => do
      let (memory, routines) ← placeChunks (.ofSize config.memorySize) #[] chunks
      let top := memory.size - Word.size
      let machine : Machine :=
        { memory, routines, random := config.randomSource, framePointer := top, stackPointer := top }
      return machine.registerPointers

/-- The function that a label stands for. -/
def routine? (machine : Machine) (label : Label) : Option Routine :=
  match (machine.memory.address? label).bind machine.memory.read? with
  | some (.code number) => machine.routines[number]?
  | _ => none

end Machine

end TreeBackend
