import TreeBackend.Frame.Basic
import TreeBackend.Source.Span
import TreeBackend.Table

/-!
# Where variables live

The storage of a variable or a parameter, and the table of the frames and
storages of a program.
-/

namespace TreeBackend

open Source (NodeId)

/-- Storage at a fixed address, which a label names. -/
structure GlobalSlot where
  size : Int
  label : Label
  deriving DecidableEq, Repr

/-- Storage at an offset from the frame pointer of a function of the given level. -/
structure StackSlot where
  size : Int
  offset : Int
  level : Nat
  deriving DecidableEq, Repr

/-- Where a variable or a parameter lives. -/
inductive Storage where
  | global (slot : GlobalSlot)
  | localVar (slot : StackSlot)
  | parameter (slot : StackSlot)
  deriving DecidableEq, Repr

/-- The frames of functions and the storages of variables and parameters, each
under the number of its definition. -/
structure FrameTable where
  frames : Table NodeId Frame := {}
  storages : Table NodeId Storage := {}

namespace FrameTable

def frame? (table : FrameTable) (definition : NodeId) : Option Frame :=
  table.frames.get? definition

/-- The storage of a variable or a parameter. -/
def storage? (table : FrameTable) (definition : NodeId) : Option Storage :=
  table.storages.get? definition

/-- Enters the frame of a function. -/
def addFrame (table : FrameTable) (definition : NodeId) (frame : Frame) : FrameTable :=
  { table with frames := table.frames.insert definition frame }

/-- Enters the storage of a variable or a parameter. -/
def addStorage (table : FrameTable) (definition : NodeId) (storage : Storage) : FrameTable :=
  { table with storages := table.storages.insert definition storage }

@[simp] theorem frame?_addFrame (table : FrameTable) (definition other : NodeId) (frame : Frame) :
    (table.addFrame definition frame).frame? other =
      if definition = other then some frame else table.frame? other :=
  Table.get?_insert ..

@[simp] theorem storage?_addFrame (table : FrameTable) (definition other : NodeId)
    (frame : Frame) : (table.addFrame definition frame).storage? other = table.storage? other :=
  rfl

@[simp] theorem storage?_addStorage (table : FrameTable) (definition other : NodeId)
    (storage : Storage) :
    (table.addStorage definition storage).storage? other =
      if definition = other then some storage else table.storage? other :=
  Table.get?_insert ..

@[simp] theorem frame?_addStorage (table : FrameTable) (definition other : NodeId)
    (storage : Storage) : (table.addStorage definition storage).frame? other = table.frame? other :=
  rfl

end FrameTable

end TreeBackend
