import TreeBackend.Table
import TreeBackend.Source.Span
import TreeBackend.Source.Ty

/-!
# What is known about the nodes of a program

Name resolution and type checking come before this library. Their results are
two tables: the definition that a name or a call refers to, and the type of each
node that has one.
-/

namespace TreeBackend.Source

/-- The definitions and types of the nodes of a program. -/
structure Resolution where
  definitions : Table NodeId NodeId := {}
  types : Table NodeId Ty := {}

namespace Resolution

def definitionOf? (resolution : Resolution) (node : NodeId) : Option NodeId :=
  resolution.definitions.get? node

def typeOf? (resolution : Resolution) (node : NodeId) : Option Ty := resolution.types.get? node

def bind (resolution : Resolution) (node definition : NodeId) : Resolution :=
  { resolution with definitions := resolution.definitions.insert node definition }

def setType (resolution : Resolution) (node : NodeId) (ty : Ty) : Resolution :=
  { resolution with types := resolution.types.insert node ty }

@[simp] theorem definitionOf?_bind (resolution : Resolution) (node definition other : NodeId) :
    (resolution.bind node definition).definitionOf? other =
      if node = other then some definition else resolution.definitionOf? other :=
  Table.get?_insert ..

@[simp] theorem typeOf?_bind (resolution : Resolution) (node definition other : NodeId) :
    (resolution.bind node definition).typeOf? other = resolution.typeOf? other := rfl

@[simp] theorem typeOf?_setType (resolution : Resolution) (node other : NodeId) (ty : Ty) :
    (resolution.setType node ty).typeOf? other =
      if node = other then some ty else resolution.typeOf? other :=
  Table.get?_insert ..

@[simp] theorem definitionOf?_setType (resolution : Resolution) (node other : NodeId) (ty : Ty) :
    (resolution.setType node ty).definitionOf? other = resolution.definitionOf? other := rfl

end Resolution

end TreeBackend.Source
