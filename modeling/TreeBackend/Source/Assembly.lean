import TreeBackend.Builtin
import TreeBackend.Source.Tree

/-!
# Assembling programs

A program can be put together without a text. Each step makes one node, numbered
in the order of the steps, and records at once what the node refers to and what
type it has. A reference is made from the thing referred to, so no name is ever
looked up; a function is declared before its body, so it can call itself.
-/

namespace TreeBackend.Source

/-- A program under construction: the number of the next node, and what is known
about the nodes so far. -/
structure Assembly where
  nextId : NodeId := 0
  resolution : Resolution := {}

/-- A step of the construction of a program. -/
abbrev Assembler (α : Type) := StateM Assembly α

/-- A variable or a parameter that names can refer to. -/
structure Binding where
  id : NodeId
  name : String
  deriving DecidableEq, Repr

/-- The definition of a variable. -/
def Binding.toDef (binding : Binding) : Def := .var ⟨binding.id, {}⟩ binding.name

/-- The parameter in the list of a function. -/
def Binding.toParameter (binding : Binding) : Parameter := ⟨⟨binding.id, {}⟩, binding.name⟩

/-- A function that can be called, whether its body is there yet or not. -/
structure FunctionHeader where
  id : NodeId
  name : String
  parameters : List Binding
  deriving DecidableEq, Repr

namespace Assembler

def node (ty : Option Ty) : Assembler Node := fun assembly =>
  let resolution :=
    match ty with
    | some ty => assembly.resolution.setType assembly.nextId ty
    | none => assembly.resolution
  (⟨assembly.nextId, {}⟩, ⟨assembly.nextId + 1, resolution⟩)

def typeOf? (id : NodeId) : Assembler (Option Ty) := do
  return (← get).resolution.typeOf? id

/-- Makes a node of the given type that refers to a definition. -/
def reference (definition : NodeId) (ty : Option Ty) : Assembler Node := do
  let node ← node ty
  modify fun assembly =>
    { assembly with resolution := assembly.resolution.bind node.id definition }
  return node

def declareVariable (name : String) (ty : Ty) : Assembler Binding := do
  return ⟨(← node (some ty)).id, name⟩

def declareParameter (name : String) (ty : Ty) : Assembler Binding := do
  return ⟨(← node (some ty)).id, name⟩

def aliasType (name : String) (ty : Ty) : Assembler Def := do
  return .typeAlias (← node (some ty)) name

def declareFunction (name : String) (parameters : List Binding) (result : Ty) :
    Assembler FunctionHeader := do
  let types ← parameters.mapM fun parameter => typeOf? parameter.id
  let node ← node (some (.function (types.map (·.getD .void)) result))
  return ⟨node.id, name, parameters⟩

/-- The definition of a declared function. -/
def defineFunction (header : FunctionHeader) (body : Expr) : Def :=
  .function ⟨header.id, {}⟩ header.name (header.parameters.map Binding.toParameter) body

/-- An integer constant. -/
def int (value : Int) : Assembler Expr := do
  return .literal (← node (some .int)) (.int value)

def log (truth : Bool) : Assembler Expr := do
  return .literal (← node (some .log)) (.log truth)

def str (text : String) : Assembler Expr := do
  return .literal (← node (some .str)) (.str text)

/-- A reference to a variable or a parameter; it has the type of that. -/
def name (binding : Binding) : Assembler Expr := do
  return .name (← reference binding.id (← typeOf? binding.id)) binding.name

/-- The type of the result of an operator, given the type of its left operand. -/
def binaryType (left : Option Ty) : BinaryOperator → Option Ty
  | .compute .add | .compute .sub | .compute .mul | .compute .div | .compute .mod => some .int
  | .compute _ => some .log
  | .index => left.bind Ty.element?
  | .assign => left

/-- An operator applied to two operands. -/
def binary (operator : BinaryOperator) (left right : Expr) : Assembler Expr := do
  return .binary (← node (binaryType (← typeOf? left.id) operator)) operator left right

def unary (operator : UnaryOperator) (operand : Expr) : Assembler Expr := do
  let ty : Ty :=
    match operator with
    | .not => .log
    | .plus | .minus => .int
  return .unary (← node (some ty)) operator operand

def call (callee : FunctionHeader) (arguments : List Expr) : Assembler Expr := do
  let result := (← typeOf? callee.id).bind Ty.result?
  return .call (← reference callee.id result) callee.name arguments

def callBuiltin (builtin : Builtin) (arguments : List Expr) : Assembler Expr := do
  return .call (← node (some builtin.resultType)) builtin.name arguments

def block (items : List Expr) : Assembler Expr := do
  let ty ←
    match items.getLast? with
    | some last => typeOf? last.id
    | none => pure none
  return .block (← node ty) items

/-- A conditional without an alternative. -/
def ifThen (condition thenBranch : Expr) : Assembler Expr := do
  return .ifThen (← node (some .void)) condition thenBranch

def ifThenElse (condition thenBranch elseBranch : Expr) : Assembler Expr := do
  return .ifThenElse (← node (some .void)) condition thenBranch elseBranch

def whileLoop (condition body : Expr) : Assembler Expr := do
  return .whileLoop (← node (some .void)) condition body

def forLoop (counter low high step body : Expr) : Assembler Expr := do
  return .forLoop (← node (some .void)) counter low high step body

def whereIn (inner : Expr) (definitions : List Def) : Assembler Expr := do
  return .whereIn (← node (← typeOf? inner.id)) definitions inner

def assemble (construction : Assembler (List Def)) : Program :=
  let (definitions, assembly) := construction.run {}
  ⟨definitions, assembly.resolution⟩

end Assembler

end TreeBackend.Source
