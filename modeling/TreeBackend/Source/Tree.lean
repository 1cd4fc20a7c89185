import TreeBackend.Operator
import TreeBackend.Source.Resolution

/-!
# Programs of the source language

A program is a list of definitions. A function has an expression as its body, and
an expression may bring definitions of its own, so functions nest.
-/

namespace TreeBackend.Source

/-- A constant of the source language. -/
inductive Literal where
  | int (value : Int)
  | log (truth : Bool)
  | str (text : String)
  deriving DecidableEq, Repr

/-- An operator on one operand. -/
inductive UnaryOperator where
  | plus
  | minus
  | not
  deriving DecidableEq, Repr

/-- An operator on two operands: a computation, the subscript of an array, or an
assignment, whose value is that of its target. -/
inductive BinaryOperator where
  | compute (operator : Operator)
  | index
  | assign
  deriving DecidableEq, Repr

/-- A parameter of a function. -/
structure Parameter where
  node : Node
  name : String
  deriving DecidableEq, Repr

mutual

/-- An expression. -/
inductive Expr where
  | literal (node : Node) (value : Literal)
  | name (node : Node) (name : String)
  | unary (node : Node) (operator : UnaryOperator) (operand : Expr)
  | binary (node : Node) (operator : BinaryOperator) (left right : Expr)
  | call (node : Node) (name : String) (arguments : List Expr)
  | block (node : Node) (items : List Expr)
  | ifThen (node : Node) (condition thenBranch : Expr)
  | ifThenElse (node : Node) (condition thenBranch elseBranch : Expr)
  | whileLoop (node : Node) (condition body : Expr)
  | forLoop (node : Node) (counter low high step body : Expr)
  | whereIn (node : Node) (definitions : List Def) (inner : Expr)

/-- A definition. -/
inductive Def where
  | function (node : Node) (name : String) (parameters : List Parameter) (body : Expr)
  | var (node : Node) (name : String)
  | typeAlias (node : Node) (name : String)

end

/-- The number and span of an expression. -/
def Expr.node : Expr → Node
  | .literal node _ | .name node _ | .unary node _ _ | .binary node _ _ _ | .call node _ _
  | .block node _ | .ifThen node _ _ | .ifThenElse node _ _ _ | .whileLoop node _ _
  | .forLoop node _ _ _ _ _ | .whereIn node _ _ => node

def Expr.id (expression : Expr) : NodeId := expression.node.id

def Expr.span (expression : Expr) : Span := expression.node.span

mutual

/-- The functions that are defined within an expression, each before the ones
within it. -/
def Expr.functionIds : Expr → List NodeId
  | .literal .. | .name .. => []
  | .unary _ _ operand => operand.functionIds
  | .binary _ _ left right => left.functionIds ++ right.functionIds
  | .call _ _ arguments => Expr.functionIdsOfList arguments
  | .block _ items => Expr.functionIdsOfList items
  | .ifThen _ condition thenBranch => condition.functionIds ++ thenBranch.functionIds
  | .ifThenElse _ condition thenBranch elseBranch =>
      condition.functionIds ++ thenBranch.functionIds ++ elseBranch.functionIds
  | .whileLoop _ condition body => condition.functionIds ++ body.functionIds
  | .forLoop _ counter low high step body =>
      counter.functionIds ++ low.functionIds ++ high.functionIds ++ step.functionIds ++
        body.functionIds
  | .whereIn _ definitions inner => Def.functionIdsOfList definitions ++ inner.functionIds

def Expr.functionIdsOfList : List Expr → List NodeId
  | [] => []
  | expression :: rest => expression.functionIds ++ Expr.functionIdsOfList rest

/-- The functions of a definition, with the ones within it. -/
def Def.functionIds : Def → List NodeId
  | .function node _ _ body => node.id :: body.functionIds
  | .var .. | .typeAlias .. => []

def Def.functionIdsOfList : List Def → List NodeId
  | [] => []
  | definition :: rest => definition.functionIds ++ Def.functionIdsOfList rest

end

/-- A program whose names are resolved and whose types are known. -/
structure Program where
  definitions : List Def
  resolution : Resolution := {}

def Program.functionIds (program : Program) : List NodeId :=
  Def.functionIdsOfList program.definitions

end TreeBackend.Source
