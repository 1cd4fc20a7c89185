import TreeBackend.Builtin
import TreeBackend.Proofs.Source.Contents

/-!
# Well-formed programs

What a program has to be like for compilation to succeed, read off the tree and
its resolution alone: every variable has a type, every reference and every call
leads somewhere, every operand has a value, and assignments go to places.
-/

namespace TreeBackend.Source

/-- Whether an expression has a value. Conditionals and loops have none. -/
def Expr.isValue : Expr → Bool
  | .ifThen .. | .ifThenElse .. | .whileLoop .. | .forLoop .. => false
  | .literal .. | .name .. | .unary .. | .binary .. | .call .. | .block .. | .whereIn .. => true

mutual

/-- Whether an expression stands for a place to which a value can be assigned. -/
def Expr.isPlace : Expr → Bool
  | .name .. | .binary _ .index _ _ => true
  | .binary _ .assign target _ => target.isPlace
  | .unary _ .plus operand => operand.isPlace
  | .block _ items => Expr.endInPlace items
  | .whereIn _ _ inner => inner.isPlace
  | .literal .. | .binary _ (.compute _) _ _ | .unary .. | .call .. | .ifThen .. | .ifThenElse ..
  | .whileLoop .. | .forLoop .. => false

def Expr.endInPlace : List Expr → Bool
  | [] => false
  | [last] => last.isPlace
  | _ :: rest => Expr.endInPlace rest

end

/-- Whether an expression is a bare reference, as the counter of a loop has to be. -/
def Expr.isName : Expr → Bool
  | .name .. => true
  | .literal .. | .unary .. | .binary .. | .call .. | .block .. | .ifThen .. | .ifThenElse ..
  | .whileLoop .. | .forLoop .. | .whereIn .. => false

namespace Program

/-- Whether a reference in a function of the given depth leads to a global variable,
or to a variable or parameter of a function that is nested no deeper. -/
def hasVariable (program : Program) (depth : Nat) (node : Node) : Bool :=
  (program.resolution.definitionOf? node.id).any fun definition =>
    program.globals.any (fun owned => owned.node.id = definition) ||
      program.functions.any fun function =>
        function.depth ≤ depth && function.ownedIds.contains definition

def hasCallee (program : Program) (node : Node) (name : String) : Bool :=
  (Builtin.ofName? name).isSome ||
    (program.resolution.definitionOf? node.id).any program.functionIds.contains

/-- Whether an operator can be applied at a node: a subscript needs a type, and an
assignment needs a place. -/
def allows (program : Program) (node : Node) (left : Expr) : BinaryOperator → Bool
  | .compute _ => true
  | .index => (program.resolution.typeOf? node.id).isSome
  | .assign => left.isPlace

/-- Whether all variables and parameters of a program have a type. -/
def isTyped (program : Program) : Bool :=
  program.contents.ownedIds.all fun id => (program.resolution.typeOf? id).isSome

end Program

mutual

def Expr.isWellFormed (program : Program) (depth : Nat) : Expr → Bool
  | .literal .. => true
  | .name node _ => program.hasVariable depth node
  | .unary _ _ operand => operand.isValue && operand.isWellFormed program depth
  | .binary node operator left right =>
      (left.isValue && left.isWellFormed program depth) &&
        (right.isValue && right.isWellFormed program depth) && program.allows node left operator
  | .call node name arguments =>
      program.hasCallee node name &&
        (arguments.all Expr.isValue && Expr.areWellFormed program depth arguments)
  | .block _ items => items.getLast?.any Expr.isValue && Expr.areWellFormed program depth items
  | .ifThen _ condition thenBranch =>
      (condition.isValue && condition.isWellFormed program depth) &&
        thenBranch.isWellFormed program depth
  | .ifThenElse _ condition thenBranch elseBranch =>
      (condition.isValue && condition.isWellFormed program depth) &&
        thenBranch.isWellFormed program depth && elseBranch.isWellFormed program depth
  | .whileLoop _ condition body =>
      (condition.isValue && condition.isWellFormed program depth) &&
        body.isWellFormed program depth
  | .forLoop _ counter low high step body =>
      (counter.isName && counter.isWellFormed program depth) &&
        (low.isValue && low.isWellFormed program depth) &&
        (high.isValue && high.isWellFormed program depth) &&
        (step.isValue && step.isWellFormed program depth) && body.isWellFormed program depth
  | .whereIn _ definitions inner =>
      Def.areWellFormed program depth definitions &&
        (inner.isValue && inner.isWellFormed program depth)

def Expr.areWellFormed (program : Program) (depth : Nat) : List Expr → Bool
  | [] => true
  | expression :: rest =>
      expression.isWellFormed program depth && Expr.areWellFormed program depth rest

/-- Whether a definition at the given depth is well-formed. -/
def Def.isWellFormed (program : Program) (depth : Nat) : Def → Bool
  | .function _ _ _ body => body.isValue && body.isWellFormed program (depth + 1)
  | .var .. | .typeAlias .. => true

def Def.areWellFormed (program : Program) (depth : Nat) : List Def → Bool
  | [] => true
  | definition :: rest =>
      definition.isWellFormed program depth && Def.areWellFormed program depth rest

end

/-- Whether a program is well-formed. -/
def Program.isWellFormed (program : Program) : Bool :=
  program.isTyped && Def.areWellFormed program 0 program.definitions

end TreeBackend.Source
