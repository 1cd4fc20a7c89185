import TreeBackend.CompileError
import TreeBackend.IR.Chunk
import TreeBackend.Builtin
import TreeBackend.Lowering.Shape

/-!
# Lowering a program to intermediate code

Every expression becomes an expression of intermediate code or, if it is a
conditional or a loop, a statement. Functions, string constants and global
variables become chunks, in the order in which they are finished; a function
comes after what its body brings along.

The level of the function whose body is being lowered is passed down. When
lowering gives up, the chunks finished so far remain, and the supplies are where
the last draw left them.
-/

namespace TreeBackend

open Source (Resolution Node Literal BinaryOperator Program Def)

/-- What lowering draws from and what it has finished. -/
structure LoweringState where
  labels : LabelSupply := {}
  temps : IR.TempSupply := {}
  chunks : List IR.Chunk := []

/-- A part of the lowering of a program. -/
abbrev Lowering (α : Type) := EStateM CompileError LoweringState α

/-- What lowering looks things up in. -/
structure LoweringContext where
  resolution : Resolution
  frames : FrameTable

/-- What an expression of the source becomes. -/
inductive Lowered where
  | expr (expression : IR.Expr)
  | stmt (statement : IR.Stmt)

/-- The code of an expression whose value is not wanted. -/
def Lowered.toStmt : Lowered → IR.Stmt
  | .expr expression => .exp expression
  | .stmt statement => statement

namespace Lowering

open Source (Span)

/-- Gives up at a place in the source. -/
def fail {α : Type} (cause : Cause) (span : Span) : Lowering α := throw (.located cause span)

/-- What was looked up, unless it is missing. -/
def require {α : Type} (cause : Cause) (span : Span) : Option α → Lowering α
  | some value => pure value
  | none => fail cause span

def drawLabel : Lowering Label := fun state =>
  .ok state.labels.next { state with labels := state.labels.rest }

def drawLabels : Lowering Labels := do
  return ⟨← drawLabel, ← drawLabel, ← drawLabel⟩

def drawTemp : Lowering IR.Temp := fun state =>
  .ok state.temps.next { state with temps := state.temps.rest }

/-- Adds a finished chunk. -/
def emit (chunk : IR.Chunk) : Lowering Unit := fun state =>
  .ok () { state with chunks := state.chunks ++ [chunk] }

/-- The value of an expression that is used as the given part of another one. -/
def asExpr (part : String) (expression : Source.Expr) : Lowered → Lowering IR.Expr
  | .expr value => pure value
  | .stmt _ => fail (.expectedExpression part) expression.span

/-- Lowers a constant. A string becomes a chunk, and its value is the address. -/
def ofLiteral : Literal → Lowering IR.Expr
  | .int value => pure (.const value)
  | .log truth => pure (.const (Word.ofBool truth))
  | .str text => do
      let label ← drawLabel
      emit (.data ⟨Word.size, label⟩ text)
      return .name label

/-- Lowers a reference to a variable or a parameter. -/
def ofName (context : LoweringContext) (level : Nat) (node : Node) (name : String) :
    Lowering IR.Expr := do
  let definition ←
    require (.missingDefinition name) node.span (context.resolution.definitionOf? node.id)
  let storage ← require (.missingAccess name) node.span (context.frames.storage? definition)
  require (.unexpectedDefinition name) node.span (cell? level storage)

/-- An operator on two operands whose code is there. -/
def ofBinary (context : LoweringContext) (node : Node) (operator : BinaryOperator)
    (left right : IR.Expr) : Lowering IR.Expr :=
  match operator with
  | .compute operator => return .binop operator left right
  | .index => do
      let ty ← require (.missingType "array element") node.span (context.resolution.typeOf? node.id)
      return elementCell left right ty.storageSize
  | .assign =>
      match left with
      | .mem address => do
          if isRepeatable address then return assignment left right
          else return assignmentOnce address right (← drawTemp)
      | _ => return assignment left right

/-- Finds the function that a call refers to. A builtin is found by its name. -/
def findCallee (context : LoweringContext) (node : Node) (name : String) : Lowering Callee :=
  match Builtin.ofName? name with
  | some builtin => return ⟨.named builtin.name, 1, none⟩
  | none => do
      let definition ←
        require (.missingDefinition name) node.span (context.resolution.definitionOf? node.id)
      let frame ← require (.missingFrame name) node.span (context.frames.frame? definition)
      return ⟨frame.label, frame.level, some frame.savedPointerOffset⟩

/-- Requires the counter of a loop to be a reference. -/
def checkCounter : Source.Expr → Lowering Unit
  | .name .. => pure ()
  | counter => fail .invalidCounter counter.span

def ofItems (node : Node) (items : List Source.Expr) (lowered : List Lowered) : Lowering IR.Expr :=
  match lowered.getLast? with
  | none => fail .emptyBlock node.span
  | some (.expr value) => return .eseq (.seq (lowered.dropLast.map Lowered.toStmt)) value
  | some (.stmt _) =>
      fail (.expectedExpression "last block item") ((items.getLast?.map (·.span)).getD node.span)

/-- Lowers the definition of a variable; a global one becomes a chunk. -/
def ofVariable (context : LoweringContext) (node : Node) (name : String) : Lowering Unit := do
  match ← require (.missingAccess name) node.span (context.frames.storage? node.id) with
  | .global slot => emit (.global slot)
  | .localVar _ | .parameter _ => pure ()

def finishFunction (context : LoweringContext) (node : Node) (name : String)
    (result : IR.Expr) : Lowering Unit := do
  let frame ← require (.missingFrame name) node.span (context.frames.frame? node.id)
  emit (.code frame (functionBody result))

mutual

def ofExpr (context : LoweringContext) (level : Nat) : Source.Expr → Lowering Lowered
  | .literal _ value => do
      return .expr (← ofLiteral value)
  | .name node name => do
      return .expr (← ofName context level node name)
  | .unary _ operator operand => do
      let value ← asExpr "unary operand" operand (← ofExpr context level operand)
      return .expr (unary operator value)
  | .binary node operator left right => do
      let leftValue ← asExpr "left operand" left (← ofExpr context level left)
      let rightValue ← asExpr "right operand" right (← ofExpr context level right)
      return .expr (← ofBinary context node operator leftValue rightValue)
  | .call node name arguments => do
      let callee ← findCallee context node name
      let values ← ofArguments context level arguments
      return .expr (call level callee values)
  | .block node items => do
      let lowered ← ofExprs context level items
      return .expr (← ofItems node items lowered)
  | .ifThen _ condition thenBranch => do
      let test ← asExpr "if condition" condition (← ofExpr context level condition)
      let thenCode ← ofExpr context level thenBranch
      return .stmt (ifThen (← drawLabels) test thenCode.toStmt)
  | .ifThenElse _ condition thenBranch elseBranch => do
      let test ← asExpr "if condition" condition (← ofExpr context level condition)
      let thenCode ← ofExpr context level thenBranch
      let elseCode ← ofExpr context level elseBranch
      return .stmt (ifThenElse (← drawLabels) test thenCode.toStmt elseCode.toStmt)
  | .whileLoop _ condition body => do
      let test ← asExpr "while condition" condition (← ofExpr context level condition)
      let bodyCode ← ofExpr context level body
      return .stmt (whileLoop (← drawLabels) test bodyCode.toStmt)
  | .forLoop _ counter low high step body => do
      checkCounter counter
      let cell ← asExpr "for counter" counter (← ofExpr context level counter)
      let lowValue ← asExpr "for lower bound" low (← ofExpr context level low)
      let highValue ← asExpr "for upper bound" high (← ofExpr context level high)
      let stepValue ← asExpr "for step" step (← ofExpr context level step)
      let bodyCode ← ofExpr context level body
      let labels ← drawLabels
      let bound ← drawTemp
      let stride ← drawTemp
      return .stmt
        (forLoop labels bound stride cell lowValue highValue stepValue bodyCode.toStmt)
  | .whereIn _ definitions inner => do
      ofDefs context level definitions
      return .expr (← asExpr "where expression" inner (← ofExpr context level inner))

def ofExprs (context : LoweringContext) (level : Nat) : List Source.Expr → Lowering (List Lowered)
  | [] => pure []
  | expression :: rest => do
      let lowered ← ofExpr context level expression
      return lowered :: (← ofExprs context level rest)

def ofArguments (context : LoweringContext) (level : Nat) :
    List Source.Expr → Lowering (List IR.Expr)
  | [] => pure []
  | argument :: rest => do
      let value ← asExpr "call argument" argument (← ofExpr context level argument)
      return value :: (← ofArguments context level rest)

/-- Lowers a definition in a function of the given level. The body of a function
lies one level further in. -/
def ofDef (context : LoweringContext) (level : Nat) : Def → Lowering Unit
  | .function node name _ body => do
      let result ← asExpr "function body" body (← ofExpr context (level + 1) body)
      finishFunction context node name result
  | .var node name => ofVariable context node name
  | .typeAlias .. => pure ()

def ofDefs (context : LoweringContext) (level : Nat) : List Def → Lowering Unit
  | [] => pure ()
  | definition :: rest => do
      ofDef context level definition
      ofDefs context level rest

end

/-- The chunks of a program whose frames are laid out, with the labels and
temporaries that are left. -/
def ofProgram (program : Program) (frames : FrameTable) (labels : LabelSupply)
    (temps : IR.TempSupply) : Except CompileError LoweringState :=
  match (ofDefs ⟨program.resolution, frames⟩ 0 program.definitions).run { labels, temps } with
  | .ok () state => .ok state
  | .error error _ => .error error

end Lowering

end TreeBackend
