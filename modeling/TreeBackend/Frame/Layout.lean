import TreeBackend.CompileError
import TreeBackend.Frame.Storage
import TreeBackend.Source.Tree

/-!
# Laying out frames

One walk over a program gives every function a frame and every variable and
parameter its storage. The frames of the functions around the current place grow
during the walk, the innermost one with every local and every call; outside all
functions variables are global.

A walk that fails leaves behind what it has entered so far, and the frames that
were still growing.
-/

namespace TreeBackend

open Source

/-- What a walk has to remember. -/
structure LayoutState where
  labels : LabelSupply := {}
  table : FrameTable := {}
  /-- The frames of the functions around the current place, innermost first. -/
  growing : List Frame := []

/-- A part of a walk. -/
abbrev Layout (α : Type) := EStateM CompileError LayoutState α

namespace Layout

/-- Starts the frame of a function. A function outside all others keeps its name
as a label; the first word of the parameters is for the static link. -/
def enterFunction (name : String) : Layout Unit := fun state =>
  let (label, labels) :=
    match state.growing with
    | [] => (Label.named name, state.labels)
    | _ :: _ => (state.labels.next, state.labels.rest)
  let frame := ({ label, level := state.growing.length + 1 } : Frame).reserveParameter Word.size
  .ok () { state with labels, growing := frame.2 :: state.growing }

def leaveFunction (node : Node) (name : String) : Layout Unit := fun state =>
  match state.growing with
  | [] => .error (.located (.missingFrame name) node.span) state
  | frame :: outer =>
      .ok () { state with table := state.table.addFrame node.id frame, growing := outer }

def placeParameter (resolution : Resolution) (parameter : Parameter) : Layout Unit := fun state =>
  match resolution.typeOf? parameter.node.id, state.growing with
  | none, _ =>
      .error (.located (.missingType s!"parameter '{parameter.name}'") parameter.node.span) state
  | some _, [] =>
      .error (.located (.unexpectedDefinition parameter.name) parameter.node.span) state
  | some ty, frame :: outer =>
      let (offset, grown) := frame.reserveParameter ty.parameterSize
      let slot : StackSlot := ⟨ty.parameterSize, offset, frame.level⟩
      .ok () { state with
        table := state.table.addStorage parameter.node.id (.parameter slot),
        growing := grown :: outer }

/-- Gives a variable its storage: in the innermost frame, or at a label of its
name if there is no frame. -/
def placeVariable (resolution : Resolution) (node : Node) (name : String) :
    Layout Unit := fun state =>
  match resolution.typeOf? node.id, state.growing with
  | none, _ => .error (.located (.missingType s!"variable '{name}'") node.span) state
  | some ty, [] =>
      let slot : GlobalSlot := ⟨ty.storageSize, .named name⟩
      .ok () { state with table := state.table.addStorage node.id (.global slot) }
  | some ty, frame :: outer =>
      let (offset, grown) := frame.reserveLocal ty.storageSize
      let slot : StackSlot := ⟨ty.storageSize, offset, frame.level⟩
      .ok () { state with
        table := state.table.addStorage node.id (.localVar slot),
        growing := grown :: outer }

/-- Makes room in the innermost frame for the arguments of a call and the static
link in front of them. -/
def placeCall (node : Node) (name : String) (arguments : Nat) : Layout Unit := fun state =>
  match state.growing with
  | [] => .error (.located (.callOutsideFunction name) node.span) state
  | frame :: outer =>
      let grown := frame.reserveCall (Word.size * arguments + Word.size)
      .ok () { state with growing := grown :: outer }

mutual

def ofExpr (resolution : Resolution) : Expr → Layout Unit
  | .literal .. | .name .. => pure ()
  | .unary _ _ operand => ofExpr resolution operand
  | .binary _ _ left right => do
      ofExpr resolution left
      ofExpr resolution right
  | .call node name arguments => do
      placeCall node name arguments.length
      ofExprs resolution arguments
  | .block _ items => ofExprs resolution items
  | .ifThen _ condition thenBranch => do
      ofExpr resolution condition
      ofExpr resolution thenBranch
  | .ifThenElse _ condition thenBranch elseBranch => do
      ofExpr resolution condition
      ofExpr resolution thenBranch
      ofExpr resolution elseBranch
  | .whileLoop _ condition body => do
      ofExpr resolution condition
      ofExpr resolution body
  | .forLoop _ counter low high step body => do
      ofExpr resolution counter
      ofExpr resolution low
      ofExpr resolution high
      ofExpr resolution step
      ofExpr resolution body
  | .whereIn _ definitions inner => do
      ofDefs resolution definitions
      ofExpr resolution inner

/-- Lays out expressions from left to right. -/
def ofExprs (resolution : Resolution) : List Expr → Layout Unit
  | [] => pure ()
  | expression :: rest => do
      ofExpr resolution expression
      ofExprs resolution rest

/-- Lays out a definition. -/
def ofDef (resolution : Resolution) : Def → Layout Unit
  | .function node name parameters body => do
      enterFunction name
      parameters.forM (placeParameter resolution)
      ofExpr resolution body
      leaveFunction node name
  | .var node name => placeVariable resolution node name
  | .typeAlias .. => pure ()

/-- Lays out definitions in their order. -/
def ofDefs (resolution : Resolution) : List Def → Layout Unit
  | [] => pure ()
  | definition :: rest => do
      ofDef resolution definition
      ofDefs resolution rest

end

def ofProgram (program : Program) (labels : LabelSupply) :
    Except CompileError (FrameTable × LabelSupply) :=
  match (ofDefs program.resolution program.definitions).run { labels } with
  | .ok () state => .ok (state.table, state.labels)
  | .error error _ => .error error

end Layout

end TreeBackend
