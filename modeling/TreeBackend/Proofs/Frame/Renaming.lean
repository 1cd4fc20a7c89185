import TreeBackend.Frame.Layout
import TreeBackend.Proofs.Parallel
import TreeBackend.Proofs.Source.Renaming

/-!
# Laying out a renamed program

The walk over a renamed program does what the walk over the program does, with other numbers
as the keys of its table.  A name is used outside all functions only, where it stays, and in
errors.
-/

namespace TreeBackend

open Source Outcome

/-- A table with the entries of other numbers. -/
def FrameTable.rename (change : Renaming) (table : FrameTable) : FrameTable where
  frames := table.frames.mapEntries change.id fun frame => frame
  storages := table.storages.mapEntries change.id fun storage => storage

namespace FrameTable

variable {change : Renaming} (injective : Function.Injective change.id) (table : FrameTable)
  (definition : NodeId)

include injective

theorem frame?_rename :
    (table.rename change).frame? (change.id definition) = table.frame? definition :=
  (Table.get?_mapEntries injective table.frames definition).trans Option.map_id'

theorem storage?_rename :
    (table.rename change).storage? (change.id definition) = table.storage? definition :=
  (Table.get?_mapEntries injective table.storages definition).trans Option.map_id'

theorem rename_addFrame (frame : Frame) :
    (table.addFrame definition frame).rename change =
      (table.rename change).addFrame (change.id definition) frame := by
  simp only [addFrame, rename, ← Table.insert_mapEntries injective]

theorem rename_addStorage (storage : Storage) :
    (table.addStorage definition storage).rename change =
      (table.rename change).addStorage (change.id definition) storage := by
  simp only [addStorage, rename, ← Table.insert_mapEntries injective]

end FrameTable

def Source.Renaming.SameErrors (change : Renaming) (problem other : CompileError) : Prop :=
  change.KeepsNames → problem = other

namespace Layout

/-- The walk over the renamed program is as far as the other one, within as many functions as
the depth says. -/
def Follows (change : Renaming) (depth : Nat) (state other : LayoutState) : Prop :=
  state.growing.length = depth ∧ other = { state with table := state.table.rename change }

section Steps

variable {change : Renaming} {resolution : Resolution} {depth : Nat}

theorem follows_enterFunction {name other : String} (same : depth = 0 → other = name) :
    Parallel change.SameErrors (Follows change depth) (Follows change (depth + 1))
      (enterFunction name) (enterFunction other) := by
  rintro ⟨labels, table, growing⟩ _ ⟨rfl, rfl⟩
  cases growing with
  | nil =>
      obtain rfl := same rfl
      exact .ok ⟨rfl, rfl⟩
  | cons frame outer => exact .ok ⟨rfl, rfl⟩

variable (injective : Function.Injective change.id)

include injective

theorem follows_leaveFunction (node : Node) (name other : String) :
    Parallel change.SameErrors (Follows change (depth + 1)) (Follows change depth)
      (leaveFunction node name) (leaveFunction (node.rename change) other) := by
  rintro ⟨labels, table, growing⟩ _ ⟨deep, rfl⟩
  cases growing with
  | nil => cases deep
  | cons frame outer =>
      refine .ok ⟨Nat.succ.inj deep, ?_⟩
      simp [FrameTable.rename_addFrame injective]

theorem follows_placeParameter (parameter : Parameter) :
    Parallel change.SameErrors (Follows change (depth + 1)) (Follows change (depth + 1))
      (placeParameter resolution parameter)
      (placeParameter (resolution.rename change) (parameter.rename change)) := by
  rintro ⟨labels, table, growing⟩ _ ⟨deep, rfl⟩
  cases growing with
  | nil => cases deep
  | cons frame outer =>
      simp only [placeParameter, Parameter.rename, Node.id_rename,
        Resolution.typeOf?_rename injective]
      cases resolution.typeOf? parameter.node.id with
      | none => exact .error fun keeps => by rw [keeps, Node.span_rename]
      | some ty =>
          refine .ok ⟨deep, ?_⟩
          simp [FrameTable.rename_addStorage injective]

theorem follows_placeVariable (node : Node) {name other : String}
    (same : depth = 0 → other = name) (kept : change.KeepsNames → other = name) :
    Parallel change.SameErrors (Follows change depth) (Follows change depth)
      (placeVariable resolution node name)
      (placeVariable (resolution.rename change) (node.rename change) other) := by
  rintro ⟨labels, table, growing⟩ _ ⟨rfl, rfl⟩
  simp only [placeVariable, Node.id_rename, Resolution.typeOf?_rename injective]
  cases resolution.typeOf? node.id with
  | none => exact .error fun keeps => by rw [kept keeps, Node.span_rename]
  | some ty =>
      cases growing with
      | nil =>
          obtain rfl := same rfl
          exact .ok ⟨rfl, by simp [FrameTable.rename_addStorage injective]⟩
      | cons frame outer => exact .ok ⟨rfl, by simp [FrameTable.rename_addStorage injective]⟩

omit injective in
theorem follows_placeCall (node : Node) (name other : String) (arguments : Nat) :
    Parallel change.SameErrors (Follows change (depth + 1)) (Follows change (depth + 1))
      (placeCall node name arguments) (placeCall (node.rename change) other arguments) := by
  rintro ⟨labels, table, growing⟩ _ ⟨deep, rfl⟩
  cases growing with
  | nil => cases deep
  | cons frame outer => exact .ok ⟨deep, rfl⟩

theorem follows_placeParameters (parameters : List Parameter) :
    Parallel change.SameErrors (Follows change (depth + 1)) (Follows change (depth + 1))
      (parameters.forM (placeParameter resolution))
      ((parameters.map (·.rename change)).forM (placeParameter (resolution.rename change))) := by
  induction parameters with
  | nil => exact .pure ()
  | cons parameter rest ih =>
      exact (follows_placeParameter injective parameter).andThen ih

end Steps

section Walks

variable {change : Renaming} {resolution : Resolution}

mutual

theorem follows_ofExpr (injective : Function.Injective change.id) {depth : Nat} :
    (expression : Expr) → Parallel change.SameErrors (Follows change (depth + 1))
      (Follows change (depth + 1)) (ofExpr resolution expression)
      (ofExpr (resolution.rename change) (expression.rename change))
  | .literal .. | .name .. => .pure ()
  | .unary _ _ operand => follows_ofExpr injective operand
  | .binary _ _ left right =>
      (follows_ofExpr injective left).andThen (follows_ofExpr injective right)
  | .call node name arguments => by
      simp only [ofExpr, Expr.rename, Expr.length_renameAll]
      exact (follows_placeCall node name _ arguments.length).andThen
        (follows_ofExprs injective arguments)
  | .block _ items => follows_ofExprs injective items
  | .ifThen _ condition thenBranch =>
      (follows_ofExpr injective condition).andThen (follows_ofExpr injective thenBranch)
  | .ifThenElse _ condition thenBranch elseBranch =>
      (follows_ofExpr injective condition).andThen <|
        (follows_ofExpr injective thenBranch).andThen (follows_ofExpr injective elseBranch)
  | .whileLoop _ condition body =>
      (follows_ofExpr injective condition).andThen (follows_ofExpr injective body)
  | .forLoop _ counter low high step body =>
      (follows_ofExpr injective counter).andThen <| (follows_ofExpr injective low).andThen <|
        (follows_ofExpr injective high).andThen <| (follows_ofExpr injective step).andThen
          (follows_ofExpr injective body)
  | .whereIn _ definitions inner =>
      (follows_ofDefs injective definitions).andThen (follows_ofExpr injective inner)

theorem follows_ofExprs (injective : Function.Injective change.id) {depth : Nat} :
    (expressions : List Expr) → Parallel change.SameErrors (Follows change (depth + 1))
      (Follows change (depth + 1)) (ofExprs resolution expressions)
      (ofExprs (resolution.rename change) (Expr.renameAll change expressions))
  | [] => .pure ()
  | expression :: rest =>
      (follows_ofExpr injective expression).andThen (follows_ofExprs injective rest)

theorem follows_ofDef (injective : Function.Injective change.id) {depth : Nat} :
    (definition : Def) → Parallel change.SameErrors (Follows change (depth + 1))
      (Follows change (depth + 1)) (ofDef resolution definition)
      (ofDef (resolution.rename change) (definition.rename change))
  | .function node name parameters body =>
      (follows_enterFunction fun outermost => (Nat.succ_ne_zero _ outermost).elim).andThen <|
        (follows_placeParameters injective parameters).andThen <|
          (follows_ofExpr injective body).andThen (follows_leaveFunction injective node name _)
  | .var node name =>
      follows_placeVariable injective node (fun outermost => (Nat.succ_ne_zero _ outermost).elim)
        fun keeps => keeps name
  | .typeAlias .. => .pure ()

theorem follows_ofDefs (injective : Function.Injective change.id) {depth : Nat} :
    (definitions : List Def) → Parallel change.SameErrors (Follows change (depth + 1))
      (Follows change (depth + 1)) (ofDefs resolution definitions)
      (ofDefs (resolution.rename change) (Def.renameAll change definitions))
  | [] => .pure ()
  | definition :: rest =>
      (follows_ofDef injective definition).andThen (follows_ofDefs injective rest)

end

variable (injective : Function.Injective change.id)

include injective

/-- Outside all functions the name of a definition is that of its label, and it stays. -/
theorem follows_outermost (definition : Def) :
    Parallel change.SameErrors (Follows change 0) (Follows change 0)
      (ofDef resolution definition)
      (ofDef (resolution.rename change) (definition.renameOutermost change)) := by
  cases definition with
  | function node name parameters body =>
      exact (follows_enterFunction fun _ => rfl).andThen <|
        (follows_placeParameters injective parameters).andThen <|
          (follows_ofExpr injective body).andThen (follows_leaveFunction injective node name name)
  | var node name => exact follows_placeVariable injective node (fun _ => rfl) fun _ => rfl
  | typeAlias node name => exact .pure ()

/-- The walk over a whole renamed program. -/
theorem follows_program (resolution : Resolution) (definitions : List Def) :
    Parallel change.SameErrors (Follows change 0) (Follows change 0)
      (ofDefs resolution definitions)
      (ofDefs (resolution.rename change) (definitions.map (·.renameOutermost change))) := by
  induction definitions with
  | nil => exact .pure ()
  | cons definition rest ih => exact (follows_outermost injective definition).andThen ih

end Walks

end Layout

end TreeBackend
