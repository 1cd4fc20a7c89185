import Mathlib.Data.List.Basic
import Mathlib.Logic.Function.Basic
import TreeBackend.Builtin
import TreeBackend.Source.Tree

/-!
# Renaming

Nodes get other numbers, and what is defined within functions gets other names.  The tables of
a resolution have numbers as keys, so they are renamed with the program; where no two numbers
become one, they say the same as before.
-/

namespace TreeBackend

namespace Table

variable {κ κ' α β : Type}

def mapEntries (key : κ → κ') (value : α → β) (table : Table κ α) : Table κ' β :=
  ⟨table.entries.map fun entry => (key entry.1, value entry.2)⟩

variable [DecidableEq κ] [DecidableEq κ'] {rekey : κ → κ'} {revalue : α → β}

theorem find?_map (injective : Function.Injective rekey) (key : κ) (entries : List (κ × α)) :
    find? (rekey key) (entries.map fun entry => (rekey entry.1, revalue entry.2)) =
      (find? key entries).map revalue := by
  induction entries with
  | nil => rfl
  | cons entry rest ih =>
      by_cases here : entry.1 = key
      · simp [find?, here]
      · simp [find?, here, injective.ne here, ih]

theorem get?_mapEntries (injective : Function.Injective rekey) (table : Table κ α) (key : κ) :
    (table.mapEntries rekey revalue).get? (rekey key) = (table.get? key).map revalue :=
  find?_map injective key table.entries

theorem replace_map (injective : Function.Injective rekey) (key : κ) (value : α)
    (entries : List (κ × α)) :
    replace (rekey key) (revalue value)
        (entries.map fun entry => (rekey entry.1, revalue entry.2)) =
      (replace key value entries).map fun entry => (rekey entry.1, revalue entry.2) := by
  induction entries with
  | nil => rfl
  | cons entry rest ih =>
      by_cases here : entry.1 = key
      · simp [replace, here]
      · simp [replace, here, injective.ne here, ih]

theorem insert_mapEntries (injective : Function.Injective rekey) (table : Table κ α) (key : κ)
    (value : α) :
    (table.mapEntries rekey revalue).insert (rekey key) (revalue value) =
      (table.insert key value).mapEntries rekey revalue := by
  have present : (table.mapEntries rekey revalue).get? (rekey key) =
      (table.get? key).map revalue := get?_mapEntries injective table key
  unfold insert
  cases found : table.get? key with
  | none =>
      rw [found] at present
      simp only [present, Option.map_none]
      rfl
  | some old =>
      rw [found] at present
      simp only [present, Option.map_some]
      exact congrArg Table.mk (replace_map injective key value table.entries)

end Table

namespace Source

/-- New numbers for nodes, and new names for what is defined within functions. -/
structure Renaming where
  id : NodeId → NodeId := fun id => id
  name : String → String := fun name => name

namespace Renaming

def callName (change : Renaming) (name : String) : String :=
  if (Builtin.ofName? name).isSome then name else change.name name

/-- Different nodes stay different, and no new name is that of a builtin, unless the old one
was. -/
structure Faithful (change : Renaming) : Prop where
  injective : Function.Injective change.id
  avoids : ∀ name, Builtin.ofName? name = none → Builtin.ofName? (change.name name) = none

def KeepsNames (change : Renaming) : Prop := ∀ name, change.name name = name

theorem ofName?_callName {change : Renaming} (faithful : change.Faithful) (name : String) :
    Builtin.ofName? (change.callName name) = Builtin.ofName? name := by
  cases known : Builtin.ofName? name with
  | none => simp [callName, known, faithful.avoids name known]
  | some builtin => simp [callName, known]

theorem callName_eq {change : Renaming} (keeps : change.KeepsNames) (name : String) :
    change.callName name = name := by
  simp [callName, keeps name]

end Renaming

/-- A node with another number. -/
def Node.rename (change : Renaming) (node : Node) : Node :=
  { node with id := change.id node.id }

@[simp] theorem Node.id_rename (change : Renaming) (node : Node) :
    (node.rename change).id = change.id node.id := rfl

@[simp] theorem Node.span_rename (change : Renaming) (node : Node) :
    (node.rename change).span = node.span := rfl

/-- A parameter with another number and another name. -/
def Parameter.rename (change : Renaming) (parameter : Parameter) : Parameter :=
  ⟨parameter.node.rename change, change.name parameter.name⟩

mutual

/-- An expression with other numbers, and other names in it. -/
def Expr.rename (change : Renaming) : Expr → Expr
  | .literal node value => .literal (node.rename change) value
  | .name node name => .name (node.rename change) (change.name name)
  | .unary node operator operand =>
      .unary (node.rename change) operator (operand.rename change)
  | .binary node operator left right =>
      .binary (node.rename change) operator (left.rename change) (right.rename change)
  | .call node name arguments =>
      .call (node.rename change) (change.callName name) (Expr.renameAll change arguments)
  | .block node items => .block (node.rename change) (Expr.renameAll change items)
  | .ifThen node condition thenBranch =>
      .ifThen (node.rename change) (condition.rename change) (thenBranch.rename change)
  | .ifThenElse node condition thenBranch elseBranch =>
      .ifThenElse (node.rename change) (condition.rename change) (thenBranch.rename change)
        (elseBranch.rename change)
  | .whileLoop node condition body =>
      .whileLoop (node.rename change) (condition.rename change) (body.rename change)
  | .forLoop node counter low high step body =>
      .forLoop (node.rename change) (counter.rename change) (low.rename change)
        (high.rename change) (step.rename change) (body.rename change)
  | .whereIn node definitions inner =>
      .whereIn (node.rename change) (Def.renameAll change definitions)
        (inner.rename change)

/-- Expressions with other numbers, and other names in them. -/
def Expr.renameAll (change : Renaming) : List Expr → List Expr
  | [] => []
  | expression :: rest => expression.rename change :: Expr.renameAll change rest

/-- A definition within a function with another number and another name. -/
def Def.rename (change : Renaming) : Def → Def
  | .function node name parameters body =>
      .function (node.rename change) (change.name name)
        (parameters.map (·.rename change)) (body.rename change)
  | .var node name => .var (node.rename change) (change.name name)
  | .typeAlias node name => .typeAlias (node.rename change) (change.name name)

/-- Definitions within a function with other numbers and other names. -/
def Def.renameAll (change : Renaming) : List Def → List Def
  | [] => []
  | definition :: rest => definition.rename change :: Def.renameAll change rest

end

/-- A definition outside all functions with another number.  Its own name stays. -/
def Def.renameOutermost (change : Renaming) : Def → Def
  | .function node name parameters body =>
      .function (node.rename change) name (parameters.map (·.rename change))
        (body.rename change)
  | .var node name => .var (node.rename change) name
  | .typeAlias node name => .typeAlias (node.rename change) name

/-- What is known about nodes that have other numbers. -/
def Resolution.rename (change : Renaming) (resolution : Resolution) : Resolution where
  definitions := resolution.definitions.mapEntries change.id change.id
  types := resolution.types.mapEntries change.id fun ty => ty

namespace Program

/-- A program with other numbers, and with other names for what is defined within functions. -/
def rename (change : Renaming) (program : Program) : Program where
  definitions := program.definitions.map (·.renameOutermost change)
  resolution := program.resolution.rename change

def mapIds (id : NodeId → NodeId) (program : Program) : Program := program.rename { id }

/-- A program without the names of parameters and of what is defined within functions, and
without the names in references, which the resolution has bound.  The names of builtins and
of definitions outside all functions are there. -/
def withoutLocalNames (program : Program) : Program := program.rename { name := fun _ => "" }

end Program

theorem Expr.span_rename (change : Renaming) (expression : Expr) :
    (expression.rename change).span = expression.span := by
  cases expression <;> rfl

theorem Expr.length_renameAll (change : Renaming) (expressions : List Expr) :
    (Expr.renameAll change expressions).length = expressions.length := by
  induction expressions with
  | nil => rfl
  | cons expression rest ih => simp [Expr.renameAll, ih]

theorem Expr.getLast?_renameAll (change : Renaming) (expressions : List Expr) :
    (Expr.renameAll change expressions).getLast?.map Expr.span =
      expressions.getLast?.map Expr.span := by
  induction expressions with
  | nil => rfl
  | cons expression rest ih =>
      cases rest with
      | nil => simp [Expr.renameAll, Expr.span_rename]
      | cons next others =>
          simp only [Expr.renameAll, List.getLast?_cons_cons] at ih ⊢
          exact ih

/-! ### Renaming twice -/

namespace Renaming

def andThen (first second : Renaming) : Renaming where
  id := second.id ∘ first.id
  name := second.name ∘ first.name

theorem callName_andThen {first : Renaming} (faithful : first.Faithful) (second : Renaming)
    (name : String) :
    second.callName (first.callName name) = (first.andThen second).callName name := by
  unfold callName
  cases known : Builtin.ofName? name with
  | none => simp [faithful.avoids name known, andThen]
  | some builtin => simp [known]

end Renaming

section Twice

variable {first second : Renaming}

theorem Node.rename_rename (node : Node) :
    (node.rename first).rename second = node.rename (first.andThen second) := rfl

mutual

theorem Expr.rename_rename (faithful : first.Faithful) : (expression : Expr) →
    (expression.rename first).rename second = expression.rename (first.andThen second)
  | .literal .. | .name .. => rfl
  | .unary _ _ operand => by
      simp only [Expr.rename, Node.rename_rename, Expr.rename_rename faithful operand]
  | .binary _ _ left right => by
      simp only [Expr.rename, Node.rename_rename, Expr.rename_rename faithful left,
        Expr.rename_rename faithful right]
  | .call _ _ arguments => by
      simp only [Expr.rename, Node.rename_rename, Expr.renameAll_renameAll faithful arguments,
        Renaming.callName_andThen faithful]
  | .block _ items => by
      simp only [Expr.rename, Node.rename_rename, Expr.renameAll_renameAll faithful items]
  | .ifThen _ condition thenBranch => by
      simp only [Expr.rename, Node.rename_rename, Expr.rename_rename faithful condition,
        Expr.rename_rename faithful thenBranch]
  | .ifThenElse _ condition thenBranch elseBranch => by
      simp only [Expr.rename, Node.rename_rename, Expr.rename_rename faithful condition,
        Expr.rename_rename faithful thenBranch, Expr.rename_rename faithful elseBranch]
  | .whileLoop _ condition body => by
      simp only [Expr.rename, Node.rename_rename, Expr.rename_rename faithful condition,
        Expr.rename_rename faithful body]
  | .forLoop _ counter low high step body => by
      simp only [Expr.rename, Node.rename_rename, Expr.rename_rename faithful counter,
        Expr.rename_rename faithful low, Expr.rename_rename faithful high,
        Expr.rename_rename faithful step, Expr.rename_rename faithful body]
  | .whereIn _ definitions inner => by
      simp only [Expr.rename, Node.rename_rename, Def.renameAll_renameAll faithful definitions,
        Expr.rename_rename faithful inner]

theorem Expr.renameAll_renameAll (faithful : first.Faithful) : (expressions : List Expr) →
    Expr.renameAll second (Expr.renameAll first expressions) =
      Expr.renameAll (first.andThen second) expressions
  | [] => rfl
  | expression :: rest => by
      simp only [Expr.renameAll, Expr.rename_rename faithful expression,
        Expr.renameAll_renameAll faithful rest]

theorem Def.rename_rename (faithful : first.Faithful) : (definition : Def) →
    (definition.rename first).rename second = definition.rename (first.andThen second)
  | .function _ _ _ body => by
      simp only [Def.rename, Expr.rename_rename faithful body, List.map_map]
      rfl
  | .var .. | .typeAlias .. => rfl

theorem Def.renameAll_renameAll (faithful : first.Faithful) : (definitions : List Def) →
    Def.renameAll second (Def.renameAll first definitions) =
      Def.renameAll (first.andThen second) definitions
  | [] => rfl
  | definition :: rest => by
      simp only [Def.renameAll, Def.rename_rename faithful definition,
        Def.renameAll_renameAll faithful rest]

end

theorem Program.rename_rename (faithful : first.Faithful) (program : Program) :
    (program.rename first).rename second = program.rename (first.andThen second) := by
  have outermost : (·.renameOutermost second) ∘ (·.renameOutermost first) =
      fun definition : Def => definition.renameOutermost (first.andThen second) := by
    funext definition
    cases definition with
    | function _ _ _ body =>
        simp only [Function.comp_apply, Def.renameOutermost, Expr.rename_rename faithful body,
          List.map_map]
        rfl
    | var | typeAlias => rfl
  simp only [Program.rename, Resolution.rename, Table.mapEntries, List.map_map, outermost]
  rfl

theorem Program.withoutLocalNames_rename {name : String → String}
    (faithful : Renaming.Faithful { name }) (program : Program) :
    (program.rename { name }).withoutLocalNames = program.withoutLocalNames :=
  program.rename_rename faithful

end Twice

section Resolution

variable {change : Renaming} (injective : Function.Injective change.id)
  (resolution : Resolution) (id : NodeId)

include injective

theorem Resolution.definitionOf?_rename :
    (resolution.rename change).definitionOf? (change.id id) =
      (resolution.definitionOf? id).map change.id :=
  Table.get?_mapEntries injective resolution.definitions id

theorem Resolution.typeOf?_rename :
    (resolution.rename change).typeOf? (change.id id) = resolution.typeOf? id :=
  (Table.get?_mapEntries injective resolution.types id).trans Option.map_id'

end Resolution

end Source

end TreeBackend
