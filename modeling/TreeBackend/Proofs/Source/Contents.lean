import Mathlib.Data.List.Nodup
import TreeBackend.Source.Tree

/-!
# What a program defines

The functions of a program with the functions around them, the variables that
each one owns, and the calls that it makes itself.  A function that is nested in
another one has variables and calls of its own, which do not count for the outer
one.  Outside all functions the variables are global.
-/

namespace TreeBackend.Source

structure Variable where
  node : Node
  name : String
  deriving DecidableEq, Repr

/-- A function of a program. -/
structure Function where
  node : Node
  name : String
  parameters : List Parameter
  body : Expr
  /-- The functions around it, innermost first. -/
  around : List NodeId

/-- How deep a function is nested; a function outside all others has depth one. -/
def Function.depth (function : Function) : Nat := function.around.length + 1

/-- What a part of a program brings into the function in which it stands: the
variables it declares, the numbers of arguments of the calls it makes, and the
functions it defines, each before the ones within it. -/
structure Contents where
  locals : List Variable := []
  calls : List Nat := []
  functions : List Function := []

namespace Contents

/-- What two parts bring one after the other. -/
def append (first second : Contents) : Contents where
  locals := first.locals ++ second.locals
  calls := first.calls ++ second.calls
  functions := first.functions ++ second.functions

instance : Append Contents := ⟨append⟩

@[simp] theorem locals_append (first second : Contents) :
    (first ++ second).locals = first.locals ++ second.locals := rfl

@[simp] theorem calls_append (first second : Contents) :
    (first ++ second).calls = first.calls ++ second.calls := rfl

@[simp] theorem functions_append (first second : Contents) :
    (first ++ second).functions = first.functions ++ second.functions := rfl

theorem append_assoc (first second third : Contents) :
    first ++ second ++ third = first ++ (second ++ third) := by
  change append (append first second) third = append first (append second third)
  simp [append, List.append_assoc]

end Contents

mutual

/-- What an expression brings into the innermost of the functions around it. -/
def Expr.contents (around : List NodeId) : Expr → Contents
  | .literal .. | .name .. => {}
  | .unary _ _ operand => operand.contents around
  | .binary _ _ left right => left.contents around ++ right.contents around
  | .call _ _ arguments =>
      { calls := [arguments.length] } ++ Expr.contentsOfList around arguments
  | .block _ items => Expr.contentsOfList around items
  | .ifThen _ condition thenBranch => condition.contents around ++ thenBranch.contents around
  | .ifThenElse _ condition thenBranch elseBranch =>
      condition.contents around ++ thenBranch.contents around ++ elseBranch.contents around
  | .whileLoop _ condition body => condition.contents around ++ body.contents around
  | .forLoop _ counter low high step body =>
      counter.contents around ++ low.contents around ++ high.contents around ++
        step.contents around ++ body.contents around
  | .whereIn _ definitions inner =>
      Def.contentsOfList around definitions ++ inner.contents around

def Expr.contentsOfList (around : List NodeId) : List Expr → Contents
  | [] => {}
  | expression :: rest => expression.contents around ++ Expr.contentsOfList around rest

/-- What a definition brings into a function. The variables and calls of a function
stay within it. -/
def Def.contents (around : List NodeId) : Def → Contents
  | .function node name parameters body =>
      { functions := ⟨node, name, parameters, body, around⟩ ::
          (body.contents (node.id :: around)).functions }
  | .var node name => { locals := [⟨node, name⟩] }
  | .typeAlias .. => {}

def Def.contentsOfList (around : List NodeId) : List Def → Contents
  | [] => {}
  | definition :: rest => definition.contents around ++ Def.contentsOfList around rest

end

namespace Function

def contents (function : Function) : Contents :=
  function.body.contents (function.node.id :: function.around)

def ownedIds (function : Function) : List NodeId :=
  function.parameters.map (·.node.id) ++ function.contents.locals.map (·.node.id)

def ids (function : Function) : List NodeId := function.node.id :: function.ownedIds

end Function

namespace Contents

/-- The variables and parameters of a part of a program, at any depth. -/
def ownedIds (contents : Contents) : List NodeId :=
  contents.locals.map (·.node.id) ++ contents.functions.flatMap Function.ownedIds

/-- The variables of a part of a program, at any depth. -/
def allVariables (contents : Contents) : List Variable :=
  contents.locals ++ contents.functions.flatMap (·.contents.locals)

/-- The variables, parameters and functions of a part of a program, at any depth. -/
def ids (contents : Contents) : List NodeId :=
  contents.locals.map (·.node.id) ++ contents.functions.flatMap Function.ids

@[simp] theorem mem_ids_append {first second : Contents} {id : NodeId} :
    id ∈ (first ++ second).ids ↔ id ∈ first.ids ∨ id ∈ second.ids := by
  simp only [ids, locals_append, functions_append, List.map_append, List.flatMap_append,
    List.mem_append]
  exact or_or_or_comm

@[simp] theorem mem_ownedIds_append {first second : Contents} {id : NodeId} :
    id ∈ (first ++ second).ownedIds ↔ id ∈ first.ownedIds ∨ id ∈ second.ownedIds := by
  simp only [ownedIds, locals_append, functions_append, List.map_append, List.flatMap_append,
    List.mem_append]
  exact or_or_or_comm

theorem ids_append_perm (first second : Contents) :
    (first ++ second).ids.Perm (first.ids ++ second.ids) := by
  simp only [ids, locals_append, functions_append, List.map_append, List.flatMap_append,
    List.append_assoc]
  refine List.Perm.append_left _ ?_
  rw [← List.append_assoc, ← List.append_assoc]
  exact List.Perm.append_right _ List.perm_append_comm

/-- What is defined once in two parts is defined once in each, and not in both. -/
theorem nodup_ids_append {first second : Contents} :
    (first ++ second).ids.Nodup ↔
      first.ids.Nodup ∧ second.ids.Nodup ∧ first.ids.Disjoint second.ids := by
  rw [(ids_append_perm first second).nodup_iff, List.nodup_append']

theorem ids_of_mem_functions {contents : Contents} {function : Function}
    (member : function ∈ contents.functions) : function.ids ⊆ contents.ids := by
  intro id isOwn
  exact List.mem_append_right _ (List.mem_flatMap.mpr ⟨function, member, isOwn⟩)

/-- A function with all that is defined within it. -/
def ofFunction (function : Function) : Contents where
  functions := function :: function.contents.functions

theorem ids_ofFunction (function : Function) :
    (ofFunction function).ids =
      function.node.id :: (function.parameters.map (·.node.id) ++ function.contents.ids) := by
  simp [ofFunction, ids, Function.ids, Function.ownedIds]

theorem ownedIds_ofFunction (function : Function) :
    (ofFunction function).ownedIds =
      function.parameters.map (·.node.id) ++ function.contents.ownedIds := by
  simp [ofFunction, ownedIds, Function.ownedIds]

end Contents

namespace Program

/-- What a program consists of; its variables are the global ones. -/
def contents (program : Program) : Contents := Def.contentsOfList [] program.definitions

abbrev functions (program : Program) : List Function := program.contents.functions

abbrev globals (program : Program) : List Variable := program.contents.locals

/-- The numbers of the functions, variables and parameters that a program defines.
Type aliases do not matter to compilation. -/
def definitionIds (program : Program) : List NodeId := program.contents.ids

end Program

/-- A definition calls nothing in the function in which it stands. -/
theorem Def.calls_contentsOfList (around : List NodeId) (definitions : List Def) :
    (Def.contentsOfList around definitions).calls = [] := by
  induction definitions with
  | nil => rfl
  | cons definition rest ih =>
      rw [Def.contentsOfList, Contents.calls_append, ih, List.append_nil]
      cases definition <;> rfl

/-! ### The functions by their numbers -/

mutual

theorem Expr.functions_contents (around : List NodeId) : (expression : Expr) →
    (expression.contents around).functions.map (·.node.id) = expression.functionIds
  | .literal .. | .name .. => rfl
  | .unary _ _ operand => Expr.functions_contents around operand
  | .binary _ _ left right => by
      simp [Expr.contents, Expr.functionIds, Expr.functions_contents around left,
        Expr.functions_contents around right]
  | .call _ _ arguments => by
      simp [Expr.contents, Expr.functionIds, Expr.functions_contentsOfList around arguments]
  | .block _ items => Expr.functions_contentsOfList around items
  | .ifThen _ condition thenBranch => by
      simp [Expr.contents, Expr.functionIds, Expr.functions_contents around condition,
        Expr.functions_contents around thenBranch]
  | .ifThenElse _ condition thenBranch elseBranch => by
      simp [Expr.contents, Expr.functionIds, Expr.functions_contents around condition,
        Expr.functions_contents around thenBranch, Expr.functions_contents around elseBranch]
  | .whileLoop _ condition body => by
      simp [Expr.contents, Expr.functionIds, Expr.functions_contents around condition,
        Expr.functions_contents around body]
  | .forLoop _ counter low high step body => by
      simp [Expr.contents, Expr.functionIds, Expr.functions_contents around counter,
        Expr.functions_contents around low, Expr.functions_contents around high,
        Expr.functions_contents around step, Expr.functions_contents around body]
  | .whereIn _ definitions inner => by
      simp [Expr.contents, Expr.functionIds, Def.functions_contentsOfList around definitions,
        Expr.functions_contents around inner]

theorem Expr.functions_contentsOfList (around : List NodeId) : (expressions : List Expr) →
    (Expr.contentsOfList around expressions).functions.map (·.node.id) =
      Expr.functionIdsOfList expressions
  | [] => rfl
  | expression :: rest => by
      simp [Expr.contentsOfList, Expr.functionIdsOfList, Expr.functions_contents around expression,
        Expr.functions_contentsOfList around rest]

theorem Def.functions_contents (around : List NodeId) : (definition : Def) →
    (definition.contents around).functions.map (·.node.id) = definition.functionIds
  | .function node _ _ body => by
      simp [Def.contents, Def.functionIds, Expr.functions_contents (node.id :: around) body]
  | .var .. | .typeAlias .. => rfl

theorem Def.functions_contentsOfList (around : List NodeId) : (definitions : List Def) →
    (Def.contentsOfList around definitions).functions.map (·.node.id) =
      Def.functionIdsOfList definitions
  | [] => rfl
  | definition :: rest => by
      simp [Def.contentsOfList, Def.functionIdsOfList, Def.functions_contents around definition,
        Def.functions_contentsOfList around rest]

end

/-- The functions of a program are those whose numbers it gives. -/
theorem Program.map_functions (program : Program) :
    program.functions.map (·.node.id) = program.functionIds :=
  Def.functions_contentsOfList [] program.definitions

end TreeBackend.Source
