import TreeBackend.CompileError
import TreeBackend.Proofs.Source.Parts
import TreeBackend.Proofs.Source.WellFormed

/-!
# What there is to object to in a program

Each error of compilation as an objection to one expression of the program, read off the tree
and its resolution alone.  Whether a reference is out of scope depends on the function in whose
body it stands, so expressions are listed together with the depths of their functions.
-/

namespace TreeBackend.Source

/-! ### Expressions with their depths -/

mutual

/-- An expression that stands in a function of the given depth, and all expressions in it, each
with the depth of the function in which it stands. -/
def Expr.partsAt (depth : Nat) : Expr → List (Nat × Expr)
  | .literal node value => [(depth, .literal node value)]
  | .name node called => [(depth, .name node called)]
  | .unary node operator operand =>
      (depth, .unary node operator operand) :: operand.partsAt depth
  | .binary node operator left right =>
      (depth, .binary node operator left right) :: (left.partsAt depth ++ right.partsAt depth)
  | .call node called arguments =>
      (depth, .call node called arguments) :: Expr.partsAtOfList depth arguments
  | .block node items => (depth, .block node items) :: Expr.partsAtOfList depth items
  | .ifThen node condition thenBranch =>
      (depth, .ifThen node condition thenBranch) ::
        (condition.partsAt depth ++ thenBranch.partsAt depth)
  | .ifThenElse node condition thenBranch elseBranch =>
      (depth, .ifThenElse node condition thenBranch elseBranch) ::
        (condition.partsAt depth ++ thenBranch.partsAt depth ++ elseBranch.partsAt depth)
  | .whileLoop node condition body =>
      (depth, .whileLoop node condition body) :: (condition.partsAt depth ++ body.partsAt depth)
  | .forLoop node counter low high step body =>
      (depth, .forLoop node counter low high step body) ::
        (counter.partsAt depth ++ low.partsAt depth ++ high.partsAt depth ++
          step.partsAt depth ++ body.partsAt depth)
  | .whereIn node definitions inner =>
      (depth, .whereIn node definitions inner) ::
        (Def.partsAtOfList depth definitions ++ inner.partsAt depth)

def Expr.partsAtOfList (depth : Nat) : List Expr → List (Nat × Expr)
  | [] => []
  | expression :: rest => expression.partsAt depth ++ Expr.partsAtOfList depth rest

/-- All expressions in a definition, with their depths. The body of a function lies one level
further in. -/
def Def.partsAt (depth : Nat) : Def → List (Nat × Expr)
  | .function _ _ _ body => body.partsAt (depth + 1)
  | .var .. | .typeAlias .. => []

def Def.partsAtOfList (depth : Nat) : List Def → List (Nat × Expr)
  | [] => []
  | definition :: rest => definition.partsAt depth ++ Def.partsAtOfList depth rest

end

/-- All expressions of a program, with the depths of the functions in whose bodies they stand. -/
def Program.partsByDepth (program : Program) : List (Nat × Expr) :=
  Def.partsAtOfList 0 program.definitions

theorem Expr.mem_partsAt (depth : Nat) (expression : Expr) :
    (depth, expression) ∈ expression.partsAt depth := by
  cases expression <;> exact List.mem_cons_self ..

mutual

theorem Expr.map_partsAt (depth : Nat) : (expression : Expr) →
    (expression.partsAt depth).map Prod.snd = expression.parts
  | .literal .. | .name .. => rfl
  | .unary _ _ operand => by simp [Expr.partsAt, Expr.parts, operand.map_partsAt depth]
  | .binary _ _ left right => by
      simp [Expr.partsAt, Expr.parts, left.map_partsAt depth, right.map_partsAt depth]
  | .call _ _ arguments => by
      simp [Expr.partsAt, Expr.parts, Expr.map_partsAtOfList depth arguments]
  | .block _ items => by simp [Expr.partsAt, Expr.parts, Expr.map_partsAtOfList depth items]
  | .ifThen _ condition thenBranch => by
      simp [Expr.partsAt, Expr.parts, condition.map_partsAt depth, thenBranch.map_partsAt depth]
  | .ifThenElse _ condition thenBranch elseBranch => by
      simp [Expr.partsAt, Expr.parts, condition.map_partsAt depth, thenBranch.map_partsAt depth,
        elseBranch.map_partsAt depth]
  | .whileLoop _ condition body => by
      simp [Expr.partsAt, Expr.parts, condition.map_partsAt depth, body.map_partsAt depth]
  | .forLoop _ counter low high step body => by
      simp [Expr.partsAt, Expr.parts, counter.map_partsAt depth, low.map_partsAt depth,
        high.map_partsAt depth, step.map_partsAt depth, body.map_partsAt depth]
  | .whereIn _ definitions inner => by
      simp [Expr.partsAt, Expr.parts, Def.map_partsAtOfList depth definitions,
        inner.map_partsAt depth]

theorem Expr.map_partsAtOfList (depth : Nat) : (expressions : List Expr) →
    (Expr.partsAtOfList depth expressions).map Prod.snd = Expr.partsOfList expressions
  | [] => rfl
  | expression :: rest => by
      simp [Expr.partsAtOfList, Expr.partsOfList, expression.map_partsAt depth,
        Expr.map_partsAtOfList depth rest]

theorem Def.map_partsAt (depth : Nat) : (definition : Def) →
    (definition.partsAt depth).map Prod.snd = definition.parts
  | .function _ _ _ body => body.map_partsAt (depth + 1)
  | .var .. | .typeAlias .. => rfl

theorem Def.map_partsAtOfList (depth : Nat) : (definitions : List Def) →
    (Def.partsAtOfList depth definitions).map Prod.snd = Def.partsOfList definitions
  | [] => rfl
  | definition :: rest => by
      simp [Def.partsAtOfList, Def.partsOfList, definition.map_partsAt depth,
        Def.map_partsAtOfList depth rest]

end

/-- The expressions of a program are those that have a depth in it. -/
theorem Program.map_partsByDepth (program : Program) :
    program.partsByDepth.map Prod.snd = program.parts :=
  Def.map_partsAtOfList 0 program.definitions

theorem Program.mem_parts_of_mem_partsByDepth {program : Program} {place : Nat × Expr}
    (member : place ∈ program.partsByDepth) : place.2 ∈ program.parts := by
  rw [← program.map_partsByDepth]
  exact List.mem_map_of_mem member

/-! ### Objections -/

/-- What compilation can object to at an expression that stands in a function of the given
depth. -/
inductive Objection (program : Program) (depth : Nat) : Expr → CompileError → Prop
  /-- A reference that is bound to nothing. -/
  | unboundName {node : Node} {called : String}
      (unbound : program.resolution.definitionOf? node.id = none) :
      Objection program depth (.name node called) (.located (.missingDefinition called) node.span)
  /-- A reference to something that the program does not define as a variable or parameter. -/
  | absentVariable {node : Node} {called : String} {definition : NodeId}
      (bound : program.resolution.definitionOf? node.id = some definition)
      (absent : definition ∉ program.contents.ownedIds) :
      Objection program depth (.name node called) (.located (.missingAccess called) node.span)
  /-- A reference to a variable or a parameter of a function that is nested more deeply. -/
  | outOfScope {node : Node} {called : String} {definition : NodeId} {owner : Function}
      (bound : program.resolution.definitionOf? node.id = some definition)
      (member : owner ∈ program.functions) (isOwned : definition ∈ owner.ownedIds)
      (deeper : depth < owner.depth) :
      Objection program depth (.name node called)
        (.located (.unexpectedDefinition called) node.span)
  /-- A call that is bound to nothing, of something that is not a builtin. -/
  | unboundCall {node : Node} {called : String} {arguments : List Expr}
      (notBuiltin : Builtin.ofName? called = none)
      (unbound : program.resolution.definitionOf? node.id = none) :
      Objection program depth (.call node called arguments)
        (.located (.missingDefinition called) node.span)
  /-- A call of something that the program does not define as a function. -/
  | absentFunction {node : Node} {called : String} {arguments : List Expr} {definition : NodeId}
      (bound : program.resolution.definitionOf? node.id = some definition)
      (absent : definition ∉ program.functionIds) :
      Objection program depth (.call node called arguments)
        (.located (.missingFrame called) node.span)
  /-- A subscript of unknown type. -/
  | untypedElement {node : Node} {base index : Expr}
      (untyped : program.resolution.typeOf? node.id = none) :
      Objection program depth (.binary node .index base index)
        (.located (.missingType "array element") node.span)
  /-- A conditional or a loop in a place where a value is needed. -/
  | noValue {part : Expr} {place : String} (valueless : part.isValue = false) :
      Objection program depth part (.located (.expectedExpression place) part.span)
  /-- A block without items. -/
  | emptyBlock {node : Node} :
      Objection program depth (.block node []) (.located .emptyBlock node.span)
  /-- A loop that counts something other than a reference. -/
  | invalidCounter {node : Node} {counter low high step body : Expr}
      (notName : counter.isName = false) :
      Objection program depth (.forLoop node counter low high step body)
        (.located .invalidCounter counter.span)
  /-- An assignment to something other than a place. -/
  | noPlace {node : Node} {target value : Expr} {what : String}
      (placeless : target.isPlace = false) :
      Objection program depth (.binary node .assign target value) (.unflattenable what)

def ObjectedIn (program : Program) (standing : List (Nat × Expr)) (problem : CompileError) :
    Prop :=
  ∃ place ∈ standing, Objection program place.1 place.2 problem

theorem ObjectedIn.mono {program : Program} {standing others : List (Nat × Expr)}
    {problem : CompileError} (objected : ObjectedIn program standing problem)
    (includes : standing ⊆ others) : ObjectedIn program others problem :=
  let ⟨place, member, objection⟩ := objected
  ⟨place, includes member, objection⟩

def AssignToPlaces (standing : List (Nat × Expr)) : Prop :=
  ∀ depth node target value, (depth, Expr.binary node .assign target value) ∈ standing →
    target.isPlace = true

theorem AssignToPlaces.mono {standing others : List (Nat × Expr)}
    (assign : AssignToPlaces standing) (includes : others ⊆ standing) : AssignToPlaces others :=
  fun depth node target value member => assign depth node target value (includes member)

end TreeBackend.Source
