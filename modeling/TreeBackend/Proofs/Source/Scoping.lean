import TreeBackend.Label
import TreeBackend.Proofs.Source.Extents
import TreeBackend.Proofs.Source.Nesting
import TreeBackend.Proofs.Source.Parts
import TreeBackend.Proofs.Source.WellFormed

/-!
# Lexical scoping

A program is lexically scoped if names refer to global variables and to what the functions
around them own, and if calls go to functions outside all others and to functions that are
defined in the caller or in one of the functions around it.
-/

namespace TreeBackend.Source

/-- Whether something is an integer, a truth value or a string. -/
def Resolution.takesWord (resolution : Resolution) (definition : NodeId) : Bool :=
  (resolution.typeOf? definition).any [.int, .log, .str].contains

namespace Function

/-- A function all of whose variables and parameters take one word each. -/
def TakesWords (resolution : Resolution) (function : Function) : Prop :=
  ∀ id ∈ function.ownedIds, resolution.takesWord id = true

instance (resolution : Resolution) (function : Function) :
    Decidable (function.TakesWords resolution) :=
  inferInstanceAs (Decidable (∀ id ∈ function.ownedIds, _))

/-- A function whose parameters take one word each, and whose variables take one or more. -/
structure TakesRoom (resolution : Resolution) (function : Function) : Prop where
  parameters : ∀ parameter ∈ function.parameters,
    resolution.parameterSize parameter.node.id = Word.size
  locals : ∀ owned ∈ function.contents.locals,
    Word.size ≤ resolution.extent owned.node.id ∧ Word.size ∣ resolution.extent owned.node.id

/-- A function is outside all others, or directly in another one or in one around that one. -/
def IsVisibleFrom (callee caller : Function) : Prop :=
  ∀ outer ∈ callee.around.head?, outer ∈ caller.node.id :: caller.around

instance (callee caller : Function) : Decidable (callee.IsVisibleFrom caller) :=
  inferInstanceAs (Decidable (∀ outer ∈ callee.around.head?, _))

end Function

namespace Program

variable (program : Program)

def topNames : List String :=
  program.globals.map (·.name) ++
    (program.functions.filter fun function => function.around.isEmpty).map (·.name)

def topFunctionNames : List String :=
  (program.functions.filter fun function => function.around.isEmpty).map (·.name)

variable {program} in
theorem nodup_topFunctionNames (distinct : program.topNames.Nodup) :
    program.topFunctionNames.Nodup :=
  (List.nodup_append'.mp distinct).2.1

/-- Whether a reference in a function leads to a global variable, or to a variable or a
parameter of the function or of one around it. -/
def seesVariable (function : Function) (node : Node) : Bool :=
  (program.resolution.definitionOf? node.id).any fun definition =>
    program.globals.any (fun owned => owned.node.id = definition) ||
      program.functions.any fun owner =>
        (function.node.id :: function.around).contains owner.node.id &&
          owner.ownedIds.contains definition

/-- Whether a call in a function leads to a builtin, or to a visible function that has as
many parameters as there are arguments. -/
def seesCallee (function : Function) (node : Node) (name : String) (arguments : Nat) : Bool :=
  (Builtin.ofName? name).isSome ||
    (program.resolution.definitionOf? node.id).any fun definition =>
      program.functions.any fun callee =>
        callee.node.id = definition && callee.parameters.length = arguments &&
          callee.IsVisibleFrom function

end Program

mutual

/-- Whether an expression in the body of a function is lexically scoped. It has no
subscripts, and its assignments go to references. -/
def Expr.isScoped (program : Program) (function : Function) : Expr → Bool
  | .literal .. => true
  | .name node _ => program.seesVariable function node
  | .unary _ _ operand => operand.isScoped program function
  | .binary _ (.compute _) left right =>
      left.isScoped program function && right.isScoped program function
  | .binary _ .index _ _ => false
  | .binary _ .assign target value =>
      target.isName && target.isScoped program function && value.isScoped program function
  | .call node called arguments =>
      program.seesCallee function node called arguments.length &&
        Expr.areScoped program function arguments
  | .block _ items => Expr.areScoped program function items
  | .ifThen _ condition thenBranch =>
      condition.isScoped program function && thenBranch.isScoped program function
  | .ifThenElse _ condition thenBranch elseBranch =>
      condition.isScoped program function && thenBranch.isScoped program function &&
        elseBranch.isScoped program function
  | .whileLoop _ condition body =>
      condition.isScoped program function && body.isScoped program function
  | .forLoop _ counter low high step body =>
      counter.isScoped program function && low.isScoped program function &&
        high.isScoped program function && step.isScoped program function &&
        body.isScoped program function
  | .whereIn _ _ inner => inner.isScoped program function

def Expr.areScoped (program : Program) (function : Function) : List Expr → Bool
  | [] => true
  | expression :: rest =>
      expression.isScoped program function && Expr.areScoped program function rest

end

/-- A lexically scoped program, with definitions that can be told apart. -/
structure Program.IsScoped (program : Program) : Prop where
  distinct : program.definitionIds.Nodup
  words : ∀ function ∈ program.functions, function.TakesWords program.resolution
  bodies : ∀ function ∈ program.functions, function.body.isScoped program function = true
  names : program.topNames.Nodup
  /-- Nothing has the name of a pointer. -/
  noPointer : ∀ name ∈ program.topNames,
    Label.named name ≠ .framePointer ∧ Label.named name ≠ .stackPointer
  /-- A program starts without arguments. -/
  main : ∀ function ∈ program.functions, function.around = [] → function.name = "main" →
    function.parameters = []

/-- A lexically scoped program in which every variable has room for a word, and perhaps for
more. -/
structure Program.IsConfined (program : Program) : Prop where
  distinct : program.definitionIds.Nodup
  rooms : ∀ function ∈ program.functions, function.TakesRoom program.resolution
  bodies : ∀ function ∈ program.functions, function.body.isScoped program function = true
  names : program.topNames.Nodup
  noPointer : ∀ name ∈ program.topNames,
    Label.named name ≠ .framePointer ∧ Label.named name ≠ .stackPointer
  main : ∀ function ∈ program.functions, function.around = [] → function.name = "main" →
    function.parameters = []

/-! ### Words -/

section Words

variable {resolution : Resolution} {definition : NodeId}

theorem takesWord_eq_true_iff : resolution.takesWord definition = true ↔
    resolution.typeOf? definition = some .int ∨ resolution.typeOf? definition = some .log ∨
      resolution.typeOf? definition = some .str := by
  unfold Resolution.takesWord
  cases resolution.typeOf? definition <;> simp

theorem extent_of_takesWord (words : resolution.takesWord definition = true) :
    resolution.extent definition = Word.size := by
  rcases takesWord_eq_true_iff.mp words with known | known | known <;>
  · rw [Resolution.extent, known]
    rfl

theorem parameterSize_of_takesWord (words : resolution.takesWord definition = true) :
    resolution.parameterSize definition = Word.size := by
  rcases takesWord_eq_true_iff.mp words with known | known | known <;>
    simp [Resolution.parameterSize, known, Ty.parameterSize]

theorem Function.TakesWords.takesRoom {function : Function}
    (words : function.TakesWords resolution) : function.TakesRoom resolution where
  parameters _ member :=
    parameterSize_of_takesWord (words _ (List.mem_append_left _ (List.mem_map_of_mem member)))
  locals owned member := by
    rw [extent_of_takesWord (words _ (List.mem_append_right _ (List.mem_map_of_mem member)))]
    exact ⟨Int.le_refl _, Int.dvd_refl _⟩

theorem Program.IsScoped.isConfined {program : Program} (scope : program.IsScoped) :
    program.IsConfined :=
  ⟨scope.distinct, fun function member => (scope.words function member).takesRoom, scope.bodies,
    scope.names, scope.noPointer, scope.main⟩

end Words

/-! ### Assignments -/

mutual

theorem Expr.assignToReferences {program : Program} (around : List NodeId) :
    (expression : Expr) → {function : Function} → expression.isScoped program function = true →
    (∀ inner ∈ (expression.contents around).functions,
      inner.body.isScoped program inner = true) → AssignToReferences expression.parts
  | .literal .., _, _, _ | .name .., _, _, _ => AssignToReferences.single rfl
  | .unary _ _ operand, _, inScope, bodies =>
      (Expr.assignToReferences around operand inScope bodies).cons rfl
  | .binary _ (.compute _) left right, _, inScope, bodies => by
      rw [Expr.isScoped, Bool.and_eq_true] at inScope
      obtain ⟨leftBodies, rightBodies⟩ := List.forall_mem_append.mp bodies
      exact ((Expr.assignToReferences around left inScope.1 leftBodies).append
        (Expr.assignToReferences around right inScope.2 rightBodies)).cons rfl
  | .binary _ .index _ _, _, inScope, _ => by cases inScope
  | .binary _ .assign target value, _, inScope, bodies => by
      simp only [Expr.isScoped, Bool.and_eq_true] at inScope
      obtain ⟨leftBodies, rightBodies⟩ := List.forall_mem_append.mp bodies
      refine ((Expr.assignToReferences around target inScope.1.2 leftBodies).append
        (Expr.assignToReferences around value inScope.2 rightBodies)).cons ?_
      cases target with
      | name => rfl
      | literal | unary | binary | call | block | ifThen | ifThenElse | whileLoop | forLoop
      | whereIn => cases inScope.1.1
  | .call _ _ arguments, _, inScope, bodies => by
      rw [Expr.isScoped, Bool.and_eq_true] at inScope
      exact (Expr.assignToReferencesOfList around arguments inScope.2
        (List.forall_mem_append.mp bodies).2).cons rfl
  | .block _ items, _, inScope, bodies =>
      (Expr.assignToReferencesOfList around items inScope bodies).cons rfl
  | .ifThen _ condition thenBranch, _, inScope, bodies => by
      rw [Expr.isScoped, Bool.and_eq_true] at inScope
      obtain ⟨testBodies, branchBodies⟩ := List.forall_mem_append.mp bodies
      exact ((Expr.assignToReferences around condition inScope.1 testBodies).append
        (Expr.assignToReferences around thenBranch inScope.2 branchBodies)).cons rfl
  | .ifThenElse _ condition thenBranch elseBranch, _, inScope, bodies => by
      simp only [Expr.isScoped, Bool.and_eq_true] at inScope
      obtain ⟨front, otherBodies⟩ := List.forall_mem_append.mp bodies
      obtain ⟨testBodies, branchBodies⟩ := List.forall_mem_append.mp front
      exact (((Expr.assignToReferences around condition inScope.1.1 testBodies).append
        (Expr.assignToReferences around thenBranch inScope.1.2 branchBodies)).append
        (Expr.assignToReferences around elseBranch inScope.2 otherBodies)).cons rfl
  | .whileLoop _ condition body, _, inScope, bodies => by
      rw [Expr.isScoped, Bool.and_eq_true] at inScope
      obtain ⟨testBodies, bodyBodies⟩ := List.forall_mem_append.mp bodies
      exact ((Expr.assignToReferences around condition inScope.1 testBodies).append
        (Expr.assignToReferences around body inScope.2 bodyBodies)).cons rfl
  | .forLoop _ counter low high step body, _, inScope, bodies => by
      simp only [Expr.isScoped, Bool.and_eq_true] at inScope
      obtain ⟨front, bodyBodies⟩ := List.forall_mem_append.mp bodies
      obtain ⟨front, stepBodies⟩ := List.forall_mem_append.mp front
      obtain ⟨front, highBodies⟩ := List.forall_mem_append.mp front
      obtain ⟨counterBodies, lowBodies⟩ := List.forall_mem_append.mp front
      exact (((((Expr.assignToReferences around counter inScope.1.1.1.1 counterBodies).append
        (Expr.assignToReferences around low inScope.1.1.1.2 lowBodies)).append
        (Expr.assignToReferences around high inScope.1.1.2 highBodies)).append
        (Expr.assignToReferences around step inScope.1.2 stepBodies)).append
        (Expr.assignToReferences around body inScope.2 bodyBodies)).cons rfl
  | .whereIn _ definitions inner, _, inScope, bodies => by
      obtain ⟨front, innerBodies⟩ := List.forall_mem_append.mp bodies
      exact ((Def.assignToReferencesOfList around definitions front).append
        (Expr.assignToReferences around inner inScope innerBodies)).cons rfl

theorem Expr.assignToReferencesOfList {program : Program} (around : List NodeId) :
    (expressions : List Expr) → {function : Function} →
    Expr.areScoped program function expressions = true →
    (∀ inner ∈ (Expr.contentsOfList around expressions).functions,
      inner.body.isScoped program inner = true) → AssignToReferences (Expr.partsOfList expressions)
  | [], _, _, _ => .nil
  | expression :: rest, _, inScope, bodies => by
      rw [Expr.areScoped, Bool.and_eq_true] at inScope
      obtain ⟨firstBodies, restBodies⟩ := List.forall_mem_append.mp bodies
      exact (Expr.assignToReferences around expression inScope.1 firstBodies).append
        (Expr.assignToReferencesOfList around rest inScope.2 restBodies)

theorem Def.assignToReferences {program : Program} (around : List NodeId) : (definition : Def) →
    (∀ inner ∈ (definition.contents around).functions,
      inner.body.isScoped program inner = true) → AssignToReferences definition.parts
  | .function node name parameters body, bodies => by
      obtain ⟨own, inner⟩ := List.forall_mem_cons.mp bodies
      exact Expr.assignToReferences (node.id :: around) body own inner
  | .var .., _ | .typeAlias .., _ => .nil

theorem Def.assignToReferencesOfList {program : Program} (around : List NodeId) :
    (definitions : List Def) → (∀ inner ∈ (Def.contentsOfList around definitions).functions,
      inner.body.isScoped program inner = true) → AssignToReferences (Def.partsOfList definitions)
  | [], _ => .nil
  | definition :: rest, bodies => by
      obtain ⟨firstBodies, restBodies⟩ := List.forall_mem_append.mp bodies
      exact (Def.assignToReferences around definition firstBodies).append
        (Def.assignToReferencesOfList around rest restBodies)

end

theorem Program.IsConfined.assignToReferences {program : Program} (scope : program.IsConfined)
    {function : Function} (member : function ∈ program.functions) :
    AssignToReferences function.body.parts :=
  (Def.assignToReferencesOfList [] program.definitions scope.bodies).mono
    (Program.parts_body_subset member)

end TreeBackend.Source
