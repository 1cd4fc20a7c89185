import TreeBackend.Proofs.Source.Contents

/-!
# What chunks are made for

A walk over a program that visits what is within a function before the function itself.  It
finds the functions, the string constants and, outside all functions, the variables.  What it
finds of functions is all functions of the program, each once, and what it finds of variables
is the global ones in their order.
-/

namespace TreeBackend.Source

/-- Something for which a chunk is made. -/
inductive Origin where
  | function (function : Function)
  /-- A string constant, with the functions around it, innermost first. -/
  | text (around : List NodeId) (text : String)
  | global (owned : Variable)

def Origin.function? : Origin → Option Function
  | .function found => some found
  | .text .. | .global _ => none

def Origin.global? : Origin → Option Variable
  | .global owned => some owned
  | .function _ | .text .. => none

def Origin.around : Origin → List NodeId
  | .function found => found.around
  | .text around _ => around
  | .global _ => []

/-- Whether an origin is a string constant that stands in certain functions. -/
def Origin.isTextIn (around : List NodeId) : Origin → Bool
  | .text here _ => decide (here = around)
  | .function _ | .global _ => false

mutual

/-- What chunks are made for in an expression. -/
def Expr.origins (around : List NodeId) : Expr → List Origin
  | .literal _ (.str text) => [.text around text]
  | .literal _ (.int _) | .literal _ (.log _) | .name .. => []
  | .unary _ _ operand => operand.origins around
  | .binary _ _ left right => left.origins around ++ right.origins around
  | .call _ _ arguments => Expr.originsOfList around arguments
  | .block _ items => Expr.originsOfList around items
  | .ifThen _ condition thenBranch => condition.origins around ++ thenBranch.origins around
  | .ifThenElse _ condition thenBranch elseBranch =>
      condition.origins around ++ thenBranch.origins around ++ elseBranch.origins around
  | .whileLoop _ condition body => condition.origins around ++ body.origins around
  | .forLoop _ counter low high step body =>
      counter.origins around ++ low.origins around ++ high.origins around ++
        step.origins around ++ body.origins around
  | .whereIn _ definitions inner => Def.originsOfList around definitions ++ inner.origins around

def Expr.originsOfList (around : List NodeId) : List Expr → List Origin
  | [] => []
  | expression :: rest => expression.origins around ++ Expr.originsOfList around rest

/-- What chunks are made for in a definition.  A function comes after what is within it. -/
def Def.origins (around : List NodeId) : Def → List Origin
  | .function node name parameters body =>
      body.origins (node.id :: around) ++ [.function ⟨node, name, parameters, body, around⟩]
  | .var node name => if around = [] then [.global ⟨node, name⟩] else []
  | .typeAlias .. => []

def Def.originsOfList (around : List NodeId) : List Def → List Origin
  | [] => []
  | definition :: rest => definition.origins around ++ Def.originsOfList around rest

end

/-- What chunks are made for within a function. -/
def Function.origins (function : Function) : List Origin :=
  function.body.origins (function.node.id :: function.around)

/-- What chunks are made for in a program. -/
def Program.origins (program : Program) : List Origin := Def.originsOfList [] program.definitions

mutual

/-- The walk finds each function of an expression once. -/
theorem Expr.functions_origins : (expression : Expr) → (around : List NodeId) →
    ((expression.origins around).filterMap Origin.function?).Perm
      (expression.contents around).functions
  | .literal _ (.str _), _ | .literal _ (.int _), _ | .literal _ (.log _), _ | .name .., _ => by
      simp [Expr.origins, Expr.contents, Origin.function?]
  | .unary _ _ operand, around => operand.functions_origins around
  | .binary _ _ left right, around => by
      rw [Expr.origins, List.filterMap_append]
      exact (left.functions_origins around).append (right.functions_origins around)
  | .call _ _ arguments, around => Expr.functions_originsOfList arguments around
  | .block _ items, around => Expr.functions_originsOfList items around
  | .ifThen _ condition thenBranch, around => by
      rw [Expr.origins, List.filterMap_append]
      exact (condition.functions_origins around).append (thenBranch.functions_origins around)
  | .ifThenElse _ condition thenBranch elseBranch, around => by
      rw [Expr.origins, List.filterMap_append, List.filterMap_append]
      exact ((condition.functions_origins around).append
        (thenBranch.functions_origins around)).append (elseBranch.functions_origins around)
  | .whileLoop _ condition body, around => by
      rw [Expr.origins, List.filterMap_append]
      exact (condition.functions_origins around).append (body.functions_origins around)
  | .forLoop _ counter low high step body, around => by
      simp only [Expr.origins, List.filterMap_append]
      exact ((((counter.functions_origins around).append (low.functions_origins around)).append
        (high.functions_origins around)).append (step.functions_origins around)).append
        (body.functions_origins around)
  | .whereIn _ definitions inner, around => by
      rw [Expr.origins, List.filterMap_append]
      exact (Def.functions_originsOfList definitions around).append
        (inner.functions_origins around)

theorem Expr.functions_originsOfList : (expressions : List Expr) → (around : List NodeId) →
    ((Expr.originsOfList around expressions).filterMap Origin.function?).Perm
      (Expr.contentsOfList around expressions).functions
  | [], _ => .nil
  | expression :: rest, around => by
      rw [Expr.originsOfList, List.filterMap_append]
      exact (expression.functions_origins around).append (Expr.functions_originsOfList rest around)

theorem Def.functions_origins : (definition : Def) → (around : List NodeId) →
    ((definition.origins around).filterMap Origin.function?).Perm
      (definition.contents around).functions
  | .function node name parameters body, around => by
      have within := body.functions_origins (node.id :: around)
      rw [Def.origins, List.filterMap_append]
      exact (List.perm_append_singleton ⟨node, name, parameters, body, around⟩ _).trans
        (within.cons _)
  | .var .., around => by
      rw [Def.origins]
      split <;> simp [Def.contents, Origin.function?]
  | .typeAlias .., _ => .nil

theorem Def.functions_originsOfList : (definitions : List Def) → (around : List NodeId) →
    ((Def.originsOfList around definitions).filterMap Origin.function?).Perm
      (Def.contentsOfList around definitions).functions
  | [], _ => .nil
  | definition :: rest, around => by
      rw [Def.originsOfList, List.filterMap_append]
      exact (definition.functions_origins around).append (Def.functions_originsOfList rest around)

end

/-- The walk over a program finds each of its functions once. -/
theorem Program.functions_origins (program : Program) :
    (program.origins.filterMap Origin.function?).Perm program.functions :=
  Def.functions_originsOfList program.definitions []

section Suffix

variable {origin : Origin}

mutual

/-- What is found in an expression stands in the functions around the expression. -/
theorem Expr.suffix_of_mem_origins : (expression : Expr) → {around : List NodeId} →
    origin ∈ expression.origins around → around <:+ origin.around
  | .literal _ (.str text), around, member => by
      obtain rfl := List.mem_singleton.mp member
      exact List.suffix_refl around
  | .unary _ _ operand, _, member => operand.suffix_of_mem_origins member
  | .binary _ _ left right, _, member => (List.mem_append.mp member).elim
      left.suffix_of_mem_origins right.suffix_of_mem_origins
  | .call _ _ arguments, _, member => Expr.suffix_of_mem_originsOfList arguments member
  | .block _ items, _, member => Expr.suffix_of_mem_originsOfList items member
  | .ifThen _ condition thenBranch, _, member => (List.mem_append.mp member).elim
      condition.suffix_of_mem_origins thenBranch.suffix_of_mem_origins
  | .ifThenElse _ condition thenBranch elseBranch, _, member => by
      rcases List.mem_append.mp member with member | isElse
      · rcases List.mem_append.mp member with isCondition | isThen
        · exact condition.suffix_of_mem_origins isCondition
        · exact thenBranch.suffix_of_mem_origins isThen
      · exact elseBranch.suffix_of_mem_origins isElse
  | .whileLoop _ condition body, _, member => (List.mem_append.mp member).elim
      condition.suffix_of_mem_origins body.suffix_of_mem_origins
  | .forLoop _ counter low high step body, _, member => by
      simp only [Expr.origins, List.mem_append] at member
      rcases member with (((isCounter | isLow) | isHigh) | isStep) | isBody
      · exact counter.suffix_of_mem_origins isCounter
      · exact low.suffix_of_mem_origins isLow
      · exact high.suffix_of_mem_origins isHigh
      · exact step.suffix_of_mem_origins isStep
      · exact body.suffix_of_mem_origins isBody
  | .whereIn _ definitions inner, _, member => (List.mem_append.mp member).elim
      (Def.suffix_of_mem_originsOfList definitions) inner.suffix_of_mem_origins

theorem Expr.suffix_of_mem_originsOfList : (expressions : List Expr) → {around : List NodeId} →
    origin ∈ Expr.originsOfList around expressions → around <:+ origin.around
  | expression :: rest, _, member => (List.mem_append.mp member).elim
      expression.suffix_of_mem_origins (Expr.suffix_of_mem_originsOfList rest)

theorem Def.suffix_of_mem_origins : (definition : Def) → {around : List NodeId} →
    origin ∈ definition.origins around → around <:+ origin.around
  | .function node _ _ body, around, member => by
      rcases List.mem_append.mp member with isInner | isOuter
      · exact (List.suffix_cons node.id around).trans (body.suffix_of_mem_origins isInner)
      · obtain rfl := List.mem_singleton.mp isOuter
        exact List.suffix_refl around
  | .var .., around, member => by
      rw [Def.origins] at member
      split at member
      · next outside =>
          rw [outside]
          exact List.nil_suffix
      · cases member

theorem Def.suffix_of_mem_originsOfList : (definitions : List Def) → {around : List NodeId} →
    origin ∈ Def.originsOfList around definitions → around <:+ origin.around
  | definition :: rest, _, member => (List.mem_append.mp member).elim
      definition.suffix_of_mem_origins (Def.suffix_of_mem_originsOfList rest)

end

/-- What is found within a function stands in it. -/
theorem Function.suffix_of_mem_origins {function : Function}
    (member : origin ∈ function.origins) :
    (function.node.id :: function.around) <:+ origin.around :=
  function.body.suffix_of_mem_origins member

end Suffix

/-- The walk over a program finds its global variables in their order. -/
theorem Program.globals_origins (program : Program) :
    program.origins.filterMap Origin.global? = program.globals := by
  have within (function : Function) : function.origins.filterMap Origin.global? = [] := by
    rw [List.filterMap_eq_nil_iff]
    rintro (_ | _ | _) member
    · rfl
    · rfl
    · cases List.suffix_nil.mp (Function.suffix_of_mem_origins member)
  have outermost (definition : Def) :
      (definition.origins []).filterMap Origin.global? = (definition.contents []).locals := by
    cases definition with
    | function node name parameters body =>
        rw [Def.origins, List.filterMap_append]
        exact congrArg (· ++ _) (within ⟨node, name, parameters, body, []⟩)
    | var | typeAlias => rfl
  unfold Program.origins Program.globals Program.contents
  induction program.definitions with
  | nil => rfl
  | cons definition rest ih =>
      rw [Def.originsOfList, Def.contentsOfList, List.filterMap_append, Contents.locals_append, ih,
        outermost]

end TreeBackend.Source
