import TreeBackend.Proofs.Lowering.Symbols

/-!
# The level as a register

Lowering passes the level of the function at hand down to the parts of its body.  A generator may
instead keep the level in a register, which it raises before it lowers the body of a function and
lowers again afterwards, even if the body cannot be lowered.  Here such a generator is shown to do
the same; in particular it always finds the level at which it was started.  So a generator can be
used again, whatever came out of its last use.
-/

namespace TreeBackend

open Source (Node Def)
open IR (Symbol)

/-- What a generator of intermediate code has: the level of the function whose body it lowers,
and what lowering draws from and has finished. -/
structure GeneratorState where
  level : Nat := 0
  lowering : LoweringState := {}

/-- A part of the work of a generator. -/
abbrev Generator (α : Type) := EStateM CompileError GeneratorState α

namespace Generator

variable {α β : Type}

def atLevel (part : Nat → Lowering α) : Generator α := fun state =>
  match part state.level state.lowering with
  | .ok value lowering => .ok value { state with lowering }
  | .error problem lowering => .error problem { state with lowering }

def lift (part : Lowering α) : Generator α := atLevel fun _ => part

def currentLevel : Generator Nat := fun state => .ok state.level state

/-- Work in the body of a function: the level is raised before it and lowered after it, also if
the work fails. -/
def inBody (work : Generator α) : Generator α := fun state =>
  match work { state with level := state.level + 1 } with
  | .ok value final => .ok value { final with level := final.level - 1 }
  | .error problem final => .error problem { final with level := final.level - 1 }

/-- The value of an expression that is used as the given part of another one. -/
def asExpr (part : String) (expression : Source.Expr) (lowered : Lowered) : Generator IR.Expr :=
  lift (Lowering.asExpr part expression lowered)

mutual

/-- Lowers an expression of the function whose level is in the register. -/
def ofExpr (context : LoweringContext) : Source.Expr → Generator Lowered
  | .literal _ value => do
      return .expr (← lift (Lowering.ofLiteral value))
  | .name node name => do
      let level ← currentLevel
      return .expr (← lift (Lowering.ofName context level node name))
  | .unary _ operator operand => do
      let value ← asExpr "unary operand" operand (← ofExpr context operand)
      return .expr (Lowering.unary operator value)
  | .binary node operator left right => do
      let leftValue ← asExpr "left operand" left (← ofExpr context left)
      let rightValue ← asExpr "right operand" right (← ofExpr context right)
      return .expr (← lift (Lowering.ofBinary context node operator leftValue rightValue))
  | .call node name arguments => do
      let callee ← lift (Lowering.findCallee context node name)
      let level ← currentLevel
      let values ← ofArguments context arguments
      return .expr (Lowering.call level callee values)
  | .block node items => do
      let lowered ← ofExprs context items
      return .expr (← lift (Lowering.ofItems node items lowered))
  | .ifThen _ condition thenBranch => do
      let test ← asExpr "if condition" condition (← ofExpr context condition)
      let thenCode ← ofExpr context thenBranch
      return .stmt (Lowering.ifThen (← lift Lowering.drawLabels) test thenCode.toStmt)
  | .ifThenElse _ condition thenBranch elseBranch => do
      let test ← asExpr "if condition" condition (← ofExpr context condition)
      let thenCode ← ofExpr context thenBranch
      let elseCode ← ofExpr context elseBranch
      return .stmt
        (Lowering.ifThenElse (← lift Lowering.drawLabels) test thenCode.toStmt elseCode.toStmt)
  | .whileLoop _ condition body => do
      let test ← asExpr "while condition" condition (← ofExpr context condition)
      let bodyCode ← ofExpr context body
      return .stmt (Lowering.whileLoop (← lift Lowering.drawLabels) test bodyCode.toStmt)
  | .forLoop _ counter low high step body => do
      lift (Lowering.checkCounter counter)
      let cell ← asExpr "for counter" counter (← ofExpr context counter)
      let lowValue ← asExpr "for lower bound" low (← ofExpr context low)
      let highValue ← asExpr "for upper bound" high (← ofExpr context high)
      let stepValue ← asExpr "for step" step (← ofExpr context step)
      let bodyCode ← ofExpr context body
      let labels ← lift Lowering.drawLabels
      let bound ← lift Lowering.drawTemp
      let stride ← lift Lowering.drawTemp
      return .stmt
        (Lowering.forLoop labels bound stride cell lowValue highValue stepValue bodyCode.toStmt)
  | .whereIn _ definitions inner => do
      ofDefs context definitions
      return .expr (← asExpr "where expression" inner (← ofExpr context inner))

def ofExprs (context : LoweringContext) : List Source.Expr → Generator (List Lowered)
  | [] => pure []
  | expression :: rest => do
      let lowered ← ofExpr context expression
      return lowered :: (← ofExprs context rest)

def ofArguments (context : LoweringContext) : List Source.Expr → Generator (List IR.Expr)
  | [] => pure []
  | argument :: rest => do
      let value ← asExpr "call argument" argument (← ofExpr context argument)
      return value :: (← ofArguments context rest)

/-- Lowers a definition. The body of a function lies one level further in. -/
def ofDef (context : LoweringContext) : Def → Generator Unit
  | .function node name _ body => do
      let lowered ← inBody (ofExpr context body)
      let result ← asExpr "function body" body lowered
      lift (Lowering.finishFunction context node name result)
  | .var node name => lift (Lowering.ofVariable context node name)
  | .typeAlias .. => pure ()

def ofDefs (context : LoweringContext) : List Def → Generator Unit
  | [] => pure ()
  | definition :: rest => do
      ofDef context definition
      ofDefs context rest

end

/-! ### The register does what passing the level down does -/

theorem atLevel_bind (part : Nat → Lowering α) (next : α → Nat → Lowering β) :
    (atLevel part >>= fun value => atLevel (next value)) =
      atLevel fun level => part level >>= fun value => next value level := by
  funext state
  cases outcome : part state.level state.lowering <;>
    simp [bind, EStateM.bind, atLevel, outcome]

theorem pure_eq_atLevel (value : α) :
    (pure value : Generator α) = atLevel fun _ => pure value := rfl

theorem currentLevel_eq_atLevel : currentLevel = atLevel fun level => pure level := rfl

/-- Within a body the level is one higher, and afterwards it is what it was. -/
theorem inBody_atLevel (part : Nat → Lowering α) :
    inBody (atLevel part) = atLevel fun level => part (level + 1) := by
  funext state
  simp only [inBody, atLevel]
  cases part (state.level + 1) state.lowering <;> rfl

variable {context : LoweringContext}

mutual

theorem ofExpr_eq_atLevel : (expression : Source.Expr) →
    ofExpr context expression = atLevel fun level => Lowering.ofExpr context level expression
  | .literal _ value => by
      simp only [ofExpr, Lowering.ofExpr, lift, pure_eq_atLevel, atLevel_bind]
  | .name node name => by
      simp only [ofExpr, Lowering.ofExpr, lift, currentLevel_eq_atLevel, pure_eq_atLevel,
        atLevel_bind, pure_bind]
  | .unary _ operator operand => by
      simp only [ofExpr, Lowering.ofExpr, ofExpr_eq_atLevel operand, asExpr, lift, pure_eq_atLevel,
        atLevel_bind]
  | .binary node operator left right => by
      simp only [ofExpr, Lowering.ofExpr, ofExpr_eq_atLevel left, ofExpr_eq_atLevel right, asExpr,
        lift, pure_eq_atLevel, atLevel_bind]
  | .call node name arguments => by
      simp only [ofExpr, Lowering.ofExpr, ofArguments_eq_atLevel arguments, lift,
        currentLevel_eq_atLevel, pure_eq_atLevel, atLevel_bind, pure_bind]
  | .block node items => by
      simp only [ofExpr, Lowering.ofExpr, ofExprs_eq_atLevel items, lift, pure_eq_atLevel,
        atLevel_bind]
  | .ifThen _ condition thenBranch => by
      simp only [ofExpr, Lowering.ofExpr, ofExpr_eq_atLevel condition,
        ofExpr_eq_atLevel thenBranch, asExpr, lift, pure_eq_atLevel, atLevel_bind]
  | .ifThenElse _ condition thenBranch elseBranch => by
      simp only [ofExpr, Lowering.ofExpr, ofExpr_eq_atLevel condition,
        ofExpr_eq_atLevel thenBranch, ofExpr_eq_atLevel elseBranch, asExpr, lift, pure_eq_atLevel,
        atLevel_bind]
  | .whileLoop _ condition body => by
      simp only [ofExpr, Lowering.ofExpr, ofExpr_eq_atLevel condition, ofExpr_eq_atLevel body,
        asExpr, lift, pure_eq_atLevel, atLevel_bind]
  | .forLoop _ counter low high step body => by
      simp only [ofExpr, Lowering.ofExpr, ofExpr_eq_atLevel counter, ofExpr_eq_atLevel low,
        ofExpr_eq_atLevel high, ofExpr_eq_atLevel step, ofExpr_eq_atLevel body, asExpr, lift,
        pure_eq_atLevel, atLevel_bind]
  | .whereIn _ definitions inner => by
      simp only [ofExpr, Lowering.ofExpr, ofDefs_eq_atLevel definitions, ofExpr_eq_atLevel inner,
        asExpr, lift, pure_eq_atLevel, atLevel_bind]

theorem ofExprs_eq_atLevel : (expressions : List Source.Expr) →
    ofExprs context expressions = atLevel fun level => Lowering.ofExprs context level expressions
  | [] => rfl
  | expression :: rest => by
      simp only [ofExprs, Lowering.ofExprs, ofExpr_eq_atLevel expression, ofExprs_eq_atLevel rest,
        pure_eq_atLevel, atLevel_bind]

theorem ofArguments_eq_atLevel : (arguments : List Source.Expr) →
    ofArguments context arguments =
      atLevel fun level => Lowering.ofArguments context level arguments
  | [] => rfl
  | argument :: rest => by
      simp only [ofArguments, Lowering.ofArguments, ofExpr_eq_atLevel argument,
        ofArguments_eq_atLevel rest, asExpr, lift, pure_eq_atLevel, atLevel_bind]

theorem ofDef_eq_atLevel : (definition : Def) →
    ofDef context definition = atLevel fun level => Lowering.ofDef context level definition
  | .function node name _ body => by
      simp only [ofDef, Lowering.ofDef, ofExpr_eq_atLevel body, inBody_atLevel, asExpr, lift,
        atLevel_bind]
  | .var node name => rfl
  | .typeAlias .. => rfl

theorem ofDefs_eq_atLevel : (definitions : List Def) →
    ofDefs context definitions = atLevel fun level => Lowering.ofDefs context level definitions
  | [] => rfl
  | definition :: rest => by
      simp only [ofDefs, Lowering.ofDefs, ofDef_eq_atLevel definition, ofDefs_eq_atLevel rest,
        atLevel_bind]

end

/-- Whether a generator lowers an expression or gives up at any depth, it does what lowering at
the level in its register does.  It finds this level again, keeps the chunks finished before, and
does not take its supplies back; and all numbered labels and temporaries in the code, or in chunks
that it has finished since, were drawn by it, except for labels of the frame table. -/
theorem ofExpr_leaves_usable (context : LoweringContext) (expression : Source.Expr)
    (state : GeneratorState) :
    let final := Outcome.state (ofExpr context expression state)
    (ofExpr context expression state =
      match Lowering.ofExpr context state.level expression state.lowering with
      | .ok lowered lowering => .ok lowered ⟨state.level, lowering⟩
      | .error problem lowering => .error problem ⟨state.level, lowering⟩) ∧
    final.level = state.level ∧
    state.lowering.labels.issued ≤ final.lowering.labels.issued ∧
    state.lowering.temps.issued ≤ final.lowering.temps.issued ∧
    (∃ pushed, final.lowering.chunks = state.lowering.chunks ++ pushed ∧
      ∀ chunk ∈ pushed, ∀ symbol ∈ chunk.symbols,
        state.lowering.HasDrawn final.lowering symbol ∨ context.frames.Lists symbol) ∧
    ∀ lowered, ofExpr context expression state = .ok lowered final →
      ∀ symbol ∈ lowered.symbols,
        state.lowering.HasDrawn final.lowering symbol ∨ context.frames.Lists symbol := by
  have draws : Lowering.DrawsItsOwn context.frames []
      (Lowering.ofExpr context state.level expression) Lowered.symbols :=
    Lowering.ofExpr_drawsItsOwn expression state.level []
  have reaches := draws state.lowering state.lowering (.refl _) fun symbol member => by
    simp at member
  cases outcome : Lowering.ofExpr context state.level expression state.lowering with
  | ok lowered lowering =>
      have generated : ofExpr context expression state = .ok lowered ⟨state.level, lowering⟩ := by
        simp [ofExpr_eq_atLevel, atLevel, outcome]
      rw [outcome] at reaches
      obtain ⟨precedes, extended, accounts⟩ := reaches
      obtain ⟨pushed, isPushed⟩ := precedes.chunks
      rw [generated]
      refine ⟨rfl, rfl, precedes.labels, precedes.temps,
        ⟨pushed, isPushed.symm, extended.pushed pushed isPushed.symm⟩, fun other same => ?_⟩
      obtain rfl := (EStateM.Result.ok.inj same).1
      exact accounts
  | error problem lowering =>
      have generated : ofExpr context expression state = .error problem ⟨state.level, lowering⟩ := by
        simp [ofExpr_eq_atLevel, atLevel, outcome]
      rw [outcome] at reaches
      obtain ⟨precedes, extended⟩ := reaches
      obtain ⟨pushed, isPushed⟩ := precedes.chunks
      rw [generated]
      exact ⟨rfl, rfl, precedes.labels, precedes.temps,
        ⟨pushed, isPushed.symm, extended.pushed pushed isPushed.symm⟩, fun _ same => by cases same⟩

end Generator

end TreeBackend
