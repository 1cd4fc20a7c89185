import TreeBackend.Lowering.Program
import TreeBackend.Proofs.Frame.Renaming

/-!
# Lowering a renamed program

With the tables of the renamed program, its lowering makes the same code.  Lowering looks up
numbers, and it looks at one name, that in a call, to see whether it is that of a builtin.
-/

namespace TreeBackend

open Source Outcome

/-- Tables to look up other numbers in. -/
def LoweringContext.rename (change : Renaming) (context : LoweringContext) : LoweringContext where
  resolution := context.resolution.rename change
  frames := context.frames.rename change

theorem LoweringContext.frame?_rename {change : Renaming}
    (injective : Function.Injective change.id) (context : LoweringContext) (definition : NodeId) :
    (context.rename change).frames.frame? (change.id definition) =
      context.frames.frame? definition :=
  context.frames.frame?_rename injective definition

theorem LoweringContext.storage?_rename {change : Renaming}
    (injective : Function.Injective change.id) (context : LoweringContext) (definition : NodeId) :
    (context.rename change).frames.storage? (change.id definition) =
      context.frames.storage? definition :=
  context.frames.storage?_rename injective definition

namespace Lowering

/-- Two parts of lowering make the same, or both give up. -/
abbrev Copies {α : Type} (change : Renaming) (part copy : Lowering α) : Prop :=
  Parallel change.SameErrors Eq Eq part copy

section Steps

variable {change : Renaming}

theorem copies_self {α : Type} (part : Lowering α) : Copies change part part := by
  rintro state _ rfl
  cases part state with
  | ok value final => exact .ok rfl
  | error problem final => exact .error fun _ => rfl

theorem copies_fail {α : Type} {cause other : Cause} (span : Span)
    (same : change.KeepsNames → cause = other) :
    Copies change (fail cause span : Lowering α) (fail other span) :=
  .throw fun keeps => by rw [same keeps]

theorem copies_require {α : Type} {cause other : Cause} (span : Span) (found : Option α)
    (same : change.KeepsNames → cause = other) :
    Copies change (require cause span found) (require other span found) := by
  cases found with
  | none => exact copies_fail span same
  | some value => exact .pure value

/-- What is looked up in a renamed table is renamed itself. -/
theorem copies_bind_require {α β γ : Type} {cause other : Cause} (span : Span) {found : Option α}
    {copied : Option β} {value : α → β} {next : α → Lowering γ} {nextCopy : β → Lowering γ}
    (copy : copied = found.map value) (same : change.KeepsNames → cause = other)
    (following : ∀ result, Copies change (next result) (nextCopy (value result))) :
    Copies change (require cause span found >>= next) (require other span copied >>= nextCopy) := by
  subst copy
  cases found with
  | none => exact fun _ _ related => .error fun keeps => by rw [same keeps]
  | some result => exact following result

theorem copies_asExpr (part : String) (expression : Source.Expr) (lowered : Lowered) :
    Copies change (asExpr part expression lowered)
      (asExpr part (expression.rename change) lowered) := by
  cases lowered with
  | expr value => exact .pure value
  | stmt statement =>
      simp only [asExpr, Expr.span_rename]
      exact copies_self _

theorem copies_checkCounter (counter : Source.Expr) :
    Copies change (checkCounter counter) (checkCounter (counter.rename change)) := by
  cases counter <;> exact copies_self _

theorem copies_ofItems (node : Node) (items : List Source.Expr) (lowered : List Lowered) :
    Copies change (ofItems node items lowered)
      (ofItems (node.rename change) (Expr.renameAll change items) lowered) := by
  unfold ofItems
  rw [Expr.getLast?_renameAll, Node.span_rename]
  exact copies_self _

variable (injective : Function.Injective change.id) {context : LoweringContext} {level : Nat}

include injective

theorem copies_ofName (node : Node) (name : String) :
    Copies change (ofName context level node name)
      (ofName (context.rename change) level (node.rename change) (change.name name)) := by
  refine copies_bind_require node.span (Resolution.definitionOf?_rename injective _ _)
    (fun keeps => by rw [keeps]) fun definition => ?_
  rw [LoweringContext.storage?_rename injective]
  exact (copies_require node.span _ fun keeps => by rw [keeps]).bind fun storage =>
    copies_require node.span _ fun keeps => by rw [keeps]

theorem copies_ofBinary (node : Node) (operator : BinaryOperator) (left right : IR.Expr) :
    Copies change (ofBinary context node operator left right)
      (ofBinary (context.rename change) (node.rename change) operator left right) := by
  cases operator with
  | compute | assign => exact copies_self _
  | index =>
      simp only [ofBinary, LoweringContext.rename, Node.id_rename, Node.span_rename,
        Resolution.typeOf?_rename injective]
      exact copies_self _

omit injective in
/-- A call is to the same builtin, or to the function of the same number. -/
theorem copies_findCallee (faithful : change.Faithful) (node : Node) (name : String) :
    Copies change (findCallee context node name)
      (findCallee (context.rename change) (node.rename change) (change.callName name)) := by
  unfold findCallee
  rw [Renaming.ofName?_callName faithful]
  cases Builtin.ofName? name with
  | some builtin => exact copies_self _
  | none =>
      refine copies_bind_require node.span (Resolution.definitionOf?_rename faithful.injective _ _)
        (fun keeps => by rw [Renaming.callName_eq keeps]) fun definition => ?_
      rw [LoweringContext.frame?_rename faithful.injective]
      exact (copies_require node.span _ fun keeps => by
        rw [Renaming.callName_eq keeps]).bind fun frame => copies_self _

theorem copies_ofVariable (node : Node) {name other : String}
    (kept : change.KeepsNames → other = name) :
    Copies change (ofVariable context node name)
      (ofVariable (context.rename change) (node.rename change) other) := by
  unfold ofVariable
  rw [Node.id_rename, LoweringContext.storage?_rename injective]
  exact (copies_require node.span _ fun keeps => by rw [kept keeps]).bind fun storage =>
    copies_self _

theorem copies_finishFunction (node : Node) {name other : String}
    (kept : change.KeepsNames → other = name) (result : IR.Expr) :
    Copies change (finishFunction context node name result)
      (finishFunction (context.rename change) (node.rename change) other result) := by
  unfold finishFunction
  rw [Node.id_rename, LoweringContext.frame?_rename injective]
  exact (copies_require node.span _ fun keeps => by rw [kept keeps]).bind fun frame =>
    copies_self _

end Steps

section Trees

variable {change : Renaming} {context : LoweringContext}

mutual

theorem copies_ofExpr (faithful : change.Faithful) {level : Nat} : (expression : Source.Expr) →
    Copies change (ofExpr context level expression)
      (ofExpr (context.rename change) level (expression.rename change))
  | .literal .. => copies_self _
  | .name node name => (copies_ofName faithful.injective node name).bind fun _ => copies_self _
  | .unary _ _ operand =>
      (copies_ofExpr faithful operand).bind fun lowered =>
        (copies_asExpr "unary operand" operand lowered).bind fun _ => copies_self _
  | .binary node operator left right =>
      (copies_ofExpr faithful left).bind fun lowered =>
        (copies_asExpr "left operand" left lowered).bind fun leftValue =>
          (copies_ofExpr faithful right).bind fun lowered =>
            (copies_asExpr "right operand" right lowered).bind fun rightValue =>
              (copies_ofBinary faithful.injective node operator leftValue rightValue).bind fun _ =>
                copies_self _
  | .call node name arguments =>
      (copies_findCallee faithful node name).bind fun _ =>
        (copies_ofArguments faithful arguments).bind fun _ => copies_self _
  | .block node items =>
      (copies_ofExprs faithful items).bind fun lowered =>
        (copies_ofItems node items lowered).bind fun _ => copies_self _
  | .ifThen _ condition thenBranch =>
      (copies_ofExpr faithful condition).bind fun lowered =>
        (copies_asExpr "if condition" condition lowered).bind fun _ =>
          (copies_ofExpr faithful thenBranch).bind fun _ => copies_self _
  | .ifThenElse _ condition thenBranch elseBranch =>
      (copies_ofExpr faithful condition).bind fun lowered =>
        (copies_asExpr "if condition" condition lowered).bind fun _ =>
          (copies_ofExpr faithful thenBranch).bind fun _ =>
            (copies_ofExpr faithful elseBranch).bind fun _ => copies_self _
  | .whileLoop _ condition body =>
      (copies_ofExpr faithful condition).bind fun lowered =>
        (copies_asExpr "while condition" condition lowered).bind fun _ =>
          (copies_ofExpr faithful body).bind fun _ => copies_self _
  | .forLoop _ counter low high step body =>
      (copies_checkCounter counter).bind fun _ =>
        (copies_ofExpr faithful counter).bind fun lowered =>
          (copies_asExpr "for counter" counter lowered).bind fun _ =>
            (copies_ofExpr faithful low).bind fun lowered =>
              (copies_asExpr "for lower bound" low lowered).bind fun _ =>
                (copies_ofExpr faithful high).bind fun lowered =>
                  (copies_asExpr "for upper bound" high lowered).bind fun _ =>
                    (copies_ofExpr faithful step).bind fun lowered =>
                      (copies_asExpr "for step" step lowered).bind fun _ =>
                        (copies_ofExpr faithful body).bind fun _ => copies_self _
  | .whereIn _ definitions inner =>
      (copies_ofDefs faithful definitions).bind fun _ =>
        (copies_ofExpr faithful inner).bind fun lowered =>
          (copies_asExpr "where expression" inner lowered).bind fun _ => copies_self _

theorem copies_ofExprs (faithful : change.Faithful) {level : Nat} :
    (expressions : List Source.Expr) →
    Copies change (ofExprs context level expressions)
      (ofExprs (context.rename change) level (Expr.renameAll change expressions))
  | [] => copies_self _
  | expression :: rest =>
      (copies_ofExpr faithful expression).bind fun _ =>
        (copies_ofExprs faithful rest).bind fun _ => copies_self _

theorem copies_ofArguments (faithful : change.Faithful) {level : Nat} :
    (expressions : List Source.Expr) →
    Copies change (ofArguments context level expressions)
      (ofArguments (context.rename change) level (Expr.renameAll change expressions))
  | [] => copies_self _
  | argument :: rest =>
      (copies_ofExpr faithful argument).bind fun lowered =>
        (copies_asExpr "call argument" argument lowered).bind fun _ =>
          (copies_ofArguments faithful rest).bind fun _ => copies_self _

theorem copies_ofDef (faithful : change.Faithful) {level : Nat} : (definition : Def) →
    Copies change (ofDef context level definition)
      (ofDef (context.rename change) level (definition.rename change))
  | .function node name _ body =>
      (copies_ofExpr faithful body).bind fun lowered =>
        (copies_asExpr "function body" body lowered).bind fun result =>
          copies_finishFunction faithful.injective node (fun keeps => keeps name) result
  | .var node name => copies_ofVariable faithful.injective node fun keeps => keeps name
  | .typeAlias .. => copies_self _

theorem copies_ofDefs (faithful : change.Faithful) {level : Nat} : (definitions : List Def) →
    Copies change (ofDefs context level definitions)
      (ofDefs (context.rename change) level (Def.renameAll change definitions))
  | [] => copies_self _
  | definition :: rest =>
      (copies_ofDef faithful definition).bind fun _ => copies_ofDefs faithful rest

end

variable (faithful : change.Faithful)

include faithful

theorem copies_outermost (definition : Def) :
    Copies change (ofDef context 0 definition)
      (ofDef (context.rename change) 0 (definition.renameOutermost change)) := by
  cases definition with
  | function node name parameters body =>
      exact (copies_ofExpr faithful body).bind fun lowered =>
        (copies_asExpr "function body" body lowered).bind fun result =>
          copies_finishFunction faithful.injective node (fun _ => rfl) result
  | var node name => exact copies_ofVariable faithful.injective node fun _ => rfl
  | typeAlias node name => exact copies_self _

theorem copies_program (context : LoweringContext) (definitions : List Def) :
    Copies change (ofDefs context 0 definitions)
      (ofDefs (context.rename change) 0 (definitions.map (·.renameOutermost change))) := by
  induction definitions with
  | nil => exact copies_self _
  | cons definition rest ih =>
      exact (copies_outermost faithful definition).bind fun _ => ih

end Trees

end Lowering

end TreeBackend
