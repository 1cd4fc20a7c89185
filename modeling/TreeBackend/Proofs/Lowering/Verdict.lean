import TreeBackend.Proofs.Frame.Program
import TreeBackend.Proofs.Lowering.Flattenable
import TreeBackend.Proofs.Source.Parts

/-!
# The verdict of lowering

Lowering either finishes, and then says with the code whether it can be flattened,
or it gives up at an expression that is not well-formed.  Both outcomes are
followed through every construct at once, for what succeeds in one part decides
whether the next one is tried.
-/

namespace TreeBackend.Lowering

open Source Outcome
open IR (Chunk TempSupply)

/-- A part of lowering either fails with an error of one kind, or returns a result
with new chunks of another kind. -/
def Decides {α : Type} (part : Lowering α) (fails : CompileError → Prop)
    (returns : α → List Chunk → Prop) : Prop :=
  ∀ state, (∃ result final new, part state = .ok result final ∧
      final.chunks = state.chunks ++ new ∧ returns result new) ∨
    ∃ problem final, part state = .error problem final ∧ fails problem

namespace Decides

variable {α β : Type} {part : Lowering α} {next : α → Lowering β}
  {fails : CompileError → Prop} {returns : α → List Chunk → Prop}

theorem pure {value : α} (holds : returns value []) : Decides (pure value) fails returns :=
  fun state => .inl ⟨value, state, [], rfl, (List.append_nil _).symm, holds⟩

theorem fail {cause : Cause} {span : Span} (holds : fails (.located cause span)) :
    Decides (Lowering.fail cause span) fails returns :=
  fun state => .inr ⟨_, state, rfl, holds⟩

theorem bind {returnsNext : β → List Chunk → Prop} (left : Decides part fails returns)
    (right : ∀ value new, returns value new →
      Decides (next value) fails fun result more => returnsNext result (new ++ more)) :
    Decides (part >>= next) fails returnsNext := by
  intro state
  rcases left state with ⟨value, middle, new, done, grown, holds⟩ | ⟨problem, final, failed, holds⟩
  · rcases right value new holds middle with
      ⟨result, final, more, nextDone, nextGrown, nextHolds⟩ | ⟨problem, final, failed, holds⟩
    · refine .inl ⟨result, final, new ++ more, bind_eq_ok.mpr ⟨_, _, done, nextDone⟩, ?_, nextHolds⟩
      rw [nextGrown, grown, List.append_assoc]
    · exact .inr ⟨problem, final, bind_eq_error.mpr (.inr ⟨_, _, done, failed⟩), holds⟩
  · exact .inr ⟨problem, final, bind_eq_error.mpr (.inl failed), holds⟩

theorem mono {failsAlso : CompileError → Prop} {returnsAlso : α → List Chunk → Prop}
    (decides : Decides part fails returns) (failing : ∀ problem, fails problem → failsAlso problem)
    (returning : ∀ result new, returns result new → returnsAlso result new) :
    Decides part failsAlso returnsAlso := by
  intro state
  rcases decides state with ⟨value, final, new, done, grown, holds⟩ | ⟨problem, final, failed, holds⟩
  · exact .inl ⟨value, final, new, done, grown, returning value new holds⟩
  · exact .inr ⟨problem, final, failed, failing problem holds⟩

theorem weaken {failsAlso : CompileError → Prop} (decides : Decides part fails returns)
    (failing : ∀ problem, fails problem → failsAlso problem) : Decides part failsAlso returns :=
  decides.mono failing fun _ _ => id

theorem require {cause : Cause} {span : Span} {found : Option α}
    (missing : found = none → fails (.located cause span))
    (present : ∀ value, found = some value → returns value []) :
    Decides (Lowering.require cause span found) fails returns := by
  cases found with
  | none => exact .fail (missing rfl)
  | some value => exact .pure (present value rfl)

theorem bind_require {cause : Cause} {span : Span} {found : Option α}
    {returnsNext : β → List Chunk → Prop} (missing : found = none → fails (.located cause span))
    (present : ∀ value, found = some value → Decides (next value) fails returnsNext) :
    Decides (Lowering.require cause span found >>= next) fails returnsNext := by
  cases found with
  | none =>
      exact fun state => .inr ⟨_, state, bind_eq_error.mpr (.inl rfl), missing rfl⟩
  | some value => exact present value rfl

end Decides

/-- Three labels can always be drawn. -/
theorem decides_drawLabels {fails : CompileError → Prop} :
    Decides drawLabels fails fun _ new => new = [] :=
  fun _ => .inl ⟨_, _, [], rfl, (List.append_nil _).symm, rfl⟩

theorem decides_drawTemp {fails : CompileError → Prop} :
    Decides drawTemp fails fun _ new => new = [] :=
  fun _ => .inl ⟨_, _, [], rfl, (List.append_nil _).symm, rfl⟩

theorem decides_emit {fails : CompileError → Prop} (chunk : Chunk) :
    Decides (emit chunk) fails fun _ new => new = [chunk] :=
  fun _ => .inl ⟨_, _, [chunk], rfl, rfl, rfl⟩

/-- Where errors come from: a call is never outside of all functions, a frame is
missing only for a call, and storage only for a reference. -/
def Explained (parts : List Source.Expr) : CompileError → Prop
  | .located (.callOutsideFunction _) _ => False
  | .located (.missingFrame name) span =>
      ∃ node arguments, .call node name arguments ∈ parts ∧ node.span = span
  | .located (.missingAccess name) span => ∃ node, .name node name ∈ parts ∧ node.span = span
  | _ => True

theorem Explained.mono {parts others : List Source.Expr} {problem : CompileError}
    (explained : Explained parts problem) (includes : parts ⊆ others) :
    Explained others problem := by
  unfold Explained at explained ⊢
  split at explained
  · exact explained
  · obtain ⟨node, arguments, member, same⟩ := explained
    exact ⟨node, arguments, includes member, same⟩
  · obtain ⟨node, member, same⟩ := explained
    exact ⟨node, includes member, same⟩
  · trivial

def AreFlattenable (chunks : List Chunk) : Prop :=
  ∀ chunk ∈ chunks, Flattening.isFlattenable chunk = true

@[simp] theorem areFlattenable_nil : AreFlattenable [] := by simp [AreFlattenable]

@[simp] theorem areFlattenable_append {first second : List Chunk} :
    AreFlattenable (first ++ second) ↔ AreFlattenable first ∧ AreFlattenable second := by
  simp only [AreFlattenable, List.mem_append, or_imp, forall_and]

/-- An expression with a value has become an expression, which is a target exactly
if the expression is a place; any other one has become a statement. -/
def Matches (expression : Source.Expr) : Lowered → Prop
  | .expr value => expression.isValue = true ∧ value.isTarget = expression.isPlace
  | .stmt _ => expression.isValue = false

section Spec

variable (program : Program) (level : Nat)

def Rejects (expression : Source.Expr) (problem : CompileError) : Prop :=
  expression.isWellFormed program level = false ∧ Explained expression.parts problem

/-- What an expression has become can be flattened exactly if the expression is
well-formed. -/
def Accepts (expression : Source.Expr) (lowered : Lowered) (new : List Chunk) : Prop :=
  Matches expression lowered ∧
    (expression.isWellFormed program level = true ↔
      lowered.isFlattenable = true ∧ AreFlattenable new)

def AcceptsValue (expression : Source.Expr) (value : IR.Expr) (new : List Chunk) : Prop :=
  expression.isValue = true ∧ value.isTarget = expression.isPlace ∧
    (expression.isWellFormed program level = true ↔
      value.isFlattenable = true ∧ AreFlattenable new)

end Spec

end TreeBackend.Lowering
