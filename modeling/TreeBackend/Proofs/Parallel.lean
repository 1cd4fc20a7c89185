/-!
# Two computations side by side

A computation is compared with another one that starts in a related state.  Both
succeed with the same value and leave related states, or both fail.
-/

namespace TreeBackend.Outcome

variable {ε σ α β : Type}

/-- Both outcomes are successes with the same value, or both are failures. -/
inductive Matches (errors : ε → ε → Prop) (states : σ → σ → Prop) :
    EStateM.Result ε σ α → EStateM.Result ε σ α → Prop where
  | ok {value : α} {first second : σ} :
      states first second → Matches errors states (.ok value first) (.ok value second)
  | error {problem other : ε} {first second : σ} :
      errors problem other → Matches errors states (.error problem first) (.error other second)

/-- From related states two computations have matching outcomes. -/
def Parallel (errors : ε → ε → Prop) (before after : σ → σ → Prop)
    (left right : EStateM ε σ α) : Prop :=
  ∀ first second, before first second → Matches errors after (left first) (right second)

namespace Parallel

variable {errors : ε → ε → Prop} {before middle after : σ → σ → Prop}

theorem pure (value : α) :
    Parallel errors before before (pure value : EStateM ε σ α) (Pure.pure value) :=
  fun _ _ related => .ok related

theorem throw {problem other : ε} (related : errors problem other) :
    Parallel errors before after (throw problem : EStateM ε σ α) (throw other) :=
  fun _ _ _ => .error related

theorem outcome {left right : EStateM ε σ α} (parallel : Parallel errors before after left right)
    (first second : σ) (related : before first second) :
    (∃ value final final', left first = .ok value final ∧ right second = .ok value final' ∧
        after final final') ∨
      ∃ problem other final final', left first = .error problem final ∧
        right second = .error other final' ∧ errors problem other := by
  have matched := parallel first second related
  cases leftDone : left first <;> cases rightDone : right second <;>
    rw [leftDone, rightDone] at matched
  case ok.ok =>
    cases matched with
    | ok related => exact .inl ⟨_, _, _, rfl, rfl, related⟩
  case error.error =>
    cases matched with
    | error related => exact .inr ⟨_, _, _, _, rfl, rfl, related⟩
  all_goals cases matched

theorem bind {left right : EStateM ε σ α} {next other : α → EStateM ε σ β}
    (first : Parallel errors before middle left right)
    (second : ∀ value, Parallel errors middle after (next value) (other value)) :
    Parallel errors before after (left >>= next) (right >>= other) := by
  intro start start' related
  change Matches errors after (EStateM.bind left next start) (EStateM.bind right other start')
  unfold EStateM.bind
  rcases first.outcome start start' related with
    ⟨value, middle, middle', done, done', related⟩ |
      ⟨problem, other, _, _, failed, failed', related⟩
  · simp only [done, done']
    exact second value middle middle' related
  · simp only [failed, failed']
    exact .error related

theorem andThen {left right : EStateM ε σ Unit} {next other : EStateM ε σ β}
    (first : Parallel errors before middle left right)
    (second : Parallel errors middle after next other) :
    Parallel errors before after (do left; next) (do right; other) :=
  first.bind fun _ => second

end Parallel

end TreeBackend.Outcome
