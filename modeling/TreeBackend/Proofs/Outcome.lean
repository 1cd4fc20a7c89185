/-!
# Computations that fail or succeed

Layout, lowering and execution all run in a monad that carries a state and may
stop with an error.  These are the laws by which a successful computation is
taken apart into its steps, and put together from them.
-/

namespace TreeBackend.Outcome

variable {ε σ α β : Type}

/-- A sequence succeeds exactly if its first part does and the second part
does with what the first one leaves. -/
theorem bind_eq_ok {first : EStateM ε σ α} {next : α → EStateM ε σ β}
    {start finish : σ} {result : β} :
    (first >>= next) start = .ok result finish ↔
      ∃ value middle, first start = .ok value middle ∧
        next value middle = .ok result finish := by
  change EStateM.bind first next start = _ ↔ _
  unfold EStateM.bind
  cases outcome : first start with
  | error problem middle => simp
  | ok value middle =>
      constructor
      · intro succeeds
        exact ⟨value, middle, rfl, succeeds⟩
      · rintro ⟨_, _, same, succeeds⟩
        cases same
        exact succeeds

/-- A sequence fails either in its first part or, after that, in its second. -/
theorem bind_eq_error {first : EStateM ε σ α} {next : α → EStateM ε σ β}
    {start finish : σ} {problem : ε} :
    (first >>= next) start = .error problem finish ↔
      first start = .error problem finish ∨
        ∃ value middle, first start = .ok value middle ∧
          next value middle = .error problem finish := by
  change EStateM.bind first next start = _ ↔ _
  unfold EStateM.bind
  cases outcome : first start with
  | error problem middle => simp
  | ok value middle =>
      constructor
      · intro fails
        exact .inr ⟨value, middle, rfl, fails⟩
      · rintro (impossible | ⟨_, _, same, fails⟩)
        · cases impossible
        · cases same
          exact fails

/-- Behind a first part that succeeds, a sequence is its second part. -/
theorem bind_of_ok {first : EStateM ε σ α} {next : α → EStateM ε σ β} {start middle : σ}
    {value : α} (succeeds : first start = .ok value middle) :
    (first >>= next) start = next value middle := by
  change EStateM.bind first next start = _
  unfold EStateM.bind
  rw [succeeds]

theorem pure_eq_ok {value result : α} {start finish : σ} :
    (pure value : EStateM ε σ α) start = .ok result finish ↔
      result = value ∧ finish = start := by
  change EStateM.Result.ok value start = _ ↔ _
  simp [eq_comm]

theorem pure_ne_error {value : α} {start finish : σ} {problem : ε} :
    (pure value : EStateM ε σ α) start ≠ .error problem finish := by
  change EStateM.Result.ok value start ≠ _
  simp

theorem throw_ne_ok {problem : ε} {start finish : σ} {result : α} :
    (throw problem : EStateM ε σ α) start ≠ .ok result finish := by
  change EStateM.Result.error problem start ≠ _
  simp

theorem get_eq_ok {start finish result : σ} :
    (get : EStateM ε σ σ) start = .ok result finish ↔ result = start ∧ finish = start := by
  change EStateM.Result.ok start start = _ ↔ _
  simp [eq_comm]

theorem modify_eq_ok {update : σ → σ} {start finish : σ} {result : PUnit} :
    (modify update : EStateM ε σ PUnit) start = .ok result finish ↔
      finish = update start := by
  change EStateM.Result.ok PUnit.unit (update start) = _ ↔ _
  simp [eq_comm]

/-- The state that a computation leaves, whether it succeeds or not. -/
def state : EStateM.Result ε σ α → σ
  | .ok _ final => final
  | .error _ final => final

/-- The result of a computation that succeeds, with what it leaves. -/
def ok? : EStateM.Result ε σ α → Option (α × σ)
  | .ok value final => some (value, final)
  | .error .. => none

theorem ok?_eq_some_iff {result : EStateM.Result ε σ α} {value : α} {final : σ} :
    ok? result = some (value, final) ↔ result = .ok value final := by
  cases result <;> simp [ok?]

end TreeBackend.Outcome

theorem TreeBackend.toOption_eq_some_iff {ε α : Type} {result : Except ε α} {value : α} :
    result.toOption = some value ↔ result = .ok value := by
  cases result <;> simp [Except.toOption]
