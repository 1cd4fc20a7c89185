import TreeBackend.Machine.Execution
import TreeBackend.Proofs.Outcome

/-!
# More fuel

A run that is not broken off for want of fuel does the same with any larger amount of it.  This
is carried from calls to statements, and from the statements of all bodies back to calls.
-/

namespace TreeBackend.Machine

open Outcome
open IR (Expr Stmt)

/-- The first computation runs out of fuel, or the second one does the same. -/
def Prolongs {α : Type} (short long : Exec α) : Prop :=
  ∀ machine, (∃ final, short machine = .error .outOfFuel final) ∨ long machine = short machine

namespace Prolongs

variable {α β : Type} {short long : Exec α} {next further : α → Exec β}

theorem refl (part : Exec α) : Prolongs part part := fun _ => .inr rfl

theorem bind (first : Prolongs short long)
    (second : ∀ value, Prolongs (next value) (further value)) :
    Prolongs (short >>= next) (long >>= further) := by
  intro machine
  rcases first machine with ⟨final, starves⟩ | same
  · exact .inl ⟨final, bind_eq_error.mpr (.inl starves)⟩
  · change (∃ final, EStateM.bind short next machine = _) ∨
      EStateM.bind long further machine = EStateM.bind short next machine
    unfold EStateM.bind
    rw [same]
    cases short machine with
    | ok value middle => exact second value middle
    | error reason final => exact .inr rfl

/-- What does not end for want of fuel is kept. -/
theorem ok (prolongs : Prolongs short long) {machine final : Machine} {value : α}
    (succeeds : short machine = .ok value final) : long machine = .ok value final := by
  rcases prolongs machine with ⟨_, starves⟩ | same
  · cases succeeds.symm.trans starves
  · exact same.trans succeeds

/-- What is still broken off with more fuel was broken off before. -/
theorem starves (prolongs : Prolongs short long) {machine final : Machine}
    (fails : long machine = .error .outOfFuel final) :
    ∃ final, short machine = .error .outOfFuel final :=
  (prolongs machine).elim id fun same => ⟨final, same.symm.trans fails⟩

end Prolongs

def CallsProlong (call longer : Label → List Int → Exec Int) : Prop :=
  ∀ label arguments, Prolongs (call label arguments) (longer label arguments)

section Statements

variable {call longer : Label → List Int → Exec Int} {temps : Temps}

mutual

theorem eval_prolongs (calls : CallsProlong call longer) : (expression : Expr) →
    Prolongs (eval call temps expression) (eval longer temps expression)
  | .const _ | .name _ | .temp _ | .eseq .. => .refl _
  | .mem address => (eval_prolongs calls address).bind fun _ => .refl _
  | .binop _ left right =>
      (eval_prolongs calls left).bind fun _ => (eval_prolongs calls right).bind fun _ => .refl _
  | .call label arguments =>
      (evalAll_prolongs calls arguments).bind fun values => calls label values

theorem evalAll_prolongs (calls : CallsProlong call longer) : (expressions : List Expr) →
    Prolongs (evalAll call temps expressions) (evalAll longer temps expressions)
  | [] => .refl _
  | expression :: rest =>
      (eval_prolongs calls expression).bind fun _ =>
        (evalAll_prolongs calls rest).bind fun _ => .refl _

end

theorem execute_prolongs (calls : CallsProlong call longer) (statement : Stmt) :
    Prolongs (execute call temps statement) (execute longer temps statement) := by
  match statement with
  | .label _ | .jump _ | .seq _ => exact .refl _
  | .cjump condition _ _ => exact (eval_prolongs calls condition).bind fun _ => .refl _
  | .exp value => exact (eval_prolongs calls value).bind fun _ => .refl _
  | .move (.temp _) source => exact (eval_prolongs calls source).bind fun _ => .refl _
  | .move (.mem address) source =>
      exact (eval_prolongs calls address).bind fun _ =>
        (eval_prolongs calls source).bind fun _ => .refl _
  | .move (.const _) _ | .move (.name _) _ | .move (.binop ..) _ | .move (.call ..) _
  | .move (.eseq ..) _ => exact .refl _

end Statements

section Calls

variable {body longer : Array Stmt → Table Label Nat → Exec Unit}

/-- A call is prolonged if the bodies of all functions are. -/
theorem invoke_prolongs (bodies : ∀ statements jumps,
      Prolongs (body statements jumps) (longer statements jumps)) (routine : Routine) :
    Prolongs (invoke body routine) (invoke longer routine) :=
  (Prolongs.refl _).bind fun jumps => (bodies routine.statements jumps).bind fun _ => .refl _

theorem callLabel_prolongs (bodies : ∀ statements jumps,
      Prolongs (body statements jumps) (longer statements jumps)) :
    CallsProlong (callLabel body) (callLabel longer) := by
  intro label arguments
  have routines : Prolongs (callLabel.callRoutine body label arguments)
      (callLabel.callRoutine longer label arguments) := by
    refine (Prolongs.refl _).bind fun machine => ?_
    cases machine.routine? label with
    | none => exact .refl _
    | some routine =>
        exact (Prolongs.refl _).bind fun _ => (Prolongs.refl _).bind fun _ =>
          (invoke_prolongs bodies routine).bind fun _ => .refl _
  unfold callLabel
  split
  · split
    · exact .refl _
    · exact routines
  · exact routines

/-- The rest of a body does the same with more fuel. -/
theorem runFrom_prolongs {fuel more : Nat} (enough : fuel ≤ more) (statements : Array Stmt)
    (jumps : Table Label Nat) (position : Nat) (temps : Temps) :
    Prolongs (runFrom fuel statements jumps position temps)
      (runFrom more statements jumps position temps) := by
  induction fuel generalizing more statements jumps position temps with
  | zero => exact fun machine => .inl ⟨machine, rfl⟩
  | succ fuel ih =>
      obtain ⟨more, rfl⟩ := Nat.exists_eq_add_of_lt enough
      have enough : fuel ≤ fuel + more := Nat.le_add_right _ _
      unfold runFrom
      cases statements[position]? with
      | none => exact .refl _
      | some statement =>
          have calls : CallsProlong
              (callLabel fun statements jumps => runFrom fuel statements jumps 0 {})
              (callLabel fun statements jumps => runFrom (fuel + more) statements jumps 0 {}) :=
            callLabel_prolongs fun _ _ => ih enough _ _ _ _
          refine (execute_prolongs calls statement).bind fun next => ?_
          cases next.jump with
          | none => exact ih enough _ _ _ _
          | some label =>
              dsimp only
              cases jumps.get? label with
              | none => exact .refl _
              | some target => exact ih enough _ _ _ _

theorem interpret_prolongs {fuel more : Nat} (enough : fuel ≤ more) (entry : Label) :
    Prolongs (interpret fuel entry) (interpret more entry) := by
  refine (Prolongs.refl _).bind fun machine => ?_
  cases machine.routine? entry with
  | none => exact .refl _
  | some routine =>
      exact (Prolongs.refl _).bind fun _ => (Prolongs.refl _).bind fun _ =>
        (invoke_prolongs (fun _ _ => runFrom_prolongs enough _ _ _ _) routine).bind fun _ => .refl _

end Calls

end TreeBackend.Machine
