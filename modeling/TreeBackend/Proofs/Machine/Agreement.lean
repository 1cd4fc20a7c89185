import TreeBackend.Proofs.IR.Events
import TreeBackend.Proofs.Machine.Harmless

/-!
# Computations that agree

Two computations agree on machines with certain functions if they do the same there,
whether they end with a result or in an error, and leave the functions alone.  Statements
agree if the calls in them do, and calls agree if the bodies of all functions do.
-/

namespace TreeBackend.Machine

open Outcome
open IR (Expr Stmt)

/-- Two computations do the same on each machine with certain functions, and leave such a
machine behind. -/
def Agree (routines : Array Routine) {α : Type} (left right : Exec α) (returns : α → Prop) : Prop :=
  ∀ machine : Machine, machine.routines = routines →
    (∃ result final, left machine = .ok result final ∧ right machine = .ok result final ∧
      final.routines = routines ∧ returns result) ∨
    ∃ reason final, left machine = .error reason final ∧ right machine = .error reason final ∧
      final.routines = routines

/-- Two computations agree, and nothing is said of their results. -/
abbrev Agrees (routines : Array Routine) {α : Type} (left right : Exec α) : Prop :=
  Agree routines left right fun _ => True

namespace Agree

variable {routines : Array Routine} {α β : Type} {left right : Exec α}
  {next other : α → Exec β} {returns : α → Prop} {returnsNext : β → Prop}

theorem eq (agree : Agree routines left right returns) {machine : Machine}
    (same : machine.routines = routines) : left machine = right machine := by
  rcases agree machine same with ⟨_, _, first, second, -⟩ | ⟨_, _, first, second, -⟩
  · rw [first, second]
  · rw [first, second]

theorem routines_eq (agree : Agree routines left right returns) {machine final : Machine}
    {result : α} (same : machine.routines = routines) (done : left machine = .ok result final) :
    final.routines = routines := by
  rcases agree machine same with ⟨_, _, first, -, kept, -⟩ | ⟨_, _, failed, -⟩
  · cases done.symm.trans first
    exact kept
  · cases done.symm.trans failed

theorem pure {value : α} (holds : returns value) :
    Agree routines (pure value) (pure value) returns :=
  fun machine same => .inl ⟨value, machine, rfl, rfl, same, holds⟩

theorem fails (reason : Interruption) :
    Agree routines (throw reason : Exec α) (throw reason) returns :=
  fun machine same => .inr ⟨reason, machine, rfl, rfl, same⟩

theorem get : Agree routines (get : Exec Machine) MonadState.get
    fun machine => machine.routines = routines :=
  fun machine same => .inl ⟨machine, machine, rfl, rfl, same, same⟩

theorem bind (first : Agree routines left right returns)
    (second : ∀ value, returns value → Agree routines (next value) (other value) returnsNext) :
    Agree routines (left >>= next) (right >>= other) returnsNext := by
  intro machine same
  rcases first machine same with
    ⟨value, middle, done, otherDone, same, holds⟩ | ⟨reason, final, failed, otherFailed, same⟩
  · rcases second value holds middle same with
      ⟨result, final, then_, otherThen, same, holds⟩ | ⟨reason, final, failed, otherFailed, same⟩
    · exact .inl ⟨result, final, bind_eq_ok.mpr ⟨_, _, done, then_⟩,
        bind_eq_ok.mpr ⟨_, _, otherDone, otherThen⟩, same, holds⟩
    · exact .inr ⟨reason, final, bind_eq_error.mpr (.inr ⟨_, _, done, failed⟩),
        bind_eq_error.mpr (.inr ⟨_, _, otherDone, otherFailed⟩), same⟩
  · exact .inr ⟨reason, final, bind_eq_error.mpr (.inl failed),
      bind_eq_error.mpr (.inl otherFailed), same⟩

/-- A step that leaves the functions of each machine alone agrees with itself. -/
theorem of_keeps {part : Exec α}
    (keeps : ∀ machine, (state (part machine)).routines = machine.routines) :
    Agrees routines part part := by
  intro machine same
  have kept := keeps machine
  cases outcome : part machine with
  | ok result final =>
      rw [outcome] at kept
      exact .inl ⟨result, final, rfl, rfl, kept.trans same, trivial⟩
  | error reason final =>
      rw [outcome] at kept
      exact .inr ⟨reason, final, rfl, rfl, kept.trans same⟩

end Agree

/-! ### What the machine does itself -/

section Primitives

variable {routines : Array Routine}

theorem agrees_loadInt (address : Int) : Agrees routines (loadInt address) (loadInt address) :=
  .of_keeps fun _ => by unfold loadInt; split <;> rfl

theorem agrees_storeInt (address value : Int) :
    Agrees routines (storeInt address value) (storeInt address value) :=
  .of_keeps fun _ => by unfold storeInt; split <;> rfl

theorem agrees_storeInts (address : Int) (values : List Int) :
    Agrees routines (storeInts address values) (storeInts address values) := by
  induction values generalizing address with
  | nil => exact .pure trivial
  | cons value rest ih => exact (agrees_storeInt address value).bind fun _ _ => ih _

theorem agrees_labelAddress (label : Label) :
    Agrees routines (labelAddress label) (labelAddress label) :=
  .of_keeps fun _ => by unfold labelAddress; split <;> rfl

theorem agrees_readTemp (temps : Temps) (temp : IR.Temp) :
    Agrees routines (readTemp temps temp) (readTemp temps temp) := by
  unfold readTemp
  split
  · exact .pure trivial
  · exact .fails _

theorem agrees_compute (operator : Operator) (left right : Int) :
    Agrees routines (compute operator left right) (compute operator left right) := by
  unfold compute
  split
  · exact .pure trivial
  · exact .fails _

theorem agrees_write (piece : String) : Agrees routines (write piece) (write piece) :=
  .of_keeps fun _ => by
    unfold write
    split
    · split <;> rfl
    · rfl

theorem agrees_printLine (line : String) : Agrees routines (printLine line) (printLine line) :=
  (agrees_write line).bind fun _ _ => agrees_write _

theorem agrees_loadText (address : Int) : Agrees routines (loadText address) (loadText address) :=
  .of_keeps fun _ => by unfold loadText; split <;> rfl

theorem agrees_drawInt (low high : Int) : Agrees routines (drawInt low high) (drawInt low high) :=
  .of_keeps fun _ => by
    unfold drawInt
    split
    · split <;> rfl
    · rfl

theorem agrees_reseed (seed : Int) : Agrees routines (reseed seed) (reseed seed) :=
  .of_keeps fun _ => rfl

theorem agrees_callBuiltin (builtin : Builtin) (arguments : List Int) :
    Agrees routines (callBuiltin builtin arguments) (callBuiltin builtin arguments) := by
  unfold callBuiltin
  split
  · exact (agrees_printLine _).bind fun _ _ => .pure trivial
  · exact (agrees_loadText _).bind fun _ _ => (agrees_printLine _).bind fun _ _ => .pure trivial
  · exact (agrees_printLine _).bind fun _ _ => .pure trivial
  · exact agrees_drawInt _ _
  · exact (agrees_reseed _).bind fun _ _ => .pure trivial
  · exact .fails _

theorem agree_enter (routine : Routine) : Agree routines (enter routine) (enter routine)
    fun jumps => routine.jumps? = some jumps := by
  rintro ⟨memory, there, random, output, framePointer, stackPointer⟩ same
  unfold enter
  cases flat : routine.jumps? with
  | none => exact .inr ⟨_, _, rfl, rfl, same⟩
  | some jumps =>
      dsimp only
      split
      · exact .inr ⟨_, _, rfl, rfl, same⟩
      · split
        · exact .inl ⟨jumps, _, rfl, rfl, same, rfl⟩
        · exact .inr ⟨_, _, rfl, rfl, same⟩

theorem agrees_leave (routine : Routine) : Agrees routines (leave routine) (leave routine) := by
  have moves : Agrees routines
      (modify fun machine : Machine => { machine with stackPointer := machine.framePointer })
      (modify fun machine : Machine => { machine with stackPointer := machine.framePointer }) :=
    .of_keeps fun _ => rfl
  refine moves.bind fun _ _ => Agree.get.bind fun _ _ => ?_
  exact (agrees_loadInt _).bind fun _ _ => .of_keeps fun _ => rfl

end Primitives

/-! ### Statements -/

section Statements

variable {routines : Array Routine} {call other : Label → List Int → Exec Int} {temps : Temps}

def CallsAgree (routines : Array Routine) (call other : Label → List Int → Exec Int) : Prop :=
  ∀ label arguments, Agrees routines (call label arguments) (other label arguments)

mutual

theorem eval_agrees (calls : CallsAgree routines call other) : (expression : Expr) →
    Agrees routines (eval call temps expression) (eval other temps expression)
  | .const _ => .pure trivial
  | .name label => agrees_labelAddress label
  | .temp temp => agrees_readTemp temps temp
  | .mem address => (eval_agrees calls address).bind fun _ _ => agrees_loadInt _
  | .binop operator left right => (eval_agrees calls left).bind fun _ _ =>
      (eval_agrees calls right).bind fun _ _ => agrees_compute operator _ _
  | .call label arguments =>
      (evalAll_agrees calls arguments).bind fun values _ => calls label values
  | .eseq .. => .fails _

theorem evalAll_agrees (calls : CallsAgree routines call other) : (expressions : List Expr) →
    Agrees routines (evalAll call temps expressions) (evalAll other temps expressions)
  | [] => .pure trivial
  | expression :: rest => (eval_agrees calls expression).bind fun _ _ =>
      (evalAll_agrees calls rest).bind fun _ _ => .pure trivial

end

theorem execute_agree (calls : CallsAgree routines call other) (statement : Stmt) :
    Agree routines (execute call temps statement) (execute other temps statement)
      fun next => ∀ label ∈ next.jump, label ∈ statement.targets := by
  match statement with
  | .label _ => exact .pure (by simp)
  | .jump target => exact .pure (by simp [Stmt.targets, Stmt.events, IR.Event.targets])
  | .cjump condition whenTrue whenFalse =>
      refine (eval_agrees calls condition).bind fun value _ => .pure ?_
      rintro label ⟨⟩
      by_cases isZero : value = 0
      · simp [isZero, Stmt.targets, Stmt.events, IR.Event.targets]
      · simp [isZero, Stmt.targets, Stmt.events, IR.Event.targets]
  | .exp value => exact (eval_agrees calls value).bind fun _ _ => .pure (by simp)
  | .move (.temp _) source =>
      exact (eval_agrees calls source).bind fun _ _ => .pure (by simp)
  | .move (.mem address) source =>
      exact (eval_agrees calls address).bind fun place _ =>
        (eval_agrees calls source).bind fun value _ =>
          (agrees_storeInt place value).bind fun _ _ => .pure (by simp)
  | .move (.const _) _ | .move (.name _) _ | .move (.binop ..) _ | .move (.call ..) _
  | .move (.eseq ..) _ | .seq _ => exact .fails _

end Statements

/-! ### Calls -/

section Calls

variable {routines : Array Routine} {body other : Array Stmt → Table Label Nat → Exec Unit}

def BodiesAgree (routines : Array Routine) (body other : Array Stmt → Table Label Nat → Exec Unit) :
    Prop :=
  ∀ routine ∈ routines, ∀ jumps, routine.jumps? = some jumps →
    Agrees routines (body routine.statements jumps) (other routine.statements jumps)

theorem invoke_agrees (bodies : BodiesAgree routines body other) {routine : Routine}
    (member : routine ∈ routines) :
    Agrees routines (invoke body routine) (invoke other routine) :=
  (agree_enter routine).bind fun jumps flat =>
    (bodies routine member jumps flat).bind fun _ _ => agrees_leave routine

theorem callRoutine_agrees (bodies : BodiesAgree routines body other) (label : Label)
    (arguments : List Int) : Agrees routines (callLabel.callRoutine body label arguments)
      (callLabel.callRoutine other label arguments) := by
  unfold callLabel.callRoutine
  refine Agree.get.bind fun machine same => ?_
  cases found : machine.routine? label with
  | none => exact .fails _
  | some routine =>
      have member : routine ∈ routines := same ▸ mem_of_routine? found
      exact Agree.get.bind fun _ _ => (agrees_storeInts _ _).bind fun _ _ =>
        (invoke_agrees bodies member).bind fun _ _ => Agree.get.bind fun _ _ => agrees_loadInt _

theorem callLabel_agrees (bodies : BodiesAgree routines body other) :
    CallsAgree routines (callLabel body) (callLabel other) := by
  intro label arguments
  unfold callLabel
  split
  · split
    · exact agrees_callBuiltin _ _
    · exact callRoutine_agrees bodies _ _
  · exact callRoutine_agrees bodies _ _

end Calls

end TreeBackend.Machine
