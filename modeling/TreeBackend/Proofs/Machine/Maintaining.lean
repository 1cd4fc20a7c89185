import TreeBackend.Proofs.Machine.Reached
import TreeBackend.Proofs.Machine.Session

/-!
# What a run maintains

Something that holds of a machine and survives each store, each print, each draw of a random
number and each frame that is made or removed holds after a whole run.  A run that fails may
stop while a frame is being removed, when less may hold.
-/

namespace TreeBackend.Machine

open Outcome
open IR (Expr Stmt)

/-- A computation leaves something true if it succeeds, and something else if it fails. -/
structure Maintains (holds broken : Machine → Prop) {α : Type} (part : Exec α) : Prop where
  ok : ∀ {machine result final}, holds machine → part machine = .ok result final → holds final
  error : ∀ {machine reason final}, holds machine → part machine = .error reason final → broken final

/-- Something survives each step that changes a machine. -/
structure Maintained (holds broken : Machine → Prop) : Prop where
  weaken : ∀ {machine}, holds machine → broken machine
  store : ∀ {machine : Machine} {address : Int} (value : Int), holds machine →
    machine.memory.isAddress address = true → holds (machine.writeWord address (.int value))
  /-- A sink may have taken a part of what it refuses. -/
  write : ∀ {machine : Machine} (piece : String), holds machine →
    holds (state (Machine.write piece machine))
  random : ∀ {machine : Machine} (memory : List Nat), holds machine →
    holds { machine with random := { machine.random with memory } }
  enter : ∀ {machine : Machine} {routine : Routine} {jumps : Table Label Nat} {final : Machine},
    holds machine → Machine.enter routine machine = .ok jumps final → holds final
  leave : ∀ {machine : Machine} {routine : Routine} {final : Machine},
    holds machine → Machine.leave routine machine = .ok () final → holds final
  /-- The stack pointer moves before the saved frame pointer is read. -/
  leaving : ∀ {machine : Machine}, holds machine →
    broken { machine with stackPointer := machine.framePointer }

/-! ### Steps that fail -/

section Failing

variable {machine final : Machine} {routine : Routine} {reason : Interruption}

/-- A frame that is not made changes nothing. -/
theorem eq_of_enter_eq_error (failed : enter routine machine = .error reason final) :
    final = machine := by
  obtain ⟨memory, routines, random, output, framePointer, stackPointer⟩ := machine
  unfold enter at failed
  split at failed
  · exact (EStateM.Result.error.inj failed).2.symm
  · dsimp only at failed
    split at failed
    · exact (EStateM.Result.error.inj failed).2.symm
    · split at failed
      · cases failed
      · exact (EStateM.Result.error.inj failed).2.symm

theorem eq_of_leave_eq_error (failed : leave routine machine = .error reason final) :
    final = { machine with stackPointer := machine.framePointer } := by
  rcases bind_eq_error.mp failed with failed | ⟨⟨⟩, moved, moves, failed⟩
  · cases failed
  · obtain rfl := modify_eq_ok.mp moves
    rcases bind_eq_error.mp failed with failed | ⟨_, _, here, failed⟩
    · cases failed
    · obtain ⟨rfl, rfl⟩ := get_eq_ok.mp here
      rcases bind_eq_error.mp failed with failed | ⟨saved, _, _, failed⟩
      · unfold loadInt at failed
        split at failed
        · cases failed
        · exact (EStateM.Result.error.inj failed).2.symm
      · cases failed

end Failing

/-! ### Computations in a row -/

namespace Maintains

variable {holds broken : Machine → Prop} {α β : Type} {part : Exec α} {next : α → Exec β}

theorem pure (value : α) : Maintains holds broken (pure value : Exec α) where
  ok here done := (pure_eq_ok.mp done).2 ▸ here
  error _ failed := (pure_ne_error failed).elim

theorem bind (first : Maintains holds broken part)
    (second : ∀ value, Maintains holds broken (next value)) :
    Maintains holds broken (part >>= next) where
  ok here done := by
    obtain ⟨value, middle, began, ended⟩ := bind_eq_ok.mp done
    exact (second value).ok (first.ok here began) ended
  error here failed := by
    rcases bind_eq_error.mp failed with failed | ⟨value, middle, began, failed⟩
    · exact first.error here failed
    · exact (second value).error (first.ok here began) failed

/-- Whether a computation succeeds or not, it leaves true what it leaves true in both cases. -/
theorem state {machine : Machine} (always : Maintains holds holds part) (here : holds machine) :
    holds (state (part machine)) := by
  cases outcome : part machine with
  | ok => exact always.ok here outcome
  | error => exact always.error here outcome

end Maintains

namespace Maintained

variable {holds broken : Machine → Prop} {α : Type}

/-- It is enough that something survives when the pointers move and when their labels follow. -/
theorem of_points
    (store : ∀ {machine : Machine} {address : Int} (value : Int), holds machine →
      machine.memory.isAddress address = true → holds (machine.writeWord address (.int value)))
    (write : ∀ {machine : Machine} (piece : String), holds machine →
      holds (state (Machine.write piece machine)))
    (random : ∀ {machine : Machine} (memory : List Nat), holds machine →
      holds { machine with random := { machine.random with memory } })
    (moved : ∀ {machine : Machine} (framePointer stackPointer : Int), holds machine →
      holds { machine with framePointer, stackPointer })
    (registered : ∀ {machine : Machine}, holds machine → holds machine.registerPointers) :
    Maintained holds holds where
  weaken := id
  store := store
  write := write
  random := random
  enter here entered := by
    obtain ⟨-, -, valid, rfl⟩ := enter_eq_ok.mp entered
    exact registered (moved _ _ (store _ here valid))
  leave here left := by
    obtain ⟨saved, -, rfl⟩ := leave_eq_ok.mp left
    exact registered (moved _ _ here)
  leaving {machine} here := moved machine.framePointer machine.framePointer here

theorem and {other otherBroken : Machine → Prop} (first : Maintained holds broken)
    (second : Maintained other otherBroken) :
    Maintained (fun machine => holds machine ∧ other machine)
      fun machine => broken machine ∧ otherBroken machine where
  weaken here := ⟨first.weaken here.1, second.weaken here.2⟩
  store value here valid := ⟨first.store value here.1 valid, second.store value here.2 valid⟩
  write piece here := ⟨first.write piece here.1, second.write piece here.2⟩
  random memory here := ⟨first.random memory here.1, second.random memory here.2⟩
  enter here entered := ⟨first.enter here.1 entered, second.enter here.2 entered⟩
  leave here left := ⟨first.leave here.1 left, second.leave here.2 left⟩
  leaving here := ⟨first.leaving here.1, second.leaving here.2⟩

variable (maintained : Maintained holds broken)

include maintained

/-! ### What the machine does itself -/

/-- A step that leaves each machine as it is. -/
theorem of_reads {part : Exec α} (reads : ∀ machine, state (part machine) = machine) :
    Maintains holds broken part where
  ok {machine result final} here done := by
    have same : final = machine := by
      rw [← reads machine, done]
      rfl
    exact same ▸ here
  error {machine reason final} here failed := by
    have same : final = machine := by
      rw [← reads machine, failed]
      rfl
    exact maintained.weaken (same ▸ here)

theorem fails (reason : Interruption) : Maintains holds broken (throw reason : Exec α) :=
  maintained.of_reads fun _ => rfl

theorem get : Maintains holds broken (get : Exec Machine) := maintained.of_reads fun _ => rfl

theorem loadInt (address : Int) : Maintains holds broken (loadInt address) :=
  maintained.of_reads fun _ => by unfold Machine.loadInt; split <;> rfl

theorem labelAddress (label : Label) : Maintains holds broken (labelAddress label) :=
  maintained.of_reads fun _ => by unfold Machine.labelAddress; split <;> rfl

theorem readTemp (temps : Temps) (temp : IR.Temp) :
    Maintains holds broken (readTemp temps temp) := by
  unfold Machine.readTemp
  split
  · exact .pure _
  · exact maintained.fails _

theorem compute (operator : Operator) (left right : Int) :
    Maintains holds broken (compute operator left right) := by
  unfold Machine.compute
  split
  · exact .pure _
  · exact maintained.fails _

theorem loadText (address : Int) : Maintains holds broken (loadText address) :=
  maintained.of_reads fun _ => by unfold Machine.loadText; split <;> rfl

theorem storeInt (address value : Int) : Maintains holds broken (storeInt address value) where
  ok here stored := by
    obtain ⟨valid, rfl⟩ := storeInt_eq_ok.mp stored
    exact maintained.store value here valid
  error here failed := by
    unfold Machine.storeInt at failed
    split at failed
    · cases failed
    · exact (EStateM.Result.error.inj failed).2 ▸ maintained.weaken here

theorem storeInts (address : Int) (values : List Int) :
    Maintains holds broken (storeInts address values) := by
  induction values generalizing address with
  | nil => exact .pure ()
  | cons value rest ih => exact (maintained.storeInt address value).bind fun _ => ih _

theorem writes (piece : String) : Maintains holds broken (Machine.write piece) where
  ok here written := by
    have kept := maintained.write piece here
    rwa [written] at kept
  error here failed := by
    have kept := maintained.write piece here
    rw [failed] at kept
    exact maintained.weaken kept

theorem printLine (line : String) : Maintains holds broken (printLine line) :=
  (maintained.writes line).bind fun _ => maintained.writes "\n"

theorem drawInt (low high : Int) : Maintains holds broken (drawInt low high) := by
  constructor
  · intro machine result final here drawn
    unfold Machine.drawInt at drawn
    split at drawn
    · split at drawn
      · next found =>
          obtain ⟨_, -, same⟩ := Option.map_eq_some_iff.mp found
          rw [← (Prod.mk.inj same).2] at drawn
          exact (EStateM.Result.ok.inj drawn).2 ▸ maintained.random _ here
      · cases drawn
    · cases drawn
  · intro machine reason final here failed
    unfold Machine.drawInt at failed
    split at failed
    · split at failed
      · cases failed
      · exact (EStateM.Result.error.inj failed).2 ▸ maintained.weaken here
    · exact (EStateM.Result.error.inj failed).2 ▸ maintained.weaken here

theorem reseed (seed : Int) : Maintains holds broken (reseed seed) where
  ok here seeded := (EStateM.Result.ok.inj seeded).2 ▸ maintained.random _ here
  error _ failed := nomatch failed

theorem callBuiltin (builtin : Builtin) (arguments : List Int) :
    Maintains holds broken (callBuiltin builtin arguments) := by
  unfold Machine.callBuiltin
  split
  · exact (maintained.printLine _).bind fun _ => .pure _
  · exact (maintained.loadText _).bind fun _ => (maintained.printLine _).bind fun _ => .pure _
  · exact (maintained.printLine _).bind fun _ => .pure _
  · exact maintained.drawInt _ _
  · exact (maintained.reseed _).bind fun _ => .pure _
  · exact maintained.fails _

theorem enters (routine : Routine) : Maintains holds broken (Machine.enter routine) where
  ok := maintained.enter
  error here failed := eq_of_enter_eq_error failed ▸ maintained.weaken here

theorem leaves (routine : Routine) : Maintains holds broken (Machine.leave routine) where
  ok := maintained.leave
  error here failed := eq_of_leave_eq_error failed ▸ maintained.leaving here

/-! ### Statements -/

section Statements

variable {call : Label → List Int → Exec Int} {temps : Temps}

omit maintained

mutual

theorem eval (maintained : Maintained holds broken)
    (calls : ∀ label arguments, Maintains holds broken (call label arguments)) :
    (expression : Expr) → Maintains holds broken (eval call temps expression)
  | .const value => .pure value
  | .name label => maintained.labelAddress label
  | .temp temp => maintained.readTemp temps temp
  | .mem address => (eval maintained calls address).bind fun _ => maintained.loadInt _
  | .binop operator left right =>
      (eval maintained calls left).bind fun _ =>
        (eval maintained calls right).bind fun _ => maintained.compute operator _ _
  | .call label arguments =>
      (evalAll maintained calls arguments).bind fun values => calls label values
  | .eseq .. => maintained.fails _

theorem evalAll (maintained : Maintained holds broken)
    (calls : ∀ label arguments, Maintains holds broken (call label arguments)) :
    (expressions : List Expr) → Maintains holds broken (evalAll call temps expressions)
  | [] => .pure []
  | expression :: rest =>
      (eval maintained calls expression).bind fun _ =>
        (evalAll maintained calls rest).bind fun _ => .pure _

end

include maintained

theorem execute (calls : ∀ label arguments, Maintains holds broken (call label arguments))
    (statement : Stmt) : Maintains holds broken (execute call temps statement) := by
  match statement with
  | .label _ | .jump _ => exact .pure _
  | .cjump condition _ _ => exact (maintained.eval calls condition).bind fun _ => .pure _
  | .exp value => exact (maintained.eval calls value).bind fun _ => .pure _
  | .move (.temp _) source => exact (maintained.eval calls source).bind fun _ => .pure _
  | .move (.mem address) source =>
      exact (maintained.eval calls address).bind fun place =>
        (maintained.eval calls source).bind fun value =>
          (maintained.storeInt place value).bind fun _ => .pure _
  | .move (.const _) _ | .move (.name _) _ | .move (.binop ..) _ | .move (.call ..) _
  | .move (.eseq ..) _ | .seq _ => exact maintained.fails _

end Statements

/-! ### Calls -/

section Calls

variable {body : Array Stmt → Table Label Nat → Exec Unit}
  (bodies : ∀ statements jumps, Maintains holds broken (body statements jumps))

include bodies

theorem invoke (routine : Routine) : Maintains holds broken (invoke body routine) :=
  (maintained.enters routine).bind fun jumps =>
    (bodies routine.statements jumps).bind fun _ => maintained.leaves routine

theorem callRoutine (label : Label) (arguments : List Int) :
    Maintains holds broken (callLabel.callRoutine body label arguments) := by
  unfold callLabel.callRoutine
  refine maintained.get.bind fun machine => ?_
  cases machine.routine? label with
  | none => exact maintained.fails _
  | some routine =>
      exact maintained.get.bind fun _ => (maintained.storeInts _ _).bind fun _ =>
        (maintained.invoke bodies routine).bind fun _ => maintained.get.bind fun _ =>
          maintained.loadInt _

theorem callLabel (label : Label) (arguments : List Int) :
    Maintains holds broken (callLabel body label arguments) := by
  unfold Machine.callLabel
  split
  · split
    · exact maintained.callBuiltin _ _
    · exact maintained.callRoutine bodies _ _
  · exact maintained.callRoutine bodies _ _

end Calls

theorem runFrom (fuel : Nat) (statements : Array Stmt) (jumps : Table Label Nat) (position : Nat)
    (temps : Temps) : Maintains holds broken (runFrom fuel statements jumps position temps) := by
  induction fuel generalizing statements jumps position temps with
  | zero => exact maintained.fails _
  | succ fuel ih =>
      unfold Machine.runFrom
      cases statements[position]? with
      | none => exact .pure ()
      | some statement =>
          have calls := maintained.callLabel fun statements jumps => ih statements jumps 0 {}
          refine (maintained.execute calls statement).bind fun next => ?_
          cases next.jump with
          | none => exact ih ..
          | some label =>
              dsimp only
              cases jumps.get? label with
              | none => exact maintained.fails _
              | some target => exact ih ..

theorem callWith (fuel : Nat) (label : Label) (arguments : List Int) :
    Maintains holds broken (callWith fuel label arguments) :=
  maintained.callLabel (fun _ _ => maintained.runFrom ..) label arguments

/-- A run maintains what each of its steps does. -/
theorem interpret (fuel : Nat) (entry : Label) : Maintains holds broken (interpret fuel entry) := by
  unfold Machine.interpret
  refine maintained.get.bind fun machine => ?_
  cases machine.routine? entry with
  | none => exact maintained.fails _
  | some routine =>
      exact maintained.get.bind fun _ => (maintained.storeInt _ _).bind fun _ =>
        (maintained.invoke (fun _ _ => maintained.runFrom ..) routine).bind fun _ =>
          maintained.get.bind fun _ => maintained.loadInt _

omit maintained

theorem afterCalls (maintained : Maintained holds holds) {machine : Machine} (here : holds machine)
    (calls : List (Nat × Label)) : holds (machine.afterCalls calls) := by
  induction calls generalizing machine with
  | nil => exact here
  | cons call rest ih => exact ih ((maintained.interpret call.1 call.2).state here)

/-- What holds when the first activation of a run begins holds in all states that are reached in
activations. -/
theorem of_reached (maintained : Maintained holds broken) {start : Machine} {entry : Label}
    (begins : ∀ {routine stored jumps entered}, start.routine? entry = some routine →
      Machine.storeInt start.stackPointer 0 start = .ok () stored →
      Machine.enter routine stored = .ok jumps entered → holds entered)
    {fuel : Nat} {stack : List Activation} {machine : Machine} {task : Task}
    (reached : Reached start entry fuel stack machine task) (inside : stack ≠ []) :
    holds machine := by
  induction reached with
  | start => exact absurd rfl inside
  | @enter _ stack _ _ _ _ reached enters ih =>
      cases stack with
      | nil =>
          obtain ⟨_, same, found, stored⟩ := reached.of_outside
          obtain rfl := Task.invoke.inj same
          exact begins found stored enters
      | cons => exact maintained.enter (ih (by simp)) enters
  | next _ _ executed _ ih | jump _ _ executed _ _ ih =>
      exact (maintained.execute (maintained.callWith _) _).ok (ih inside) executed
  | stored _ evaluated ih | right _ evaluated ih | others _ evaluated ih | proceed _ evaluated ih =>
      exact (maintained.eval (maintained.callWith _) _).ok (ih inside) evaluated
  | call _ evaluated ih =>
      exact (maintained.evalAll (maintained.callWith _) _).ok (ih inside) evaluated
  | passed _ stored ih => exact (maintained.storeInt _ _).ok (ih inside) stored
  | execute _ _ ih | condition _ ih | expression _ ih | assigned _ ih | place _ ih | address _ ih
  | left _ ih | arguments _ ih | first _ ih | pass _ _ _ ih | invoke _ ih => exact ih inside

end Maintained

end TreeBackend.Machine
