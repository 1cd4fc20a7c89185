import TreeBackend.Proofs.Machine.Maintaining
import TreeBackend.Proofs.Machine.Visits

/-!
# Runs that end

A computation ends where something holds if it is not broken off there for want of fuel, and
leaves the same true when it succeeds.  Statements end if the calls in them do, and a call ends
if the body of the function does that it finds.  A body whose jumps lead forward ends with as
much fuel as its calls need and one more for each of its statements.
-/

namespace TreeBackend.Machine

open Outcome
open IR (Expr Stmt Event)
open Flattening (JumpsForward)

/-! ### What the machine does itself -/

/-- A computation that is never broken off. -/
def IsDefinite {α : Type} (part : Exec α) : Prop :=
  ∀ machine final, part machine ≠ .error .outOfFuel final

namespace IsDefinite

variable {α β : Type} {part : Exec α} {next : α → Exec β}

theorem pure (value : α) : IsDefinite (pure value : Exec α) := fun _ _ => pure_ne_error

theorem raise (fault : Fault) : IsDefinite (raise fault : Exec α) := fun _ _ failed => by
  cases failed

theorem get : IsDefinite (get : Exec Machine) := fun _ _ failed => by cases failed

theorem modify (update : Machine → Machine) : IsDefinite (modify update : Exec PUnit) :=
  fun _ _ failed => by cases failed

theorem bind (first : IsDefinite part) (second : ∀ value, IsDefinite (next value)) :
    IsDefinite (part >>= next) := by
  intro machine final failed
  rcases bind_eq_error.mp failed with failed | ⟨value, middle, -, failed⟩
  · exact first machine final failed
  · exact second value middle final failed

theorem loadInt (address : Int) : IsDefinite (loadInt address) := fun _ _ failed => by
  unfold Machine.loadInt at failed
  split at failed <;> cases failed

theorem storeInt (address value : Int) : IsDefinite (storeInt address value) :=
  fun _ _ failed => by
    unfold Machine.storeInt at failed
    split at failed <;> cases failed

theorem storeInts (address : Int) (values : List Int) : IsDefinite (storeInts address values) := by
  induction values generalizing address with
  | nil => exact .pure ()
  | cons value rest ih => exact (IsDefinite.storeInt address value).bind fun _ => ih _

theorem labelAddress (label : Label) : IsDefinite (labelAddress label) := fun _ _ failed => by
  unfold Machine.labelAddress at failed
  split at failed <;> cases failed

theorem readTemp (temps : Temps) (temp : IR.Temp) : IsDefinite (readTemp temps temp) := by
  unfold Machine.readTemp
  split
  · exact .pure _
  · exact .raise _

theorem compute (operator : Operator) (left right : Int) :
    IsDefinite (compute operator left right) := by
  unfold Machine.compute
  split
  · exact .pure _
  · exact .raise _

theorem write (piece : String) : IsDefinite (write piece) := fun _ _ failed => by
  unfold Machine.write at failed
  split at failed
  · split at failed <;> cases failed
  · cases failed

theorem printLine (line : String) : IsDefinite (printLine line) :=
  (IsDefinite.write line).bind fun _ => .write _

theorem loadText (address : Int) : IsDefinite (loadText address) := fun _ _ failed => by
  unfold Machine.loadText at failed
  split at failed <;> cases failed

theorem reseed (seed : Int) : IsDefinite (reseed seed) := fun _ _ failed => by cases failed

theorem enter (routine : Routine) : IsDefinite (enter routine) := by
  rintro ⟨memory, routines, random, output, framePointer, stackPointer⟩ final failed
  unfold Machine.enter at failed
  split at failed
  · cases failed
  · dsimp only at failed
    split at failed
    · cases failed
    · split at failed <;> cases failed

theorem leave (routine : Routine) : IsDefinite (leave routine) :=
  (IsDefinite.modify _).bind fun _ => IsDefinite.get.bind fun _ =>
    (IsDefinite.loadInt _).bind fun _ => .modify _

end IsDefinite

/-! ### Where something holds -/

/-- Where something holds, a computation is not broken off, and what holds stays true if it
succeeds. -/
structure Ends (holds : Machine → Prop) {α : Type} (part : Exec α) : Prop where
  keeps : ∀ {machine result final}, holds machine → part machine = .ok result final → holds final
  ends : ∀ {machine final}, holds machine → part machine ≠ .error .outOfFuel final

namespace Ends

variable {holds broken : Machine → Prop} {α β : Type} {part long : Exec α} {next : α → Exec β}

theorem of_isDefinite (definite : IsDefinite part) (maintains : Maintains holds broken part) :
    Ends holds part where
  keeps := maintains.ok
  ends _ := definite _ _

theorem pure (value : α) : Ends holds (pure value : Exec α) where
  keeps here done := (pure_eq_ok.mp done).2 ▸ here
  ends _ := IsDefinite.pure value _ _

theorem raise (fault : Fault) : Ends holds (raise fault : Exec α) where
  keeps _ done := (throw_ne_ok done).elim
  ends _ := IsDefinite.raise fault _ _

/-- The second computation has to end for what the first one can result in. -/
theorem bind (first : Ends holds part)
    (second : ∀ {value machine final}, holds machine → part machine = .ok value final →
      Ends holds (next value)) : Ends holds (part >>= next) where
  keeps here done := by
    obtain ⟨value, middle, began, ended⟩ := bind_eq_ok.mp done
    exact (second here began).keeps (first.keeps here began) ended
  ends here failed := by
    rcases bind_eq_error.mp failed with failed | ⟨value, middle, began, failed⟩
    · exact first.ends here failed
    · exact (second here began).ends (first.keeps here began) failed

end Ends

section Running

variable {holds broken : Machine → Prop} (maintained : Maintained holds broken)

include maintained

/-! ### Builtins -/

theorem drawInt_ends
    (documented : ∀ {machine}, holds machine → machine.random.generator.IsDocumented)
    (low high : Int) : Ends holds (drawInt low high) where
  keeps := (maintained.drawInt low high).ok
  ends {machine _} here failed := by
    unfold drawInt at failed
    split at failed
    · next nonempty =>
        obtain ⟨number, later, drawn, -⟩ :=
          documented here machine.random.memory low high nonempty
        simp only [Random.Source.draw?, drawn, Option.map_some] at failed
        cases failed
    · cases failed

theorem callBuiltin_ends
    (documented : ∀ {machine}, holds machine → machine.random.generator.IsDocumented)
    (builtin : Builtin) (arguments : List Int) : Ends holds (callBuiltin builtin arguments) := by
  have prints (line : String) : Ends holds (printLine line) :=
    .of_isDefinite (.printLine line) (maintained.printLine line)
  unfold callBuiltin
  split
  · exact (prints _).bind fun _ _ => .pure _
  · exact (Ends.of_isDefinite (.loadText _) (maintained.loadText _)).bind fun _ _ =>
      (prints _).bind fun _ _ => .pure _
  · exact (prints _).bind fun _ _ => .pure _
  · exact drawInt_ends maintained documented _ _
  · exact (Ends.of_isDefinite (.reseed _) (maintained.reseed _)).bind fun _ _ => .pure _
  · exact .raise _

/-! ### Statements -/

section Statements

variable {call : Label → List Int → Exec Int} {temps : Temps}

omit maintained

mutual

theorem eval_ends (maintained : Maintained holds broken) : (expression : Expr) →
    (∀ label number, .call label number ∈ expression.events →
      ∀ arguments, Ends holds (call label arguments)) → Ends holds (eval call temps expression)
  | .const value, _ => .pure value
  | .name label, _ => .of_isDefinite (.labelAddress label) (maintained.labelAddress label)
  | .temp temp, _ => .of_isDefinite (.readTemp temps temp) (maintained.readTemp temps temp)
  | .mem address, calls =>
      (eval_ends maintained address fun label number member =>
        calls label number (List.mem_append_left _ member)).bind fun _ _ =>
          .of_isDefinite (.loadInt _) (maintained.loadInt _)
  | .binop operator left right, calls =>
      (eval_ends maintained left fun label number member =>
        calls label number (List.mem_append_left _ (List.mem_append_left _ member))).bind fun _ _ =>
      (eval_ends maintained right fun label number member =>
        calls label number (List.mem_append_left _ (List.mem_append_right _ member))).bind
          fun _ _ => .of_isDefinite (.compute operator _ _) (maintained.compute operator _ _)
  | .call label arguments, calls =>
      (evalAll_ends maintained arguments fun label number member =>
        calls label number (List.mem_append_left _ member)).bind fun _ _ =>
          calls label arguments.length (List.mem_append_right _ (List.mem_singleton_self _)) _
  | .eseq .., _ => .raise _

theorem evalAll_ends (maintained : Maintained holds broken) : (expressions : List Expr) →
    (∀ label number, .call label number ∈ Expr.eventsOfList expressions →
      ∀ arguments, Ends holds (call label arguments)) → Ends holds (evalAll call temps expressions)
  | [], _ => .pure []
  | expression :: rest, calls =>
      (eval_ends maintained expression fun label number member =>
        calls label number (List.mem_append_left _ member)).bind fun _ _ =>
      (evalAll_ends maintained rest fun label number member =>
        calls label number (List.mem_append_right _ member)).bind fun _ _ => .pure _

end

include maintained

theorem execute_ends (statement : Stmt)
    (calls : ∀ label number, .call label number ∈ statement.events →
      ∀ arguments, Ends holds (call label arguments)) :
    Ends holds (execute call temps statement) := by
  match statement, calls with
  | .label _, _ | .jump _, _ => exact .pure _
  | .cjump condition _ _, calls =>
      exact (eval_ends maintained condition fun label number member =>
        calls label number (List.mem_append_left _ member)).bind fun _ _ => .pure _
  | .exp value, calls => exact (eval_ends maintained value calls).bind fun _ _ => .pure _
  | .move (.temp _) source, calls =>
      exact (eval_ends maintained source fun label number member =>
        calls label number (List.mem_append_left _ member)).bind fun _ _ => .pure _
  | .move (.mem address) source, calls =>
      refine (eval_ends maintained address fun label number member =>
        calls label number (List.mem_append_left _ (List.mem_append_left _ member))).bind
          fun _ _ => ?_
      refine (eval_ends maintained source fun label number member =>
        calls label number (List.mem_append_left _ (List.mem_append_right _ member))).bind
          fun _ _ => ?_
      exact (Ends.of_isDefinite (.storeInt _ _) (maintained.storeInt _ _)).bind fun _ _ => .pure _
  | .move (.const _) _, _ | .move (.name _) _, _ | .move (.binop ..) _, _ | .move (.call ..) _, _
  | .move (.eseq ..) _, _ | .seq _, _ => exact .raise _

end Statements

/-! ### Calls -/

section Calls

variable {body : Array Stmt → Table Label Nat → Exec Unit}

theorem invoke_ends {routine : Routine} (bodies : ∀ jumps, routine.jumps? = some jumps →
    Ends holds (body routine.statements jumps)) : Ends holds (invoke body routine) := by
  refine (Ends.of_isDefinite (.enter routine) (maintained.enters routine)).bind
    fun _ entered => ?_
  obtain ⟨flat, -⟩ := enter_eq_ok.mp entered
  exact (bodies _ flat).bind fun _ _ => .of_isDefinite (.leave routine) (maintained.leaves routine)

/-- A call of a label ends if it calls a builtin, or if the bodies end of all functions that it may
find. -/
theorem callLabel_ends {label : Label}
    (documented : ∀ {machine}, holds machine → machine.random.generator.IsDocumented)
    (bodies : NoBuiltin label → ∀ machine routine jumps, holds machine →
      machine.routine? label = some routine → routine.jumps? = some jumps →
      Ends holds (body routine.statements jumps))
    (arguments : List Int) : Ends holds (callLabel body label arguments) := by
  have routines (noBuiltin : NoBuiltin label) :
      Ends holds (callLabel.callRoutine body label arguments) := by
    refine (Ends.of_isDefinite .get maintained.get).bind fun {value machine _} here isThere => ?_
    obtain ⟨rfl, -⟩ := get_eq_ok.mp isThere
    cases found : value.routine? label with
    | none => exact .raise _
    | some routine =>
        refine (Ends.of_isDefinite .get maintained.get).bind fun _ _ => ?_
        refine (Ends.of_isDefinite (.storeInts _ _) (maintained.storeInts _ _)).bind fun _ _ => ?_
        refine (invoke_ends maintained fun jumps flat =>
          bodies noBuiltin value routine jumps here found flat).bind fun _ _ => ?_
        exact (Ends.of_isDefinite .get maintained.get).bind fun _ _ =>
          .of_isDefinite (.loadInt _) (maintained.loadInt _)
  cases label with
  | anonymous number => exact routines nofun
  | named name =>
      rw [callLabel]
      cases isBuiltin : Builtin.ofName? name with
      | none =>
          refine routines fun other same => ?_
          obtain rfl := Label.named.inj same
          exact isBuiltin
      | some builtin =>
          exact callBuiltin_ends maintained documented builtin arguments

end Calls

omit maintained

/-! ### Bodies -/

/-- If calls end with some amount of fuel or more, then the rest of a body whose jumps lead forward
ends with that amount and one more for each statement that follows and for the end. -/
theorem runFrom_ends {items : List Stmt} (forward : JumpsForward items) {enough : Nat}
    (calls : ∀ fuel, enough ≤ fuel → ∀ statement ∈ items, ∀ temps,
      Ends holds (execute (callWith fuel) temps statement))
    (remaining : Nat) {fuel position : Nat} (isRest : items.length ≤ position + remaining)
    (further : enough + remaining < fuel) (temps : Temps) :
    Ends holds (runFrom fuel items.toArray (Routine.jumpsOf items) position temps) := by
  induction remaining generalizing fuel position temps with
  | zero =>
      obtain ⟨fuel, rfl⟩ := Nat.exists_eq_add_of_lt further
      have done : items.toArray[position]? = none := by simpa using isRest
      rw [runFrom, done]
      exact .pure ()
  | succ remaining ih =>
      obtain ⟨fuel, rfl⟩ := Nat.exists_eq_add_of_lt further
      unfold runFrom
      cases found : items.toArray[position]? with
      | none => exact .pure ()
      | some statement =>
          have isThere : items[position]? = some statement := by simpa using found
          refine (calls _ (by omega) statement (List.mem_of_getElem? isThere) temps).bind
            fun {next _ _} _ executed => ?_
          cases jumped : next.jump with
          | none => exact ih (by omega) (by omega) _
          | some label =>
              obtain ⟨target, isTarget, later⟩ :=
                exists_later_target forward isThere (mem_exits_of_execute executed jumped)
              simp only [isTarget]
              exact ih (by omega) (by omega) _

end Running

end TreeBackend.Machine
