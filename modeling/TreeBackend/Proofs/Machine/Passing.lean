import TreeBackend.Proofs.Machine.Agreement
import TreeBackend.Proofs.Machine.Preserving

/-!
# Where arguments are stored

A caller stores arguments upwards from its stack pointer.  If its frame has an area there
with room for the arguments of each call in its code, then they are stored in this area.
-/

namespace TreeBackend.Machine

open IR (Expr Stmt Event)

def CallsFit (room : Int) (events : List Event) : Prop :=
  ∀ (label : Label) (arguments : Nat), .call label arguments ∈ events →
    Word.size * arguments ≤ room

/-- The code of a function makes no call for whose arguments its frame has no room. -/
def Routine.HasRoom (routine : Routine) : Prop :=
  ∀ statement ∈ routine.statements, CallsFit routine.frame.argumentsSize statement.events

/-- The innermost activation has room for the arguments of each call among some events. -/
def HaveRoom (stack : List Activation) (events : List Event) : Prop :=
  ∃ caller ∈ stack.head?, CallsFit caller.routine.frame.argumentsSize events

theorem HaveRoom.mono {stack : List Activation} {events fewer : List Event}
    (room : HaveRoom stack events) (includes : fewer ⊆ events) : HaveRoom stack fewer := by
  obtain ⟨caller, isCaller, fit⟩ := room
  exact ⟨caller, isCaller, fun label arguments member => fit label arguments (includes member)⟩

/-- The innermost activation has room for what comes next. -/
def Task.Fits (routines : Array Routine) (stack : List Activation) (machine : Machine) :
    Task → Prop
  | .run .. | .proceed => True
  | .execute _ statement => HaveRoom stack statement.events
  | .evaluate _ expression => HaveRoom stack expression.events
  | .evaluateAll _ expressions => HaveRoom stack (Expr.eventsOfList expressions)
  | .call _ values =>
      ∃ caller ∈ stack.head?, Word.size * values.length ≤ caller.routine.frame.argumentsSize
  | .pass routine address values => routine ∈ routines ∧ ∃ caller ∈ stack.head?,
      machine.stackPointer ≤ address ∧ address + Word.size * values.length ≤
        machine.stackPointer + caller.routine.frame.argumentsSize
  | .invoke routine => routine ∈ routines

section Passing

variable {start machine : Machine} {entry : Label} {fuel : Nat} {stack : List Activation}

/-- A run leaves the functions of a machine alone. -/
theorem preserved_routines (start : Machine) (entry : Label) :
    Preserved start entry fun machine => machine.routines = start.routines where
  begins _ stored := (agrees_storeInt _ _).routines_eq rfl stored
  store _ _ _ here stored := (agrees_storeInt _ _).routines_eq here stored
  pass _ here stored := (agrees_storeInt _ _).routines_eq here stored
  builtin here called := (agrees_callBuiltin _ _).routines_eq here called
  enter _ here entered := (agree_enter _).routines_eq here entered
  leave _ here left := (agrees_leave _).routines_eq here left

/-- If all functions have room for the arguments that they pass, then so has the innermost
activation in each state of a run. -/
theorem fits_of_reached (room : ∀ routine ∈ start.routines, routine.HasRoom) {task : Task}
    (reached : Reached start entry fuel stack machine task) :
    (∀ activation ∈ stack, activation.routine ∈ start.routines) ∧
      task.Fits start.routines stack machine := by
  induction reached with
  | start found stored => exact ⟨by simp, mem_of_routine? found⟩
  | enter reached entered ih =>
      obtain ⟨activations, member⟩ := ih
      exact ⟨List.forall_mem_cons.mpr ⟨member, activations⟩, trivial⟩
  | @execute fuel activation stack machine jumps position temps statement reached found ih =>
      have member := ih.1 activation (List.mem_cons_self ..)
      exact ⟨ih.1, activation, rfl, room _ member statement (Array.mem_of_getElem? found)⟩
  | next _ _ _ _ ih | jump _ _ _ _ _ ih | proceed _ _ ih => exact ⟨ih.1, trivial⟩
  | condition _ ih => exact ⟨ih.1, ih.2.mono (List.subset_append_left ..)⟩
  | expression _ ih => exact ih
  | assigned _ ih => exact ⟨ih.1, ih.2.mono (List.subset_append_left ..)⟩
  | place _ ih | stored _ _ ih =>
      refine ⟨ih.1, ih.2.mono fun event member => ?_⟩
      simp [Stmt.events, Expr.storeEvents, member]
  | address _ ih => exact ⟨ih.1, ih.2.mono (List.subset_append_left ..)⟩
  | left _ ih | right _ _ ih =>
      refine ⟨ih.1, ih.2.mono fun event member => ?_⟩
      simp [Expr.events, member]
  | arguments _ ih => exact ⟨ih.1, ih.2.mono (List.subset_append_left ..)⟩
  | first _ ih => exact ⟨ih.1, ih.2.mono (List.subset_append_left ..)⟩
  | others _ _ ih => exact ⟨ih.1, ih.2.mono (List.subset_append_right ..)⟩
  | call _ evaluated ih =>
      obtain ⟨activations, caller, isCaller, fit⟩ := ih
      refine ⟨activations, caller, isCaller, ?_⟩
      rw [evalAll_length evaluated]
      exact fit _ _ (List.mem_append_right _ (List.mem_singleton_self _))
  | pass reached _ found ih =>
      obtain ⟨activations, caller, isCaller, fit⟩ := ih
      have same := (preserved_routines _ _).of_reached reached
      refine ⟨activations, same ▸ mem_of_routine? found, caller, isCaller, le_refl _, ?_⟩
      omega
  | @passed fuel stack machine _ routine address value rest _ stored ih =>
      obtain ⟨activations, member, caller, isCaller, above, below⟩ := ih
      obtain ⟨-, rfl⟩ := storeInt_eq_ok.mp stored
      refine ⟨activations, member, caller, isCaller, ?_, ?_⟩
      · exact above.trans (Int.le_add_of_nonneg_right (by decide))
      · change address + Word.size + Word.size * rest.length ≤
          machine.stackPointer + caller.routine.frame.argumentsSize
        rw [List.length_cons] at below
        unfold Word.size at *
        omega
  | invoke _ ih => exact ⟨ih.1, ih.2.1⟩

end Passing

end TreeBackend.Machine
