import TreeBackend.Proofs.Lowering.Forward
import TreeBackend.Proofs.Machine.Scanning
import TreeBackend.Proofs.Machine.Reached
import TreeBackend.Proofs.Machine.Traversal

/-!
# Jumps that lead forward

If each jump among flat statements goes to a place behind it, then the table of jumps leads to
higher positions only, since it has the last place of each label.  An activation then runs the
statements in the order in which they stand, and none of them twice.
-/

namespace TreeBackend

open IR (Stmt Event)

/-! ### Flat statements -/

namespace Flattening

/-- Each jump among flat statements goes to a place behind it. -/
def JumpsForward (items : List Stmt) : Prop :=
  ∀ front statement back, items = front ++ statement :: back →
    ∀ target ∈ statement.exits, .label target ∈ back

/-- A place in the run through plain statements is one of them. -/
theorem label_mem_of_mem_events {items : List Stmt} {label : Label} (plain : ArePlain items)
    (member : .label label ∈ Stmt.eventsOfList items) : .label label ∈ items := by
  rw [← mem_definedLabels, definedLabels_of_arePlain plain, Stmt.labelsOfList_eq_filterMap]
  exact List.mem_filterMap.mpr ⟨_, member, rfl⟩

/-- A statement that goes on elsewhere does so at its end. -/
theorem exists_events_eq_of_mem_exits {statement : Stmt} {target : Label}
    (isExit : target ∈ statement.exits) :
    ∃ before event, statement.events = before ++ [event] ∧ target ∈ event.targets := by
  cases statement with
  | jump place => exact ⟨[], .jump place, rfl, isExit⟩
  | cjump condition whenTrue whenFalse =>
      exact ⟨condition.events, .branch whenTrue whenFalse, rfl, isExit⟩
  | seq | label | exp | move => cases isExit

theorem jumpsForward_of_leadsForward {items : List Stmt} (plain : ArePlain items)
    (leads : LeadsForward (Stmt.eventsOfList items)) : JumpsForward items := by
  rintro front statement back rfl target isExit
  obtain ⟨before, event, sameEvents, isTarget⟩ := exists_events_eq_of_mem_exits isExit
  have order : Stmt.eventsOfList (front ++ statement :: back) =
      (Stmt.eventsOfList front ++ before) ++ event :: Stmt.eventsOfList back := by
    simp [Stmt.eventsOfList, sameEvents]
  refine label_mem_of_mem_events (fun other member => plain other ?_)
    (leads _ event _ order target isTarget)
  exact List.mem_append_right _ (List.mem_cons_of_mem _ member)

end Flattening

namespace Machine

open Flattening (JumpsForward)

/-! ### The table of jumps -/

theorem lastPlace_append (label : Label) (position : Nat) (front back : List Stmt) :
    lastPlace label position (front ++ back) =
      (lastPlace label (position + front.length) back).or (lastPlace label position front) := by
  induction front generalizing position with
  | nil => simp [lastPlace]
  | cons statement rest ih =>
      have further : position + (statement :: rest).length = position + 1 + rest.length := by
        simp only [List.length_cons]
        omega
      rw [further, List.cons_append]
      cases statement with
      | label place => rw [lastPlace, lastPlace, ih, Option.or_assoc]
      | seq | jump | cjump | exp | move => exact ih (position + 1)

theorem le_of_lastPlace {label : Label} {items : List Stmt} {position place : Nat}
    (found : lastPlace label position items = some place) : position ≤ place := by
  induction items generalizing position with
  | nil => cases found
  | cons statement rest ih =>
      cases statement with
      | label other =>
          rw [lastPlace, Option.or_eq_some_iff] at found
          rcases found with later | ⟨-, here⟩
          · exact Nat.le_of_succ_le (ih later)
          · split at here
            · exact Nat.le_of_eq (Option.some_inj.mp here)
            · cases here
      | seq | jump | cjump | exp | move => exact Nat.le_of_succ_le (ih found)

theorem isSome_lastPlace {label : Label} {items : List Stmt} (position : Nat)
    (member : .label label ∈ items) : (lastPlace label position items).isSome = true := by
  obtain ⟨front, back, rfl⟩ := List.append_of_mem member
  rw [lastPlace_append, lastPlace, if_pos rfl]
  simp

/-- A jump that leads forward goes on at a higher position. -/
theorem exists_later_target {items : List Stmt} (forward : JumpsForward items) {index : Nat}
    {statement : Stmt} {target : Label} (found : items[index]? = some statement)
    (isExit : target ∈ statement.exits) :
    ∃ place, (Routine.jumpsOf items).get? target = some place ∧ index < place := by
  obtain ⟨inBounds, rfl⟩ := List.getElem?_eq_some_iff.mp found
  have split : items = items.take index ++ items[index] :: items.drop (index + 1) := by
    rw [← List.drop_eq_getElem_cons inBounds, List.take_append_drop]
  have length : (items.take index).length = index := List.length_take_of_le inBounds.le
  have isBehind := forward _ _ _ split target isExit
  obtain ⟨place, isPlace⟩ :=
    Option.isSome_iff_exists.mp (isSome_lastPlace (index + 1) isBehind)
  refine ⟨place, ?_, le_of_lastPlace isPlace⟩
  rw [get?_jumpsOf, split, ← List.singleton_append, ← List.append_assoc, lastPlace_append,
    List.length_append, length, List.length_singleton, Nat.zero_add, isPlace, Option.some_or]

/-! ### Activations -/

/-- Runs the statements from a position on, and notes the position of each statement that is run,
in the order in which this happens, until the run ends or is broken off. -/
def logFrom : (fuel : Nat) → Array Stmt → Table Label Nat → Nat → Temps → Machine →
    EStateM.Result Interruption Machine Unit × List Nat
  | 0, _, _, _, _, machine => (.error .outOfFuel machine, [])
  | fuel + 1, statements, jumps, position, temps, machine =>
      match statements[position]? with
      | none => (.ok () machine, [])
      | some statement =>
          match execute (callWith fuel) temps statement machine with
          | .error reason final => (.error reason final, [position])
          | .ok next middle =>
              match next.jump with
              | none =>
                  let rest := logFrom fuel statements jumps (position + 1) next.temps middle
                  (rest.1, position :: rest.2)
              | some label =>
                  match jumps.get? label with
                  | none => (.error (.fault (.unknownJumpTarget label)) middle, [position])
                  | some target =>
                      let rest := logFrom fuel statements jumps target next.temps middle
                      (rest.1, position :: rest.2)

/-- Taking notes does not change a run. -/
theorem logFrom_fst (fuel : Nat) (statements : Array Stmt) (jumps : Table Label Nat)
    (position : Nat) (temps : Temps) (machine : Machine) :
    (logFrom fuel statements jumps position temps machine).1 =
      runFrom fuel statements jumps position temps machine := by
  induction fuel generalizing position temps machine with
  | zero => rfl
  | succ fuel ih =>
      unfold logFrom runFrom
      cases statements[position]? with
      | none => rfl
      | some statement =>
          change _ = EStateM.bind (execute (callWith fuel) temps statement) _ machine
          unfold EStateM.bind
          dsimp only
          cases execute (callWith fuel) temps statement machine with
          | error => rfl
          | ok next middle =>
              dsimp only
              cases next.jump with
              | none => exact ih _ _ _
              | some label =>
                  dsimp only
                  cases jumps.get? label with
                  | none => rfl
                  | some target => exact ih _ _ _

/-- The positions of the statements that an activation runs. -/
def visits (fuel : Nat) (statements : Array Stmt) (jumps : Table Label Nat) (position : Nat)
    (temps : Temps) (machine : Machine) : List Nat :=
  (logFrom fuel statements jumps position temps machine).2

/-- Where jumps lead forward, an activation runs statements at higher and higher positions. -/
theorem pairwise_visits {items : List Stmt} (forward : JumpsForward items) (fuel position : Nat)
    (temps : Temps) (machine : Machine) :
    (∀ place ∈ visits fuel items.toArray (Routine.jumpsOf items) position temps machine,
      position ≤ place) ∧
    (visits fuel items.toArray (Routine.jumpsOf items) position temps machine).Pairwise
      (· < ·) := by
  induction fuel generalizing position temps machine with
  | zero => simp [visits, logFrom]
  | succ fuel ih =>
      have onward (target : Nat) (later : position < target) (temps : Temps) (machine : Machine) :
          (∀ place ∈ position ::
              visits fuel items.toArray (Routine.jumpsOf items) target temps machine,
            position ≤ place) ∧
          (position ::
            visits fuel items.toArray (Routine.jumpsOf items) target temps machine).Pairwise
              (· < ·) := by
        obtain ⟨above, ordered⟩ := ih target temps machine
        refine ⟨List.forall_mem_cons.mpr ⟨Nat.le_refl _, fun place member => ?_⟩,
          List.pairwise_cons.mpr ⟨fun place member => ?_, ordered⟩⟩
        · exact later.le.trans (above place member)
        · exact later.trans_le (above place member)
      have alone : (∀ place ∈ [position], position ≤ place) ∧ [position].Pairwise (· < ·) := by
        simp
      unfold visits logFrom
      cases found : items.toArray[position]? with
      | none => simp
      | some statement =>
          dsimp only
          cases executed : execute (callWith fuel) temps statement machine with
          | error => exact alone
          | ok next middle =>
              dsimp only
              cases jumped : next.jump with
              | none => exact onward _ (Nat.lt_succ_self _) _ _
              | some label =>
                  obtain ⟨target, isTarget, later⟩ := exists_later_target forward
                    (by simpa using found) (mem_exits_of_execute executed jumped)
                  simp only [isTarget]
                  exact onward _ later _ _

end Machine

end TreeBackend
