import TreeBackend.Proofs.Calls.Invariant
import TreeBackend.Proofs.Machine.Traversal

/-!
# Steady runs

In a lexically scoped program whose frames fit, each statement that is run gives the pointers
back, for what it calls restores them.
-/

namespace TreeBackend

open Source (Program)
open Machine
open IR (Chunk)

section Steady

variable {program : Program} {table : FrameTable} {start : Machine} {call : Call}
  {older : List Call} {jumps : Table Label Nat} {point next : Point}

/-- A statement of the innermost call leaves the frames of all calls as they were. -/
theorem StandsAt.moves (hosts : Hosts program table start)
    (stack : IsStack program table start (call :: older))
    (stands : StandsAt start call older point.position point.temps point.machine)
    (moves : (Code.ofBody call.routine.statements jumps).Moves point next) :
    StandsAt start call older next.position next.temps next.machine := by
  cases moves with
  | next found executed =>
      exact (stands.execute hosts stack (callWith_keeps hosts stack _) found executed).1
  | jump found executed known =>
      exact (stands.execute hosts stack (callWith_keeps hosts stack _) found executed).2 nofun _

/-- However many statements are run, the frames stay as they were. -/
theorem StandsAt.reaches (hosts : Hosts program table start)
    (stack : IsStack program table start (call :: older))
    (stands : StandsAt start call older point.position point.temps point.machine)
    (reaches : Relation.ReflTransGen (Code.ofBody call.routine.statements jumps).Moves point next) :
    StandsAt start call older next.position next.temps next.machine := by
  induction reaches with
  | refl => exact stands
  | tail _ moves ih => exact ih.moves hosts stack moves

theorem StandsAt.isSteadyFrom (hosts : Hosts program table start)
    (stack : IsStack program table start (call :: older))
    (stands : StandsAt start call older point.position point.temps point.machine) :
    (Code.ofBody call.routine.statements jumps).IsSteadyFrom point := by
  intro middle next reaches moves
  have before := stands.reaches hosts stack reaches
  exact before.finished.sameLabels (before.moves hosts stack moves).finished

theorem isSteadyFrom_of_reached {chunks : List Chunk} {config : Config} {machine current : Machine}
    (inScope : program.IsConfined) (framesFit : program.FramesFit)
    (globalsFit : program.GlobalsFit) (compiled : compile program = .ok chunks)
    (loaded : load chunks config = .ok machine) (output : Option Sink) {fuel : Nat}
    {activation : Activation} {stack : List Activation}
    {position : Nat} {temps : Temps}
    (reached : Reached { machine with output } mainLabel fuel (activation :: stack) current
      (.run jumps position temps)) :
    (Code.ofBody activation.routine.statements jumps).IsSteadyFrom
      ⟨position, temps, current⟩ := by
  obtain ⟨table, _, -, hosts, -⟩ := exists_hosts inScope framesFit globalsFit compiled loaded
  have hosts := hosts.withOutput output
  obtain ⟨calls, same, inOrder, stands⟩ := holdsIn_of_reached hosts reached
  cases calls with
  | nil => cases same
  | cons call older =>
      obtain ⟨rfl, -⟩ := List.cons.inj same
      exact StandsAt.isSteadyFrom hosts inOrder stands

end Steady

end TreeBackend
