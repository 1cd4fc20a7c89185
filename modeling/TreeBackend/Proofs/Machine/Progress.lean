import TreeBackend.Proofs.Machine.Completion
import TreeBackend.Proofs.Machine.Fuel
import TreeBackend.Proofs.Machine.Passage

/-!
# Runs on their way

A run that has entered a piece of code and has not left it is somewhere in the piece.  In two
pieces in a row it is in the first one, or has gone through the first one and is in the second
one, and does not come back.  A run that leads from one point to another one takes as much fuel as
there are points on its way, apart from what its calls need.
-/

namespace TreeBackend.Machine

open Filter
open IR (Stmt)
open Flattening (JumpsInside)

namespace Code

variable {code : Code} {position first last : Nat} {piece front back : List Stmt}
  {point next final : Point} {temps : Temps} {machine : Machine}

/-- A run that stays from one position up to, but without, another one until it is where it is. -/
abbrev StaysWithin (code : Code) (first last : Nat) : Point → Point → Prop :=
  Relation.ReflTransGen (code.StepsWithin first last)

theorem Moves.of_label {label : Label}
    (found : code.statements[position]? = some (.label label)) :
    code.Moves ⟨position, temps, machine⟩ ⟨position + 1, temps, machine⟩ :=
  @Moves.next code 0 _ _ _ _ _ _ found (execute_label_eq_ok.mpr ⟨rfl, rfl⟩)

theorem Moves.of_jump {target : Nat} {label : Label}
    (found : code.statements[position]? = some (.jump label))
    (known : code.jumps.get? label = some target) :
    code.Moves ⟨position, temps, machine⟩ ⟨target, temps, machine⟩ :=
  @Moves.jump code 0 _ _ _ _ _ _ _ _ found (execute_jump_eq_ok.mpr ⟨rfl, rfl⟩) known

theorem StepsWithin.of_moves
    (moves : code.Moves ⟨position, temps, machine⟩ next) (above : first ≤ position)
    (below : position < last) : code.StepsWithin first last ⟨position, temps, machine⟩ next :=
  ⟨above, below, moves⟩

theorem StepsWithin.mono {least greatest : Nat} (steps : code.StepsWithin first last point next)
    (above : least ≤ first) (below : last ≤ greatest) :
    code.StepsWithin least greatest point next :=
  ⟨above.trans steps.above, steps.below.trans_le below, steps.moves⟩

/-! ### Pieces in a row -/

/-- A run that has entered a piece is in it or right behind it. -/
theorem StaysWithin.bounds
    (stays : code.StaysWithin position (position + piece.length) ⟨position, temps, machine⟩ point)
    (stands : code.Stands position piece) (inside : JumpsInside piece) :
    position ≤ point.position ∧ point.position ≤ position + piece.length := by
  induction stays with
  | refl => exact ⟨Nat.le_refl _, Nat.le_add_right _ _⟩
  | tail _ steps _ =>
      obtain ⟨above, lands⟩ := steps.moves.lands stands inside steps.above steps.below
      refine ⟨above, ?_⟩
      rcases lands with same | below
      · exact same ▸ steps.below
      · exact below.le

/-- A run that has entered two pieces in a row is in the first one, or it has gone through the
first one and is in the second one. -/
theorem StaysWithin.split
    (stays : code.StaysWithin position (position + (front ++ back).length)
      ⟨position, temps, machine⟩ point)
    (placed : code.Placed position (front ++ back)) (frontInside : JumpsInside front)
    (backInside : JumpsInside back) :
    code.StaysWithin position (position + front.length) ⟨position, temps, machine⟩ point ∨
      ∃ temps' machine', code.Passes position front temps machine temps' machine' ∧
        code.StaysWithin (position + front.length) (position + front.length + back.length)
          ⟨position + front.length, temps', machine'⟩ point := by
  rw [List.length_append, ← Nat.add_assoc] at stays
  induction stays with
  | refl => exact .inl .refl
  | @tail point next _ steps ih =>
      rcases ih with inFront | ⟨temps', machine', passes, inBack⟩
      · obtain ⟨above, upTo⟩ := inFront.bounds placed.left.stands frontInside
        rcases upTo.lt_or_eq with below | arrived
        · exact .inl (inFront.tail ⟨above, below, steps.moves⟩)
        · obtain ⟨_, temps', machine'⟩ := point
          obtain rfl := arrived
          exact .inr ⟨temps', machine', ⟨placed.left.stands, inFront⟩,
            .single ⟨Nat.le_refl _, steps.below, steps.moves⟩⟩
      · obtain ⟨above, -⟩ := inBack.bounds placed.right.stands backInside
        exact .inr ⟨temps', machine', passes, inBack.tail ⟨above, steps.below, steps.moves⟩⟩

/-! ### The points on the way -/

/-- The points that a run comes by, from the first one up to, but without, the last one.  All of
them are between two positions. -/
inductive Path (code : Code) (first last : Nat) : Point → List Point → Point → Prop
  | here {point : Point} : Path code first last point [] point
  | step {point next final : Point} {points : List Point} :
      code.StepsWithin first last point next → Path code first last next points final →
      Path code first last point (point :: points) final

namespace Path

variable {points others : List Point} {middle : Point}

theorem append (path : code.Path first last point points middle)
    (further : code.Path first last middle others final) :
    code.Path first last point (points ++ others) final := by
  induction path with
  | here => exact further
  | step steps _ ih => exact .step steps (ih further)

theorem mono {least greatest : Nat} (path : code.Path first last point points final)
    (above : least ≤ first) (below : last ≤ greatest) :
    code.Path least greatest point points final := by
  induction path with
  | here => exact .here
  | step steps _ ih => exact .step (steps.mono above below) ih

theorem above (path : code.Path first last point points final) :
    ∀ passed ∈ points, first ≤ passed.position := by
  induction path with
  | here => simp
  | step steps _ ih => exact List.forall_mem_cons.mpr ⟨steps.above, ih⟩

theorem staysWithin (path : code.Path first last point points final) :
    code.StaysWithin first last point final := by
  induction path with
  | here => exact .refl
  | step steps _ ih => exact .head steps ih

end Path

/-- A run that stays somewhere comes by points there. -/
theorem StaysWithin.exists_path (stays : code.StaysWithin first last point final) :
    ∃ points, code.Path first last point points final := by
  induction stays using Relation.ReflTransGen.head_induction_on with
  | refl => exact ⟨[], .here⟩
  | head steps _ ih =>
      obtain ⟨points, path⟩ := ih
      exact ⟨_, .step steps path⟩

section Fuel

variable {statements : Array Stmt} {jumps : Table Label Nat}

/-- What a statement does with some fuel it does with enough fuel. -/
theorem Moves.step (moves : (ofBody statements jumps).Moves point next) :
    (ofBody statements jumps).Step point next := by
  have prolonged {fuel more : Nat} (enough : fuel ≤ more) :
      CallsProlong ((ofBody statements jumps).calls fuel) ((ofBody statements jumps).calls more) :=
    callLabel_prolongs fun _ _ => runFrom_prolongs enough _ _ _ _
  cases moves with
  | @next fuel _ _ _ _ _ _ found executed =>
      refine .next found (eventually_atTop.mpr ⟨fuel, fun more enough => ?_⟩)
      exact (execute_prolongs (prolonged enough) _).ok executed
  | @jump fuel _ _ _ _ _ _ _ _ found executed known =>
      refine .jump found (eventually_atTop.mpr ⟨fuel, fun more enough => ?_⟩) known
      exact (execute_prolongs (prolonged enough) _).ok executed

/-- What a statement does, and where it leads. -/
theorem Moves.exists_execute (moves : (ofBody statements jumps).Moves point next) :
    ∃ statement continuation, statements[point.position]? = some statement ∧
      (∀ᶠ fuel in atTop, execute ((ofBody statements jumps).calls fuel) point.temps statement
        point.machine = .ok continuation next.machine) ∧
      continuation.temps = next.temps ∧
      continuation.jump.elim (some (point.position + 1)) jumps.get? = some next.position := by
  cases moves.step with
  | next found executes => exact ⟨_, _, found, executes, rfl, rfl⟩
  | jump found executes known => exact ⟨_, _, found, executes, rfl, known⟩

theorem Moves.unique {other : Point} (moves : (ofBody statements jumps).Moves point next)
    (again : (ofBody statements jumps).Moves point other) : next = other := by
  obtain ⟨statement, done, found, executes, sameTemps, lands⟩ := moves.exists_execute
  obtain ⟨_, _, foundAgain, executesAgain, otherTemps, landsAgain⟩ := again.exists_execute
  obtain rfl := Option.some_inj.mp (found.symm.trans foundAgain)
  obtain ⟨fuel, first, second⟩ := (executes.and executesAgain).exists
  obtain ⟨rfl, machines⟩ := EStateM.Result.ok.inj (first.symm.trans second)
  have positions := Option.some_inj.mp (lands.symm.trans landsAgain)
  cases next
  cases other
  cases positions
  cases machines
  cases sameTemps
  cases otherTemps
  rfl

/-- A run that gets anywhere else goes where the first statement leads. -/
theorem StaysWithin.of_moves
    (stays : (ofBody statements jumps).StaysWithin first last point final)
    (moves : (ofBody statements jumps).Moves point next) (elsewhere : final ≠ point) :
    (ofBody statements jumps).StaysWithin first last next final := by
  rcases Relation.ReflTransGen.cases_head stays with same | ⟨other, steps, rest⟩
  · exact (elsewhere same.symm).elim
  · exact moves.unique steps.moves ▸ rest

/-- With enough fuel, a run goes on where a path leads. -/
theorem Path.runFrom_eq {points : List Point}
    (path : (ofBody statements jumps).Path first last point points final) :
    ∀ᶠ fuel in atTop,
      Machine.runFrom (fuel + points.length) statements jumps point.position point.temps
          point.machine =
        Machine.runFrom fuel statements jumps final.position final.temps final.machine := by
  induction path with
  | here => exact .of_forall fun _ => rfl
  | @step point next final points steps _ ih =>
      have begins :=
        (tendsto_add_atTop_nat points.length).eventually steps.moves.step.runFrom_eq
      filter_upwards [begins, ih] with fuel begins ends
      rw [List.length_cons, ← Nat.add_assoc, begins, ends]

end Fuel

end Code

end TreeBackend.Machine
