import Mathlib.Algebra.Order.Floor.Ring
import Mathlib.Data.Rat.Floor
import TreeBackend.Proofs.Counting.Beginning

/-!
# The rounds of a counting loop

As long as the body of a counting loop leaves the counter alone, each round adds the stride to the
counter once, and the bound and the stride stay what they were.  The rounds are counted by
induction on how many there are: one round leads back to the test with the next value of the
counter, and the last test leads out.
-/

namespace TreeBackend.Machine

open Filter
open IR (Expr Stmt Temp)
open Flattening (CountingLoop)
open Lowering

/-- A loop is at its test: the counter and the temporaries hold certain numbers, and writing to the
counter does not move it. -/
structure IsAtTest (loop : CountingLoop) (level : Nat) (storage : Storage)
    (number high step : Int) (temps : Temps) (machine : Machine) : Prop where
  counter : machine.numberOf? level storage = some number
  bound : temps.get? loop.bound = some high
  stride : temps.get? loop.stride = some step
  apart : machine.IsApart level storage

/-- The numbers in the cell of a variable at those points of a path that are at a position. -/
def numbersAt (level : Nat) (storage : Storage) (position : Nat) (points : List Point) :
    List (Option Int) :=
  (points.filter fun point => point.position = position).map fun point =>
    point.machine.numberOf? level storage

section NumbersAt

variable {level : Nat} {storage : Storage} {position : Nat} {points others : List Point}

theorem numbersAt_cons (point : Point) : numbersAt level storage position (point :: points) =
    if point.position = position then
      point.machine.numberOf? level storage :: numbersAt level storage position points
    else numbersAt level storage position points := by
  by_cases isThere : point.position = position <;> simp [numbersAt, isThere]

@[simp] theorem numbersAt_nil : numbersAt level storage position [] = [] := rfl

theorem numbersAt_append : numbersAt level storage position (points ++ others) =
    numbersAt level storage position points ++ numbersAt level storage position others := by
  simp [numbersAt]

theorem numbersAt_of_forall_ne (elsewhere : ∀ point ∈ points, point.position ≠ position) :
    numbersAt level storage position points = [] := by
  rw [numbersAt, List.filter_eq_nil_iff.mpr, List.map_nil]
  simpa using elsewhere

end NumbersAt

/-! ### The test and the advance -/

section Statements

variable {loop : CountingLoop} {context : LoweringContext} {level : Nat} {storage : Storage}
  {counter lowExpr highExpr stepExpr body : Source.Expr} {number high step cell : Int}
  {temps : Temps} {machine : Machine} {call : Label → List Int → Exec Int}

theorem eval_test
    (isLoop : IsCountingLoop context level storage counter lowExpr highExpr stepExpr body loop)
    (holds : machine.numberOf? level storage = some number)
    (bound : temps.get? loop.bound = some high) :
    eval call temps loop.test machine = .ok (Word.ofBool (decide (number < high))) machine := by
  obtain ⟨reference, name, -, locates⟩ := isLoop.counter
  refine eval_binop_eq_ok.mpr ⟨number, machine, high, ?_, ?_, rfl⟩
  · exact locates.eval_mem_eq_ok.mpr ⟨holds, rfl⟩
  · rw [eval_temp]
    exact readTemp_eq_ok.mpr ⟨bound, rfl⟩

theorem execute_advance
    (isLoop : IsCountingLoop context level storage counter lowExpr highExpr stepExpr body loop)
    (isCell : machine.cellOf? level storage = some cell)
    (holds : machine.memory.read? cell = some (.int number))
    (stride : temps.get? loop.stride = some step) (fits : Word.Fits (number + step)) :
    execute call temps loop.advance machine =
      .ok ⟨none, temps⟩ (machine.writeWord cell (.int (number + step))) := by
  obtain ⟨reference, name, -, locates⟩ := isLoop.counter
  have sum : eval call temps (.binop .add (.mem loop.address) (.temp loop.stride)) machine =
      .ok (number + step) machine := by
    refine eval_binop_eq_ok.mpr ⟨number, machine, step, ?_, ?_, ?_⟩
    · exact locates.eval_mem_eq_ok.mpr ⟨numberOf?_eq_some.mpr ⟨cell, isCell, holds⟩, rfl⟩
    · rw [eval_temp]
      exact readTemp_eq_ok.mpr ⟨stride, rfl⟩
    · rw [Operator.apply, Word.wrap_of_fits fits]
  exact execute_move_mem_eq_ok.mpr ⟨cell, machine, number + step, machine,
    locates.eval_eq_ok.mpr ⟨isCell, rfl⟩, sum, isAddress_of_read? holds, rfl, rfl⟩

namespace IsAtTest

/-- Writing to the counter does not move it. -/
theorem writeWord (isAt : IsAtTest loop level storage number high step temps machine)
    (isCell : machine.cellOf? level storage = some cell)
    (valid : machine.memory.isAddress cell = true) (next : Int) :
    IsAtTest loop level storage next high step temps (machine.writeWord cell (.int next)) where
  counter := isAt.apart.numberOf?_writeWord isCell valid next
  bound := isAt.bound
  stride := isAt.stride
  apart := isAt.apart.writeWord isCell valid _

/-- A body that leaves the counter and the temporaries of the loop alone leads to where the counter
is advanced. -/
theorem of_keepsCell (isAt : IsAtTest loop level storage number high step temps machine)
    {temps' : Temps} {machine' : Machine} (keeps : machine.KeepsCell level storage machine')
    (bound : temps'.get? loop.bound = temps.get? loop.bound)
    (stride : temps'.get? loop.stride = temps.get? loop.stride) :
    IsAtTest loop level storage number high step temps' machine' where
  counter := keeps.numberOf?_eq.trans isAt.counter
  bound := bound.trans isAt.bound
  stride := stride.trans isAt.stride
  apart := isAt.apart.of_keepsPath keeps.toKeepsPath

end IsAtTest

end Statements

/-! ### Rounds -/

namespace Code

variable {code : Code} {loop : CountingLoop} {context : LoweringContext} {level : Nat}
  {storage : Storage} {counter lowExpr highExpr stepExpr body : Source.Expr}
  {number high step : Int} {head : Nat} {temps : Temps} {machine : Machine}

/-- Whenever a run from a point on is about to go through the body of a loop, it does so, and
leaves the counter and what leads there alone. -/
def KeepsCounter (code : Code) (loop : CountingLoop) (level : Nat) (storage : Storage)
    (head : Nat) (start : Point) : Prop :=
  ∀ temps machine,
    code.StaysWithin head (head + loop.rounds.length) start ⟨head + 2, temps, machine⟩ →
    ∃ temps' machine', code.Passes (head + 3) loop.body temps machine temps' machine' ∧
      machine.SparesCell level storage machine'

theorem KeepsCounter.later {start next : Point}
    (keeps : code.KeepsCounter loop level storage head start)
    (stays : code.StaysWithin head (head + loop.rounds.length) start next) :
    code.KeepsCounter loop level storage head next :=
  fun temps machine further => keeps temps machine (stays.trans further)

theorem length_rounds (loop : CountingLoop) : loop.rounds.length = loop.body.length + 6 := by
  simp [CountingLoop.rounds]

theorem moves_test
    (isLoop : IsCountingLoop context level storage counter lowExpr highExpr stepExpr body loop)
    (placed : code.Placed head loop.rounds)
    (holds : machine.numberOf? level storage = some number)
    (bound : temps.get? loop.bound = some high) :
    code.Moves ⟨head + 1, temps, machine⟩
      ⟨if number < high then head + 2 else head + 3 + loop.body.length + 2, temps, machine⟩ := by
  have atBody := placed.tail.tail
  have atEnd := atBody.tail.right.tail.tail
  have tested : eval (code.calls 0) temps loop.test machine = _ := eval_test isLoop holds bound
  by_cases goesOn : number < high
  · rw [if_pos goesOn]
    rw [decide_eq_true goesOn] at tested
    exact .jump placed.tail.head (execute_cjump_eq_ok.mpr ⟨_, tested, rfl⟩) atBody.head_target
  · rw [if_neg goesOn]
    rw [decide_eq_false goesOn] at tested
    exact .jump placed.tail.head (execute_cjump_eq_ok.mpr ⟨_, tested, rfl⟩) atEnd.head_target

/-- A run that fails the test leaves the loop. -/
theorem exists_path_out (isAt : IsAtTest loop level storage number high step temps machine)
    (isLoop : IsCountingLoop context level storage counter lowExpr highExpr stepExpr body loop)
    (placed : code.Placed head loop.rounds) (done : high ≤ number) :
    ∃ points, code.Path head (head + loop.rounds.length) ⟨head, temps, machine⟩ points
        ⟨head + loop.rounds.length, temps, machine⟩ ∧
      numbersAt level storage (head + 2) points = [] := by
  have whole := length_rounds loop
  have test := moves_test isLoop placed isAt.counter isAt.bound
  rw [if_neg (Int.not_lt.mpr done)] at test
  have isLast : head + loop.rounds.length = head + 3 + loop.body.length + 2 + 1 := by omega
  have behind : code.Moves ⟨head + 3 + loop.body.length + 2, temps, machine⟩
      ⟨head + loop.rounds.length, temps, machine⟩ := by
    rw [isLast]
    exact .of_label placed.tail.tail.tail.right.tail.tail.head
  have first : code.StepsWithin head (head + loop.rounds.length) ⟨head, temps, machine⟩ _ :=
    .of_moves (.of_label placed.head) (Nat.le_refl _) (by omega)
  refine ⟨_, .step first (.step (.of_moves test (by omega) (by omega))
    (.step (.of_moves behind (by omega) (by omega)) .here)), ?_⟩
  have elsewhere : head + 3 + loop.body.length + 2 ≠ head + 2 := by omega
  simp only [numbersAt_cons, numbersAt_nil, if_neg elsewhere]
  simp

variable {statements : Array Stmt} {jumps : Table Label Nat}

/-- A run that passes the test goes through the body once, and comes back to the test with the
counter advanced. -/
theorem exists_round (isAt : IsAtTest loop level storage number high step temps machine)
    (isLoop : IsCountingLoop context level storage counter lowExpr highExpr stepExpr body loop)
    (placed : (ofBody statements jumps).Placed head loop.rounds) (goesOn : number < high)
    (fits : Word.Fits (number + step))
    (keeps : (ofBody statements jumps).KeepsCounter loop level storage head
      ⟨head, temps, machine⟩) :
    ∃ points temps' machine', (ofBody statements jumps).Path head (head + loop.rounds.length)
        ⟨head, temps, machine⟩ points ⟨head, temps', machine'⟩ ∧
      numbersAt level storage (head + 2) points = [some number] ∧
      IsAtTest loop level storage (number + step) high step temps' machine' := by
  have whole := length_rounds loop
  have atBody := placed.tail.tail
  have behind := atBody.tail.right
  have test := moves_test isLoop placed isAt.counter isAt.bound
  rw [if_pos goesOn] at test
  -- Up to the body, nothing but the position changes.
  have first : (ofBody statements jumps).StepsWithin head (head + loop.rounds.length)
      ⟨head, temps, machine⟩ _ :=
    .of_moves (.of_label placed.head) (Nat.le_refl _) (by omega)
  have enters := Path.step first (.step (.of_moves test (by omega) (by omega)) .here)
  obtain ⟨temps', machine', passes, spares⟩ := keeps temps machine enters.staysWithin
  have same := spares.keepsCell (passes.standing (.refl machine)).toSteady
  obtain ⟨points, through⟩ := StaysWithin.exists_path passes.runs
  have isThere := isAt.of_keepsCell same
    (passes.get?_temp fun source member =>
      isLoop.bound_spared source (List.mem_append_right _ member))
    (passes.get?_temp isLoop.stride_spared)
  obtain ⟨cell, isCell, holds⟩ := numberOf?_eq_some.mp isThere.counter
  have executed : execute ((ofBody statements jumps).calls 0) temps' loop.advance machine' = _ :=
    execute_advance isLoop isCell holds isThere.stride fits
  have isAgain := isThere.writeWord isCell (isAddress_of_read? holds) (number + step)
  have advances : (ofBody statements jumps).StepsWithin head (head + loop.rounds.length)
      ⟨head + 3 + loop.body.length, temps', machine'⟩ _ :=
    .of_moves (.next behind.head executed) (by omega) (by omega)
  have returns := Path.step advances
    (.step (.of_moves (.of_jump behind.tail.head placed.head_target) (by omega) (by omega)) .here)
  have enter : (ofBody statements jumps).StepsWithin head (head + loop.rounds.length)
      ⟨head + 2, temps, machine⟩ _ :=
    .of_moves (.of_label atBody.head) (by omega) (by omega)
  have inBody := Path.step enter (through.mono (by omega) (by omega))
  refine ⟨_, temps', _, enters.append (inBody.append returns), ?_, isAgain⟩
  have nowhere : numbersAt level storage (head + 2) points = [] :=
    numbersAt_of_forall_ne fun point member => (Nat.lt_of_succ_le (through.above point member)).ne'
  have elsewhere : head + 3 + loop.body.length ≠ head + 2 := by omega
  have further : head + 3 + loop.body.length + 1 ≠ head + 2 := by omega
  simp only [numbersAt_append, numbersAt_cons, nowhere, numbersAt_nil, if_neg elsewhere,
    if_neg further, isAt.counter]
  simp

/-- From a test on, a loop goes through as many rounds as it takes the counter to come to the
bound. -/
theorem exists_rounds
    (isLoop : IsCountingLoop context level storage counter lowExpr highExpr stepExpr body loop)
    (placed : (ofBody statements jumps).Placed head loop.rounds) (positive : 0 < step)
    (noOverflow : high + step ≤ 9223372036854775807) {count : Nat}
    (isAt : IsAtTest loop level storage number high step temps machine)
    (fits : Word.Fits number) (below : ∀ index < count, number + index * step < high)
    (done : high ≤ number + count * step)
    (keeps : (ofBody statements jumps).KeepsCounter loop level storage head
      ⟨head, temps, machine⟩) :
    ∃ points temps' machine', (ofBody statements jumps).Path head (head + loop.rounds.length)
        ⟨head, temps, machine⟩ points ⟨head + loop.rounds.length, temps', machine'⟩ ∧
      numbersAt level storage (head + 2) points =
        (List.range count).map (fun index : Nat => some (number + index * step)) ∧
      machine'.numberOf? level storage = some (number + count * step) := by
  induction count generalizing number temps machine with
  | zero =>
      obtain ⟨points, path, nowhere⟩ := exists_path_out isAt isLoop placed (by simpa using done)
      exact ⟨points, temps, machine, path, nowhere, by simpa using isAt.counter⟩
  | succ count ih =>
      have goesOn : number < high := by simpa using below 0 (Nat.succ_pos count)
      have nextFits : Word.Fits (number + step) := by
        unfold Word.Fits at fits ⊢
        omega
      obtain ⟨first, between, middle, round, once, isNext⟩ :=
        exists_round isAt isLoop placed goesOn nextFits keeps
      have shift (index : Nat) : number + (index + 1 : Nat) * step =
          number + step + index * step := by
        push_cast
        ring
      obtain ⟨rest, temps', machine', path, others, final⟩ := ih isNext nextFits
        (fun index less => shift index ▸ below (index + 1) (Nat.succ_lt_succ less))
        (shift count ▸ done) (keeps.later round.staysWithin)
      refine ⟨first ++ rest, temps', machine', round.append path, ?_, shift count ▸ final⟩
      rw [numbersAt_append, once, others, List.range_succ_eq_map, List.map_cons, List.map_map]
      simp only [Function.comp_def, Nat.succ_eq_add_one, shift]
      simp

end Code

/-! ### The loop as a whole -/

/-- As many steps as fit below a bound are taken. -/
theorem exists_count (low high : Int) {step : Int} (positive : 0 < step) : ∃ count : Nat,
    (count : Int) = max 0 ⌈(high - low : ℚ) / step⌉ ∧
      ∀ index : Nat, index < count ↔ low + index * step < high := by
  refine ⟨⌈(high - low : ℚ) / step⌉₊, ?_, fun index => ?_⟩
  · rw [← Int.ceil_toNat, Int.toNat_eq_max, max_comm]
  · have positiveRat : (0 : ℚ) < step := by exact_mod_cast positive
    rw [Nat.lt_ceil, lt_div_iff₀ positiveRat, lt_sub_iff_add_lt']
    exact_mod_cast Iff.rfl

/-- From its first test on, a loop goes through its body as often as it takes the counter to come
to the bound, with one more stride in the counter each time, and then the run goes on behind the
loop. -/
structure Counts (statements : Array Stmt) (jumps : Table Label Nat) (loop : CountingLoop)
    (level : Nat) (storage : Storage) (head : Nat) (low high step : Int) (temps : Temps)
    (machine : Machine) : Prop where
  rounds : ∃ (count : Nat) (points : List Point) (temps' : Temps) (machine' : Machine),
    (count : Int) = max 0 ⌈(high - low : ℚ) / step⌉ ∧
    (Code.ofBody statements jumps).Path head (head + loop.rounds.length) ⟨head, temps, machine⟩
      points ⟨head + loop.rounds.length, temps', machine'⟩ ∧
    (∀ᶠ fuel in atTop, runFrom (fuel + points.length) statements jumps head temps machine =
      runFrom fuel statements jumps (head + loop.rounds.length) temps' machine') ∧
    numbersAt level storage (head + 2) points =
      (List.range count).map (fun index : Nat => some (low + index * step)) ∧
    machine'.numberOf? level storage = some (low + count * step) ∧
    (∀ index < count, low + index * step < high) ∧ high ≤ low + count * step

/-- A loop whose body leaves the counter alone counts from the number in the counter up to the
bound. -/
theorem counts_of_isAtTest {statements : Array Stmt} {jumps : Table Label Nat}
    {loop : CountingLoop} {context : LoweringContext} {level : Nat} {storage : Storage}
    {counter lowExpr highExpr stepExpr body : Source.Expr} {low high step : Int} {head : Nat}
    {temps : Temps} {machine : Machine}
    (isLoop : IsCountingLoop context level storage counter lowExpr highExpr stepExpr body loop)
    (placed : (Code.ofBody statements jumps).Placed head loop.rounds)
    (isAt : IsAtTest loop level storage low high step temps machine) (fits : Word.Fits low)
    (positive : 0 < step) (noOverflow : high + step ≤ 9223372036854775807)
    (keeps : (Code.ofBody statements jumps).KeepsCounter loop level storage head
      ⟨head, temps, machine⟩) :
    Counts statements jumps loop level storage head low high step temps machine := by
  obtain ⟨count, isCount, less⟩ := exists_count low high positive
  have below : ∀ index < count, low + index * step < high := fun index => (less index).mp
  have done : high ≤ low + count * step := by
    by_contra before
    exact Nat.lt_irrefl _ ((less count).mpr (Int.not_le.mp before))
  obtain ⟨points, temps', machine', path, numbers, final⟩ :=
    Code.exists_rounds isLoop placed positive noOverflow isAt fits below done keeps
  exact ⟨count, points, temps', machine', isCount, path, path.runFrom_eq, numbers, final, below,
    done⟩

/-- A loop without a body whose counter is lost when it is advanced does not come to its end. -/
theorem not_counts_of_lost {statements : Array Stmt} {jumps : Table Label Nat}
    {loop : CountingLoop} {context : LoweringContext} {level : Nat} {storage : Storage}
    {counter lowExpr highExpr stepExpr body : Source.Expr} {low high step cell : Int} {head : Nat}
    {temps : Temps} {machine : Machine}
    (isLoop : IsCountingLoop context level storage counter lowExpr highExpr stepExpr body loop)
    (placed : (Code.ofBody statements jumps).Placed head loop.rounds) (isEmpty : loop.body = [])
    (isCell : machine.cellOf? level storage = some cell)
    (holds : machine.memory.read? cell = some (.int low))
    (bound : temps.get? loop.bound = some high) (stride : temps.get? loop.stride = some step)
    (goesOn : low < high) (fits : Word.Fits (low + step))
    (lost : (machine.writeWord cell (.int (low + step))).numberOf? level storage = none) :
    ¬Counts statements jumps loop level storage head low high step temps machine := by
  rintro ⟨_, points, temps', machine', -, path, -⟩
  have whole := Code.length_rounds loop
  have noBody : loop.body.length = 0 := by rw [isEmpty, List.length_nil]
  have behind := placed.tail.tail.tail.right
  have test := Code.moves_test isLoop placed (numberOf?_eq_some.mpr ⟨cell, isCell, holds⟩) bound
  rw [if_pos goesOn] at test
  have advance : (Code.ofBody statements jumps).Moves
      ⟨head + 3 + loop.body.length, temps, machine⟩
      ⟨head + 3 + loop.body.length + 1, temps, machine.writeWord cell (.int (low + step))⟩ :=
    @Code.Moves.next _ 0 _ _ _ _ _ _ behind.head
      (execute_advance isLoop isCell holds stride fits)
  rw [noBody] at advance
  have back := behind.tail.head
  rw [noBody] at back
  have apart {position : Nat} {temps : Temps} {machine : Machine} (inside : position < head + 6) :
      (⟨head + loop.rounds.length, temps', machine'⟩ : Point) ≠ ⟨position, temps, machine⟩ := by
    intro same
    have positions := congrArg Point.position same
    dsimp only at positions
    omega
  -- The only run there is leads once around and back to the test.
  have inBody := (path.staysWithin.of_moves (.of_label placed.head) (apart (by omega))).of_moves
    test (apart (by omega))
  have advanced := (inBody.of_moves (.of_label placed.tail.tail.head) (apart (by omega))).of_moves
    advance (apart (by omega))
  have again := (advanced.of_moves (.of_jump back placed.head_target) (apart (by omega))).of_moves
    (.of_label placed.head) (apart (by omega))
  rcases Relation.ReflTransGen.cases_head again with same | ⟨_, steps, -⟩
  · exact apart (by omega) same.symm
  · obtain ⟨statement, _, found, executes, -⟩ := steps.moves.exists_execute
    obtain rfl := Option.some_inj.mp (placed.tail.head.symm.trans found)
    obtain ⟨fuel, executed⟩ := executes.exists
    obtain ⟨_, tested, -⟩ := execute_cjump_eq_ok.mp executed
    obtain ⟨_, _, _, reads, -⟩ := eval_binop_eq_ok.mp tested
    obtain ⟨reference, name, -, locates⟩ := isLoop.counter
    exact absurd ((locates.eval_mem_eq_ok.mp reads).1.symm.trans lost) nofun

end TreeBackend.Machine
