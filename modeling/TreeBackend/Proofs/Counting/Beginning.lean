import TreeBackend.Proofs.Counting.Cells
import TreeBackend.Proofs.Lowering.Counting
import TreeBackend.Proofs.Machine.Progress

/-!
# How a counting loop begins

Before its first test, a counting loop computes its first value and stores it in the counter, then
computes its bound and its stride and notes them.  A run through the loop is in one of these parts,
or it has gone through each of them once, in this order, and does not come back.
-/

namespace TreeBackend.Machine.Code

open IR (Expr Stmt Temp)
open Flattening (CountingLoop JumpsInside KeepsPlace)
open Lowering

/-- A run computes the first value of a loop and stores it in the cell of the counter.  The cell is
found before the value is computed, but the label of a global variable is looked up in between. -/
structure Starts (code : Code) (loop : CountingLoop) (level : Nat) (storage : Storage)
    (position : Nat) (temps : Temps) (machine : Machine) (first : Int) (temps' : Temps)
    (machine' : Machine) : Prop where
  phases : ∃ place noted start last,
    (machine.cellOf? level storage = some place ∨ ∃ slot between, storage = .global slot ∧
      code.Passes start loop.low.before noted machine temps' between ∧
      between.cellOf? level storage = some place) ∧
    (noted = temps ∨ ∃ temp, noted = temps.insert temp place) ∧
    code.Evaluation start loop.low noted machine first temps' last ∧
    last.memory.isAddress place = true ∧ machine' = last.writeWord place (.int first)

/-- A run evaluates an expression and notes the value in a temporary. -/
structure Notes (code : Code) (flat : Flattened) (temp : Temp) (position : Nat) (temps : Temps)
    (machine : Machine) (value : Int) (temps' : Temps) (machine' : Machine) : Prop where
  phases : ∃ noted, code.Evaluation position flat temps machine value noted machine' ∧
    temps' = noted.insert temp value

/-- A run stores the first value of a loop in the counter, then notes the bound and then the
stride. -/
structure SetsUp (code : Code) (loop : CountingLoop) (level : Nat) (storage : Storage)
    (position : Nat) (temps : Temps) (machine : Machine) (low high step : Int) (temps' : Temps)
    (machine' : Machine) : Prop where
  phases : ∃ behindLow afterLow behindHigh afterHigh,
    code.Starts loop level storage position temps machine low behindLow afterLow ∧
    code.Notes loop.high loop.bound (position + loop.start.length) behindLow afterLow high
      behindHigh afterHigh ∧
    code.Notes loop.step loop.stride (position + loop.start.length + loop.limit.length) behindHigh
      afterHigh step temps' machine'

/-- A run through a loop is about to store the first value in the counter, or it has done so and is
about to note the bound, or it has done so and is about to note the stride, or it has done all this
and is among the rounds. -/
inductive IsUnderWay (code : Code) (loop : CountingLoop) (level : Nat) (storage : Storage)
    (position : Nat) (temps : Temps) (machine : Machine) (point : Point) : Prop
  | low : code.StaysWithin position (position + loop.start.length) ⟨position, temps, machine⟩
      point → IsUnderWay code loop level storage position temps machine point
  | high {low : Int} {temps' : Temps} {machine' : Machine} {start : Nat} :
      code.Starts loop level storage position temps machine low temps' machine' →
      start = position + loop.start.length →
      code.StaysWithin start (start + loop.limit.length) ⟨start, temps', machine'⟩ point →
      IsUnderWay code loop level storage position temps machine point
  | step {low high : Int} {behind temps' : Temps} {after machine' : Machine} {start : Nat} :
      code.Starts loop level storage position temps machine low behind after →
      code.Notes loop.high loop.bound (position + loop.start.length) behind after high temps'
        machine' →
      start = position + loop.start.length + loop.limit.length →
      code.StaysWithin start (start + loop.pace.length) ⟨start, temps', machine'⟩ point →
      IsUnderWay code loop level storage position temps machine point
  | rounds {low high step : Int} {temps' : Temps} {machine' : Machine} {start : Nat} :
      code.SetsUp loop level storage position temps machine low high step temps' machine' →
      start = position + loop.start.length + loop.limit.length + loop.pace.length →
      code.StaysWithin start (start + loop.rounds.length) ⟨start, temps', machine'⟩ point →
      IsUnderWay code loop level storage position temps machine point

section Loop

variable {code : Code} {loop : CountingLoop} {context : LoweringContext} {level : Nat}
  {storage : Storage} {counter lowExpr highExpr stepExpr body : Source.Expr} {position : Nat}
  {temps temps' : Temps} {machine machine' : Machine} {flat : Flattened} {temp : Temp}

/-- A run that notes a value evaluates it. -/
theorem Passes.notes
    (passes : code.Passes position (flat.before ++ [.move (.temp temp) flat.value]) temps machine
      temps' machine')
    (placed : code.Placed position (flat.before ++ [.move (.temp temp) flat.value]))
    (inside : JumpsInside flat.before) :
    ∃ value, code.Notes flat temp position temps machine value temps' machine' := by
  obtain ⟨noted, between, isFlat, isMove⟩ := passes.split_of_stands placed.left.stands
    placed.right.stands inside (.straight (by simp [Stmt.exits]))
  obtain ⟨fuel, value, evaluated, rfl⟩ := isMove.of_move
  exact ⟨value, noted, ⟨between, fuel, isFlat, evaluated⟩, rfl⟩

/-- However the address of a variable outlives the statements of a value, it is that of the cell
ahead of these statements, or the label of a global variable. -/
theorem Passes.cellOf?_of_keepsPlace {reference : Source.Node} {address name : Expr}
    {kept : List Stmt} {start : Nat} {noted : Temps} {located between middle : Machine} {fuel : Nat}
    {place : Int} (isKept : code.Passes position kept temps machine noted located)
    (keeps : KeepsPlace ⟨[], address⟩ flat kept name)
    (locates : Locates context level reference storage address)
    (isFlat : code.Passes start flat.before noted located temps' between)
    (places : eval (code.calls fuel) temps' name between = .ok place middle) :
    middle = between ∧ located = machine ∧
      (noted = temps ∨ ∃ temp, noted = temps.insert temp place) ∧
      (machine.cellOf? level storage = some place ∨ ∃ slot, storage = .global slot ∧
        between.cellOf? level storage = some place) := by
  cases keeps with
  | unneeded atOnce =>
      obtain ⟨rfl, rfl⟩ := isKept.of_nil
      rw [atOnce] at isFlat
      obtain ⟨rfl, rfl⟩ := isFlat.of_nil
      obtain ⟨isCell, rfl⟩ := locates.eval_eq_ok.mp places
      exact ⟨rfl, rfl, .inl rfl, .inl isCell⟩
  | unchanged fixed _ =>
      obtain ⟨rfl, rfl⟩ := isKept.of_nil
      obtain ⟨isCell, rfl⟩ := locates.eval_eq_ok.mp places
      rcases locates.cases with ⟨slot, isGlobal, -⟩ | ⟨slot, -, -, rfl⟩
      · exact ⟨rfl, rfl, .inl rfl, .inr ⟨slot, isGlobal, isCell⟩⟩
      · cases fixed
  | @moved temp spared =>
      obtain ⟨_, value, evaluated, rfl⟩ := isKept.of_move
      obtain ⟨isCell, rfl⟩ := locates.eval_eq_ok.mp evaluated
      rw [eval_temp] at places
      obtain ⟨isHeld, rfl⟩ := readTemp_eq_ok.mp places
      rw [isFlat.get?_temp spared, Table.get?_insert, if_pos rfl] at isHeld
      obtain rfl := Option.some_inj.mp isHeld
      exact ⟨rfl, rfl, .inr ⟨temp, rfl⟩, .inl isCell⟩

/-- A run through the start of a loop finds the cell of the counter, then computes the first value
and then stores it. -/
theorem Passes.starts
    (passes : code.Passes position loop.start temps machine temps' machine')
    (isLoop : IsCountingLoop context level storage counter lowExpr highExpr stepExpr body loop)
    (placed : code.Placed position loop.start) :
    ∃ low, code.Starts loop level storage position temps machine low temps' machine' := by
  obtain ⟨reference, name, -, locates⟩ := isLoop.counter
  have lowInside := isLoop.low.jumpsInside
  have storeInside : JumpsInside [.move (.mem loop.place) loop.low.value] :=
    .straight (by simp [Stmt.exits])
  obtain ⟨noted, _, isKept, rest⟩ := passes.split_of_stands placed.left.stands
    placed.right.stands isLoop.keeps.jumpsInside (lowInside.append storeInside)
  obtain ⟨_, between, isLow, isStore⟩ := rest.split_of_stands placed.right.left.stands
    placed.right.right.stands lowInside storeInside
  obtain ⟨fuel, executed⟩ := isStore.of_single rfl
  obtain ⟨place, _, low, last, places, computed, valid, rfl, same⟩ :=
    execute_move_mem_eq_ok.mp executed
  obtain ⟨-, rfl⟩ := Continuation.mk.inj same
  obtain ⟨rfl, rfl, isNoted, isCell⟩ :=
    isKept.cellOf?_of_keepsPlace isLoop.keeps locates isLow places
  refine ⟨low, place, noted, _, last, ?_, isNoted, ⟨_, fuel, isLow, computed⟩, valid, rfl⟩
  rcases isCell with ahead | ⟨slot, isGlobal, behind⟩
  · exact .inl ahead
  · exact .inr ⟨slot, _, isGlobal, isLow, behind⟩

/-- A run that has entered a loop is under way to the rounds or among them, and has gone through
all that comes before once. -/
theorem isUnderWay_of_staysWithin {point : Point}
    (stays : code.StaysWithin position (position + loop.code.length) ⟨position, temps, machine⟩
      point)
    (isLoop : IsCountingLoop context level storage counter lowExpr highExpr stepExpr body loop)
    (placed : code.Placed position loop.code) :
    code.IsUnderWay loop level storage position temps machine point := by
  have rounds := isLoop.rounds_jumpsInside
  have pace := isLoop.pace_jumpsInside
  have limit := isLoop.limit_jumpsInside
  have fromLimit : JumpsInside (loop.limit ++ (loop.pace ++ loop.rounds)) :=
    limit.append (pace.append rounds)
  rcases stays.split placed isLoop.start_jumpsInside fromLimit with
    inStart | ⟨behindLow, afterLow, start, stays⟩
  · exact .low inStart
  obtain ⟨low, starts⟩ := start.starts isLoop placed.left
  rcases stays.split placed.right limit (pace.append rounds) with
    inLimit | ⟨behindHigh, afterHigh, passLimit, stays⟩
  · exact .high starts rfl inLimit
  obtain ⟨high, notesHigh⟩ := passLimit.notes placed.right.left isLoop.high.jumpsInside
  rcases stays.split placed.right.right pace rounds with
    inPace | ⟨behindStep, afterStep, passPace, stays⟩
  · exact .step starts notesHigh rfl inPace
  obtain ⟨step, notesStep⟩ := passPace.notes placed.right.right.left isLoop.step.jumpsInside
  exact .rounds ⟨_, _, _, _, starts, notesHigh, notesStep⟩ rfl stays

namespace SetsUp

variable {low high step : Int}

theorem get?_eq
    (setsUp : code.SetsUp loop level storage position temps machine low high step temps' machine')
    (isLoop : IsCountingLoop context level storage counter lowExpr highExpr stepExpr body loop) :
    temps'.get? loop.bound = some high ∧ temps'.get? loop.stride = some step := by
  obtain ⟨_, _, _, _, -, notesHigh, notesStep⟩ := setsUp.phases
  obtain ⟨noted, -, rfl⟩ := notesHigh.phases
  obtain ⟨_, evaluation, rfl⟩ := notesStep.phases
  obtain ⟨_, _, passes, -⟩ := evaluation.result
  have spared : ∀ source, .move (.temp loop.bound) source ∉ loop.step.before :=
    fun source member => isLoop.bound_spared source (List.mem_append_left _ member)
  constructor
  · rw [Table.get?_insert, if_neg isLoop.apart.symm, passes.get?_temp spared, Table.get?_insert,
      if_pos rfl]
  · rw [Table.get?_insert, if_pos rfl]

variable (code) in
theorem of_constants {cell : Int} (position : Nat) (temps : Temps)
    (lowConst : loop.low = ⟨[], .const low⟩) (highConst : loop.high = ⟨[], .const high⟩)
    (stepConst : loop.step = ⟨[], .const step⟩) (isCell : machine.cellOf? level storage = some cell)
    (valid : machine.memory.isAddress cell = true) :
    code.SetsUp loop level storage position temps machine low high step
      ((temps.insert loop.bound high).insert loop.stride step)
      (machine.writeWord cell (.int low)) := by
  have constant (start : Nat) (temps : Temps) (machine : Machine) (value : Int) :
      code.Evaluation start ⟨[], .const value⟩ temps machine value temps machine :=
    ⟨machine, 0, .nil start temps machine, eval_const_eq_ok.mpr ⟨rfl, rfl⟩⟩
  have starts : code.Starts loop level storage position temps machine low temps
      (machine.writeWord cell (.int low)) :=
    ⟨cell, temps, position, machine, .inl isCell, .inl rfl, lowConst ▸ constant .., valid, rfl⟩
  exact ⟨_, _, _, _, starts, ⟨_, highConst ▸ constant .., rfl⟩, ⟨_, stepConst ▸ constant .., rfl⟩⟩

end SetsUp

end Loop

end TreeBackend.Machine.Code
