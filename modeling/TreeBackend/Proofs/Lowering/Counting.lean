import TreeBackend.Proofs.Flattening.Control
import TreeBackend.Proofs.Lowering.Subscripts

/-!
# The code of a counting loop

A counting loop computes its first value and stores it in the counter, and then computes its bound
and its stride and notes them.  What follows is a loop that tests the counter, runs the body and
advances the counter.  The temporaries for the bound and the stride are drawn last, so nothing
else in the loop assigns them.
-/

namespace TreeBackend

open IR (Expr Stmt Temp TempSupply)

/-- The flat code of a counting loop. -/
structure Flattening.CountingLoop where
  labels : Lowering.Labels
  bound : Temp
  stride : Temp
  /-- The address of the counter. -/
  address : Expr
  /-- Keeps the address while the first value is computed, if need be. -/
  kept : List Stmt
  /-- What the address is called behind the statements of the first value. -/
  place : Expr
  low : Flattened
  high : Flattened
  step : Flattened
  body : List Stmt

namespace Flattening.CountingLoop

variable (loop : CountingLoop)

/-- Stores the first value in the counter. -/
def start : List Stmt := loop.kept ++ (loop.low.before ++ [.move (.mem loop.place) loop.low.value])

def limit : List Stmt := loop.high.before ++ [.move (.temp loop.bound) loop.high.value]

def pace : List Stmt := loop.step.before ++ [.move (.temp loop.stride) loop.step.value]

/-- Whether the counter is below the bound. -/
def test : Expr := .binop .lt (.mem loop.address) (.temp loop.bound)

def advance : Stmt :=
  .move (.mem loop.address) (.binop .add (.mem loop.address) (.temp loop.stride))

def rounds : List Stmt :=
  .label loop.labels.third :: .cjump loop.test loop.labels.first loop.labels.second ::
    .label loop.labels.first :: (loop.body ++
      [loop.advance, .jump loop.labels.third, .label loop.labels.second])

def code : List Stmt := loop.start ++ (loop.limit ++ (loop.pace ++ loop.rounds))

end Flattening.CountingLoop

namespace Lowering

open Flattening Source LoweringState

variable {context : LoweringContext} {level : Nat} {storage : Storage}
  {counter low high step body : Source.Expr}

/-- Statements are the lowered and flattened code of an expression whose value is not wanted. -/
structure HasEffect (context : LoweringContext) (level : Nat) (expression : Source.Expr)
    (flat : List Stmt) : Prop where
  compiled : ∃ state final code supply rest,
    Lowering.ofExpr context level expression state = .ok code final ∧
    ofStmt code.toStmt supply = .ok (flat, rest)

/-- The jumps of an expression go to places in its own code. -/
theorem HasEffect.jumpsInside {expression : Source.Expr} {flat : List Stmt}
    (code : HasEffect context level expression flat) : JumpsInside flat := by
  obtain ⟨_, _, _, _, _, lowered, flattened⟩ := code.compiled
  obtain ⟨around, rfl⟩ := exists_around level
  exact ofStmt_jumpsInside flattened (ofExpr_behaves expression around lowered).targets

/-- Statements are the code of a loop of the source, whose counter is a variable with a certain
storage. -/
structure IsCountingLoop (context : LoweringContext) (level : Nat) (storage : Storage)
    (counter low high step body : Source.Expr) (loop : CountingLoop) : Prop where
  counter : ∃ node name, counter = .name node name ∧
    Locates context level node storage loop.address
  low : HasCode context level low loop.low
  high : HasCode context level high loop.high
  step : HasCode context level step loop.step
  body : HasEffect context level body loop.body
  keeps : KeepsPlace ⟨[], loop.address⟩ loop.low loop.kept loop.place
  apart : loop.bound ≠ loop.stride
  bound_spared : ∀ source, .move (.temp loop.bound) source ∉ loop.step.before ++ loop.body
  stride_spared : ∀ source, .move (.temp loop.stride) source ∉ loop.body

namespace IsCountingLoop

variable {loop : CountingLoop}

theorem start_jumpsInside
    (isLoop : IsCountingLoop context level storage counter low high step body loop) :
    JumpsInside loop.start :=
  isLoop.keeps.jumpsInside.append
    (isLoop.low.jumpsInside.append (.straight (by simp [Stmt.exits])))

theorem limit_jumpsInside
    (isLoop : IsCountingLoop context level storage counter low high step body loop) :
    JumpsInside loop.limit :=
  isLoop.high.jumpsInside.append (.straight (by simp [Stmt.exits]))

theorem pace_jumpsInside
    (isLoop : IsCountingLoop context level storage counter low high step body loop) :
    JumpsInside loop.pace :=
  isLoop.step.jumpsInside.append (.straight (by simp [Stmt.exits]))

theorem rounds_jumpsInside
    (isLoop : IsCountingLoop context level storage counter low high step body loop) :
    JumpsInside loop.rounds := by
  intro statement member target isExit
  have inner := isLoop.body.jumpsInside
  simp only [CountingLoop.rounds, List.mem_cons, List.mem_append] at member ⊢
  rcases member with rfl | rfl | rfl | member | rfl | rfl | rfl | member
  · cases isExit
  · rcases List.mem_pair.mp isExit with rfl | rfl <;> simp
  · cases isExit
  · have isThere := inner statement member target isExit
    simp [isThere]
  · cases isExit
  · obtain rfl := List.mem_singleton.mp isExit
    simp
  · cases isExit
  · cases member

end IsCountingLoop

theorem exists_isCountingLoop {node : Node} {code : Stmt} {flat : List Stmt}
    {state final : LoweringState} {supply rest : TempSupply}
    (lowered : Lowering.ofExpr context level (.forLoop node counter low high step body) state =
      .ok (.stmt code) final)
    (above : final.temps.issued ≤ supply.issued)
    (flattened : ofStmt code supply = .ok (flat, rest)) :
    ∃ storage loop, IsCountingLoop context level storage counter low high step body loop ∧
      loop.code = flat := by
  obtain ⟨reference, name, cell, lowValue, afterLow, highValue, afterHigh, stepValue, afterStep,
    inner, last, rfl, reads, lows, highs, steps, bodied, rfl, same⟩ :=
    ofExpr_forLoop_eq_ok.mp lowered
  obtain rfl := Lowered.stmt.inj same
  obtain ⟨definition, storage, bound, stored, found, -⟩ := ofName_eq_ok.mp reads
  obtain ⟨address, rfl, -, noTemps⟩ := cell?_quiet found
  have locates : Locates context level reference storage address := ⟨⟨_, bound, stored⟩, found⟩
  obtain ⟨plain, quiet⟩ := locates.isPlain
  -- The code of the parts, from left to right.
  rw [ofStmt_forLoop_eq_ok, countingLoop, ofStmt_seq] at flattened
  obtain ⟨_, behindStart, _, starts, restStart, rfl⟩ := ofStmts_cons_eq_ok.mp flattened
  obtain ⟨_, behindLimit, _, limits, restLimit, rfl⟩ := ofStmts_cons_eq_ok.mp restStart
  obtain ⟨_, behindPace, _, paces, restPace, rfl⟩ := ofStmts_cons_eq_ok.mp restLimit
  obtain ⟨_, _, _, loops, nothing, rfl⟩ := ofStmts_cons_eq_ok.mp restPace
  obtain ⟨rfl, rfl⟩ := ofStmts_nil_eq_ok.mp nothing
  obtain ⟨test, _, _, tests, bodies, rfl⟩ := ofStmt_whileLoop_eq_ok.mp loops
  rw [ofExpr_of_isPlain_of_calls (by simp [IR.Expr.isPlain, plain])
    (by simp [IR.Expr.calls, quiet])] at tests
  obtain ⟨rfl, rfl⟩ := Prod.mk.inj (Except.ok.inj tests)
  rw [ofStmt_seq] at bodies
  obtain ⟨flatBody, _, _, isBody, restBody, rfl⟩ := ofStmts_cons_eq_ok.mp bodies
  obtain ⟨_, _, _, advances, nothing, rfl⟩ := ofStmts_cons_eq_ok.mp restBody
  obtain ⟨rfl, rfl⟩ := ofStmts_nil_eq_ok.mp nothing
  obtain rfl := ofStmt_move_of_isPlain plain quiet (by simp [IR.Expr.isPlain, plain])
    (by simp [IR.Expr.calls, quiet]) advances
  -- No temporary of a part is as young as those of the loop.
  have lowRange := ofExpr_ranges low lows
  have stepRange := ofExpr_ranges step steps
  have bodyRange := ofExpr_ranges body bodied
  rw [toStmt_temps] at lowRange stepRange
  have behindLow := ((ofExpr_precedes highs).trans (ofExpr_precedes steps)).trans
    (ofExpr_precedes bodied)
  have drawn : last.temps.issued + 2 ≤ supply.issued := above
  have aboveStart := ofStmt_issued_le _ starts
  have aboveLimit := ofStmt_issued_le _ limits
  have abovePace := ofStmt_issued_le _ paces
  have fresh {range : List Temp} {first final : LoweringState} {labels : List Label}
      (ranges : first.Ranges final labels range) (upTo : final.Precedes last) {temp : Temp}
      (young : last.temps.issued ≤ temp.number) : temp ∉ range := fun member =>
    absurd (ranges.temp temp member).2 (Nat.not_lt.mpr (upTo.temps.trans young))
  obtain ⟨lowFlat, _, kept, place, isLow, keeps, rfl⟩ := keepsPlace_of_ofStmt
    (ofExpr_of_isPlain_of_calls plain quiet) noTemps
    (fun temp member => by
      have young := (lowRange.temp temp member).2.trans_le behindLow.temps
      omega) starts
  rw [ofStmt_move] at limits paces
  obtain ⟨highFlat, isHigh, rfl⟩ := ofMove_temp_eq_ok.mp limits
  obtain ⟨stepFlat, isStep, rfl⟩ := ofMove_temp_eq_ok.mp paces
  refine ⟨storage, ⟨last.nextLabels, last.temps.next, last.temps.rest.next, address, kept, place,
    lowFlat, highFlat, stepFlat, flatBody⟩, ⟨⟨reference, name, rfl, locates⟩,
    ⟨_, _, _, _, _, lows, isLow⟩, ⟨_, _, _, _, _, highs, isHigh⟩, ⟨_, _, _, _, _, steps, isStep⟩,
    ⟨_, _, _, _, _, bodied, isBody⟩, keeps, ?_, ?_, ?_⟩, ?_⟩
  · simp [TempSupply.next, TempSupply.rest]
  · intro source member
    rcases List.mem_append.mp member with member | member
    · refine not_mem_before_of_fresh isStep (fresh stepRange (ofExpr_precedes bodied)
        (Nat.le_refl _)) (.inl ?_) source member
      change last.temps.issued < _
      omega
    · refine not_mem_of_fresh isBody (fresh bodyRange (.refl _) (Nat.le_refl _)) (.inl ?_) source
        member
      change last.temps.issued < _
      omega
  · intro source member
    refine not_mem_of_fresh isBody (fresh bodyRange (.refl _) (Nat.le_succ _)) (.inl ?_) source
      member
    change last.temps.issued + 1 < _
    omega
  · simp [CountingLoop.code, CountingLoop.start, CountingLoop.limit, CountingLoop.pace,
      CountingLoop.rounds, CountingLoop.test, CountingLoop.advance]

end Lowering

end TreeBackend
