import TreeBackend.Proofs.Lowering.Assignments
import TreeBackend.Proofs.Machine.Invocation
import TreeBackend.Proofs.Machine.Traversal

/-!
# Runs through a store

A run through the code of an assignment goes through the code of its target once, then through
the code of its value once, and then stores the value once.
-/

namespace TreeBackend.Machine

open IR (Expr Stmt Temp)
open Flattening (JumpsInside KeepsPlace IsStore)

theorem SameLabels.symm {first second : Machine} (same : SameLabels first second) :
    SameLabels second first := fun label => (same label).symm

/-- An address that may be computed twice is the same the second time. -/
theorem eval_of_isRepeatable {call : Label → List Int → Exec Int} {temps : Temps}
    {address : Expr} {machine machine' : Machine} {place : Int}
    (repeatable : Lowering.isRepeatable address = true) (noTemps : address.temps = [])
    (evaluated : eval call temps address machine = .ok place machine') :
    machine' = machine ∧ ∀ callAgain tempsAgain again, SameLabels machine again →
      eval callAgain tempsAgain address again = .ok place again := by
  match address with
  | .const _ =>
      obtain ⟨rfl, rfl⟩ := eval_const_eq_ok.mp evaluated
      exact ⟨rfl, fun _ _ _ _ => eval_const_eq_ok.mpr ⟨rfl, rfl⟩⟩
  | .name label =>
      rw [eval_name] at evaluated
      obtain ⟨known, rfl⟩ := labelAddress_eq_ok.mp evaluated
      refine ⟨rfl, fun _ _ again same => ?_⟩
      rw [eval_name]
      exact labelAddress_eq_ok.mpr ⟨(same label).trans known, rfl⟩
  | .temp _ => cases noTemps
  | .binop operator left right =>
      rw [Lowering.isRepeatable, Bool.and_eq_true] at repeatable
      rw [Expr.temps, List.append_eq_nil_iff] at noTemps
      obtain ⟨_, _, _, first, second, applied⟩ := eval_binop_eq_ok.mp evaluated
      obtain ⟨rfl, firstAgain⟩ := eval_of_isRepeatable repeatable.1 noTemps.1 first
      obtain ⟨rfl, secondAgain⟩ := eval_of_isRepeatable repeatable.2 noTemps.2 second
      exact ⟨rfl, fun callAgain tempsAgain again same => eval_binop_eq_ok.mpr
        ⟨_, again, _, firstAgain callAgain tempsAgain again same,
          secondAgain callAgain tempsAgain again same, applied⟩⟩
  | .mem _ | .call .. | .eseq .. => cases repeatable

/-- Fixed values may be computed twice. -/
theorem isRepeatable_of_isFixed {value : Expr} (fixed : value.isFixed = true) :
    Lowering.isRepeatable value = true := by
  cases value with
  | const | name | temp => rfl
  | mem | binop | call | eseq => cases fixed

namespace Code

variable {code : Code} {position : Nat} {cell source flat : Flattened} {temps temps' : Temps}
  {machine machine' : Machine}

/-- A run finds a place, then computes what is stored, and then stores it there.  Apart from
this it does nothing, but it may note the place in a temporary. -/
structure Stores (code : Code) (position : Nat) (cell source : Flattened) (temps : Temps)
    (machine : Machine) (place stored : Int) (temps' : Temps) (machine' : Machine) : Prop where
  phases : ∃ found located start noted last,
    code.Computes position cell temps machine place found located ∧
    (noted = found ∨ ∃ temp, noted = found.insert temp place) ∧
    position + cell.before.length ≤ start ∧
    code.Computes start source noted located stored temps' last ∧
    last.memory.isAddress place = true ∧ machine' = last.writeWord place (.int stored)

/-- However the address outlives the value, a run finds it once, before the value. -/
theorem stores_of_keepsPlace {kept : List Stmt} {address : Expr}
    (keeps : KeepsPlace cell source kept address) (cellInside : JumpsInside cell.before)
    (sourceInside : JumpsInside source.before)
    (traverses : code.Traverses position
      (cell.before ++ (kept ++ (source.before ++ [.move (.mem address) source.value])))
      temps machine temps' machine') :
    ∃ place stored,
      code.Stores position cell source temps machine place stored temps' machine' ∧
      ∀ temp, kept ≠ [] → address = .temp temp → temps'.get? temp = some place := by
  have keptInside := keeps.jumpsInside
  have storeInside : JumpsInside [.move (.mem address) source.value] :=
    .straight (by simp [Stmt.exits])
  obtain ⟨found, between, isCell, rest⟩ :=
    traverses.split cellInside (keptInside.append (sourceInside.append storeInside))
  obtain ⟨noted, located, isKept, rest⟩ := rest.split keptInside (sourceInside.append storeInside)
  obtain ⟨_, behind, isSource, isStore⟩ := rest.split sourceInside storeInside
  obtain ⟨fuel, executed⟩ := isStore.of_single rfl
  obtain ⟨place, middle, stored, last, placed, computed, valid, rfl, same⟩ :=
    execute_move_mem_eq_ok.mp executed
  obtain ⟨-, rfl⟩ := Continuation.mk.inj same
  have inBetween : position + cell.before.length ≤ position + cell.before.length + kept.length :=
    Nat.le_add_right _ _
  cases keeps with
  | unneeded atOnce =>
      obtain ⟨rfl, rfl⟩ := isKept.of_nil
      rw [atOnce] at isSource
      obtain ⟨rfl, rfl⟩ := isSource.of_nil
      have nothing : code.Traverses (position + cell.before.length + 0) source.before temps'
          middle temps' middle := by
        rw [atOnce]
        exact .empty temps' middle
      exact ⟨place, stored, ⟨_, middle, _, _, last, ⟨_, fuel, isCell, placed⟩, .inl rfl, inBetween,
        ⟨middle, fuel, nothing, computed⟩, valid, rfl⟩, fun _ moved => (moved rfl).elim⟩
  | unchanged fixed noTemps =>
      obtain ⟨rfl, rfl⟩ := isKept.of_nil
      obtain ⟨rfl, again⟩ := eval_of_isRepeatable (isRepeatable_of_isFixed fixed) noTemps placed
      have earlier := again (code.calls fuel) noted located isSource.labels.symm
      exact ⟨place, stored, ⟨_, located, _, _, last, ⟨_, fuel, isCell, earlier⟩, .inl rfl,
        inBetween, ⟨_, fuel, isSource, computed⟩, valid, rfl⟩, fun _ moved => (moved rfl).elim⟩
  | @moved temp spared =>
      obtain ⟨fuelBefore, noting⟩ := isKept.of_single rfl
      obtain ⟨value, evaluated, same⟩ := execute_move_temp_eq_ok.mp noting
      obtain ⟨-, rfl⟩ := Continuation.mk.inj same
      have held : temps'.get? temp = some value := by
        rw [isSource.get?_temp spared, Table.get?_insert, if_pos rfl]
      rw [eval_temp] at placed
      obtain ⟨isHeld, rfl⟩ := readTemp_eq_ok.mp placed
      obtain rfl := Option.some_inj.mp (held.symm.trans isHeld)
      refine ⟨value, stored, ⟨_, located, _, _, last, ⟨_, fuelBefore, isCell, evaluated⟩,
        .inr ⟨temp, rfl⟩, inBetween, ⟨_, fuel, isSource, computed⟩, valid, rfl⟩, ?_⟩
      intro other _ same
      obtain rfl := Expr.temp.inj same
      exact held

/-- What was written can be read. -/
theorem loadInt_writeWord {place value : Int} (valid : machine.memory.isAddress place = true) :
    (machine.writeWord place (.int value)).memory.loadInt place = .ok value := by
  rw [memory_loadInt_eq_ok, read?_writeWord _ _ _ valid, if_pos rfl]

/-- A run through a store finds the cell, computes the value and stores it, each once.  The value
of the whole is then what was stored. -/
theorem stores_of_isStore (isStore : IsStore cell source flat)
    (cellInside : JumpsInside cell.before) (sourceInside : JumpsInside source.before)
    (traverses : code.Traverses position flat.before temps machine temps' machine') :
    ∃ place stored,
      code.Stores position cell source temps machine place stored temps' machine' ∧
      ∀ fuel, eval (code.calls fuel) temps' flat.value machine' = .ok stored machine' := by
  have labels := traverses.labels
  cases isStore with
  | repeated keeps atOnce repeatable noTemps before value =>
      rw [before] at traverses
      obtain ⟨place, stored, stores, -⟩ :=
        stores_of_keepsPlace keeps cellInside sourceInside traverses
      refine ⟨place, stored, stores, fun fuel => ?_⟩
      obtain ⟨_, _, _, _, last, ⟨_, _, finds, evaluated⟩, -, -, -, valid, rfl⟩ := stores.phases
      rw [atOnce] at finds
      obtain ⟨rfl, rfl⟩ := finds.of_nil
      have again := (eval_of_isRepeatable repeatable noTemps evaluated).2 (code.calls fuel) temps'
        _ labels
      rw [value]
      exact eval_mem_eq_ok.mpr ⟨place, again, loadInt_writeWord valid⟩
  | @once kept temp keeps moved before value =>
      rw [before] at traverses
      obtain ⟨place, stored, stores, held⟩ :=
        stores_of_keepsPlace keeps cellInside sourceInside traverses
      refine ⟨place, stored, stores, fun fuel => ?_⟩
      obtain ⟨_, _, _, _, last, -, -, -, -, valid, rfl⟩ := stores.phases
      have again : eval (code.calls fuel) temps' (.temp temp) (last.writeWord place (.int stored)) =
          .ok place (last.writeWord place (.int stored)) := by
        rw [eval_temp]
        exact readTemp_eq_ok.mpr ⟨held temp moved rfl, rfl⟩
      rw [value]
      exact eval_mem_eq_ok.mpr ⟨place, again, loadInt_writeWord valid⟩

end Code

end TreeBackend.Machine
