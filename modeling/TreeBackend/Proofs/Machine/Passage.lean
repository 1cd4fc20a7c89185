import TreeBackend.Proofs.Flattening.Keeping
import TreeBackend.Proofs.Machine.Steady
import TreeBackend.Proofs.Machine.Traversal

/-!
# Evaluations of flat code

An evaluation of a flattened expression is a run through its statements and then the value of
what is left.  Whatever the calls on the way do to the pointers and to memory, an operator is
evaluated by evaluating its operands from left to right: a value that later statements could
change is kept in a temporary, and a label that is not kept stands for the same address later.
-/

namespace TreeBackend.Machine

open IR (Expr Stmt Temp TempSupply)
open Flattening (JumpsInside)

namespace Code

variable {code : Code} {position : Nat} {piece first second : List Stmt} {flat : Flattened}
  {temps temps' : Temps} {machine machine' : Machine} {value : Int}

/-- A statement from one position up to, but without, another one is run. -/
structure StepsWithin (code : Code) (first last : Nat) (point next : Point) : Prop where
  above : first ≤ point.position
  below : point.position < last
  moves : code.Moves point next

/-- A run goes through a piece of code that stands at a position, whatever the calls there do. -/
structure Passes (code : Code) (position : Nat) (piece : List Stmt) (temps : Temps)
    (machine : Machine) (temps' : Temps) (machine' : Machine) : Prop where
  stands : code.Stands position piece
  runs : Relation.ReflTransGen (code.StepsWithin position (position + piece.length))
    ⟨position, temps, machine⟩ ⟨position + piece.length, temps', machine'⟩

/-- The statements of a flattened expression are gone through, and then it has a value. -/
structure Evaluation (code : Code) (position : Nat) (flat : Flattened) (temps : Temps)
    (machine : Machine) (value : Int) (temps' : Temps) (machine' : Machine) : Prop where
  result : ∃ middle fuel, code.Passes position flat.before temps machine temps' middle ∧
    eval (code.calls fuel) temps' flat.value middle = .ok value machine'

namespace Stands

theorem nil (code : Code) (position : Nat) : code.Stands position [] := ⟨nofun, nofun⟩

/-- If two pieces in a row have no label in common, then each of them stands by itself. -/
theorem split (stands : code.Stands position (first ++ second))
    (apart : ∀ label, .label label ∈ first → .label label ∉ second) :
    code.Stands position first ∧ code.Stands (position + first.length) second := by
  constructor
  · refine ⟨fun {index statement} found => ?_, fun {label place} member known => ?_⟩
    · apply stands.statement
      rwa [List.getElem?_append_left (List.getElem?_eq_some_iff.mp found).1]
    · obtain ⟨index, same, found⟩ := stands.target (List.mem_append_left _ member) known
      rcases Nat.lt_or_ge index first.length with inFirst | behind
      · rw [List.getElem?_append_left inFirst] at found
        exact ⟨index, same, found⟩
      · rw [List.getElem?_append_right behind] at found
        exact (apart label member (List.mem_of_getElem? found)).elim
  · refine ⟨fun {index statement} found => ?_, fun {label place} member known => ?_⟩
    · rw [Nat.add_assoc]
      apply stands.statement
      simpa [List.getElem?_append_right] using found
    · obtain ⟨index, same, found⟩ := stands.target (List.mem_append_right _ member) known
      rcases Nat.lt_or_ge index first.length with inFirst | behind
      · rw [List.getElem?_append_left inFirst] at found
        exact (apart label (List.mem_of_getElem? found) member).elim
      · rw [List.getElem?_append_right behind] at found
        exact ⟨index - first.length, by omega, found⟩

end Stands

namespace Passes

theorem nil (position : Nat) (temps : Temps) (machine : Machine) :
    code.Passes position [] temps machine temps machine :=
  ⟨.nil code position, .refl⟩

theorem of_nil (passes : code.Passes position [] temps machine temps' machine') :
    temps' = temps ∧ machine' = machine := by
  rcases Relation.ReflTransGen.cases_head passes.runs with same | ⟨next, steps, -⟩
  · cases same
    exact ⟨rfl, rfl⟩
  · exact absurd steps.below (Nat.not_lt.mpr steps.above)

/-- A run through two pieces in a row goes through each of them once. -/
theorem split_of_stands
    (passes : code.Passes position (first ++ second) temps machine temps' machine')
    (firstStands : code.Stands position first)
    (secondStands : code.Stands (position + first.length) second)
    (firstInside : JumpsInside first) (secondInside : JumpsInside second) :
    ∃ middle between, code.Passes position first temps machine middle between ∧
      code.Passes (position + first.length) second middle between temps' machine' := by
  have runs := passes.runs
  rw [List.length_append, ← Nat.add_assoc] at runs
  obtain ⟨⟨_, middle, between⟩, rfl, early, late⟩ := exists_between firstStands secondStands
    firstInside secondInside (fun steps => ⟨steps.above, steps.below, steps.moves⟩) runs
    (Nat.le_add_right _ _) rfl
  refine ⟨middle, between, ⟨firstStands, ?_⟩, secondStands, ?_⟩
  · exact Relation.ReflTransGen.mono
      (fun _ _ ⟨steps, below⟩ => ⟨steps.above, below, steps.moves⟩) _ _ early
  · exact Relation.ReflTransGen.mono
      (fun _ _ ⟨steps, above⟩ => ⟨above, steps.below, steps.moves⟩) _ _ late

/-- Each of the pieces stands by itself if they have no label in common. -/
theorem split (passes : code.Passes position (first ++ second) temps machine temps' machine')
    (firstInside : JumpsInside first) (secondInside : JumpsInside second)
    (apart : ∀ label, .label label ∈ first → .label label ∉ second) :
    ∃ middle between, code.Passes position first temps machine middle between ∧
      code.Passes (position + first.length) second middle between temps' machine' := by
  obtain ⟨firstStands, secondStands⟩ := passes.stands.split apart
  exact passes.split_of_stands firstStands secondStands firstInside secondInside

/-- A run through a statement that does not jump runs it. -/
theorem of_single {statement : Stmt}
    (passes : code.Passes position [statement] temps machine temps' machine')
    (straight : statement.exits = []) :
    ∃ fuel, execute (code.calls fuel) temps statement machine = .ok ⟨none, temps'⟩ machine' :=
  exists_execute_of_runs passes.stands (fun steps => ⟨steps.below, steps.moves⟩) passes.runs
    straight

/-- A run through a statement that assigns a temporary computes the value. -/
theorem of_move {temp : Temp} {source : Expr}
    (passes : code.Passes position [.move (.temp temp) source] temps machine temps' machine') :
    ∃ fuel value, eval (code.calls fuel) temps source machine = .ok value machine' ∧
      temps' = temps.insert temp value := by
  obtain ⟨fuel, executed⟩ := passes.of_single rfl
  obtain ⟨value, evaluated, same⟩ := execute_move_temp_eq_ok.mp executed
  obtain ⟨-, rfl⟩ := Continuation.mk.inj same
  exact ⟨fuel, value, evaluated, rfl⟩

/-- A run leaves a temporary alone that no statement assigns. -/
theorem get?_temp (passes : code.Passes position piece temps machine temps' machine')
    {temp : Temp} (spared : ∀ source, .move (.temp temp) source ∉ piece) :
    temps'.get? temp = temps.get? temp :=
  get?_of_runs passes.stands (fun steps => ⟨steps.above, steps.below, steps.moves⟩) passes.runs
    spared

/-- In the body of a function, a run leaves everything standing. -/
theorem standing {statements : Array Stmt} {jumps : Table Label Nat} {start : Machine}
    (passes : (ofBody statements jumps).Passes position piece temps machine temps' machine')
    (stands : Standing start machine) : Standing start machine' := by
  have along : ∀ {point final : Point}, Relation.ReflTransGen
      ((ofBody statements jumps).StepsWithin position (position + piece.length)) point final →
      Standing start point.machine → Standing start final.machine := by
    intro point final runs stands
    induction runs with
    | refl => exact stands
    | tail _ steps ih =>
        have maintained := maintained_standing start
        cases steps.moves with
        | next _ executed | jump _ executed _ =>
            exact (maintained.execute (maintained.callWith _) _).ok ih executed
  exact along passes.runs stands

end Passes

/-! ### Operators -/

section Operators

variable {statements : Array Stmt} {jumps : Table Label Nat} {cell source : Flattened}
  {supply rest : TempSupply} {before : List Stmt} {left right : Expr} {operator : Operator}

/-- The operands of an operator are evaluated from left to right.  This needs that the statements
of the second one neither assign the temporary for the value of the first one, nor change that
value if it is not kept at all. -/
theorem Evaluation.of_pair
    (paired : Flattening.pair cell source supply = .ok ((before, left, right), rest))
    (cellInside : JumpsInside cell.before) (sourceInside : JumpsInside source.before)
    (apart : ∀ label, .label label ∈ cell.before → .label label ∉ source.before)
    (spared : ∀ value, .move (.temp supply.next) value ∉ source.before)
    (lasts : source.before = [] ∨ (cell.value.isFixed = true →
      ∃ label, cell.value = .name label ∧ label ≠ .framePointer ∧ label ≠ .stackPointer))
    (evaluation : (ofBody statements jumps).Evaluation position ⟨before, .binop operator left right⟩
      temps machine value temps' machine') :
    ∃ first second found between start noted,
      (ofBody statements jumps).Evaluation position cell temps machine first found between ∧
      (ofBody statements jumps).Evaluation start source noted between second temps' machine' ∧
      operator.apply first second = some value := by
  obtain ⟨middle, fuel, passes, evaluated⟩ := evaluation.result
  obtain ⟨first, between, second, lefts, rights, applied⟩ := eval_binop_eq_ok.mp evaluated
  by_cases atOnce : source.before = []
  · obtain ⟨same, -⟩ := Flattening.append_of_nil atOnce (Flattening.pair_eq_ok.mp paired)
    obtain ⟨rfl, values⟩ := FlattenedOperands.mk.inj same
    obtain ⟨rfl, rfl⟩ : left = cell.value ∧ right = source.value := by simpa using values
    refine ⟨first, second, temps', between, position, temps', ⟨middle, fuel, passes, lefts⟩,
      ⟨between, fuel, ?_, rights⟩, applied⟩
    rw [atOnce]
    exact .nil position temps' between
  · by_cases fixed : cell.value.isFixed = true
    · obtain ⟨label, isName, noFrame, noStack⟩ := lasts.resolve_left atOnce fixed
      obtain ⟨rfl, rfl, rfl, -⟩ := Flattening.pair_of_isFixed fixed paired
      obtain ⟨found, located, isCell, isSource⟩ := passes.split cellInside sourceInside apart
      rw [isName, eval_name] at lefts
      obtain ⟨known, rfl⟩ := labelAddress_eq_ok.mp lefts
      have lasted := (isSource.standing (.refl located)).labels label noFrame noStack
      refine ⟨first, second, found, located, _, found, ⟨located, fuel, isCell, ?_⟩,
        ⟨_, fuel, isSource, rights⟩, applied⟩
      rw [isName, eval_name]
      exact labelAddress_eq_ok.mpr ⟨lasted.symm.trans known, rfl⟩
    · obtain ⟨kept, keeps, same⟩ :=
        Flattening.append_of_ne_nil atOnce (Flattening.pair_eq_ok.mp paired)
      obtain ⟨head, _, tail, headKeeps, tailKeeps, rfl⟩ := Flattening.keepAll_cons_eq_ok.mp keeps
      obtain ⟨rfl, rfl⟩ := Flattening.keep_of_not_isFixed fixed headKeeps
      obtain ⟨rfl, -⟩ := Flattening.keepAll_nil_eq_ok.mp tailKeeps
      obtain ⟨rfl, values⟩ := FlattenedOperands.mk.inj same
      obtain ⟨rfl, rfl⟩ : left = .temp supply.next ∧ right = source.value := by
        simpa using values
      have keptInside : JumpsInside [.move (.temp supply.next) cell.value] :=
        .straight (by simp [Stmt.exits])
      rw [List.append_nil, List.append_assoc] at passes
      obtain ⟨found, located, isCell, later⟩ := passes.split cellInside
        (keptInside.append sourceInside) fun label member => by simpa using apart label member
      obtain ⟨noted, placed, isKept, isSource⟩ := later.split keptInside sourceInside (by simp)
      obtain ⟨fuelBefore, held, isHeld, rfl⟩ := isKept.of_move
      rw [eval_temp] at lefts
      obtain ⟨isThere, rfl⟩ := readTemp_eq_ok.mp lefts
      rw [isSource.get?_temp spared, Table.get?_insert, if_pos rfl] at isThere
      obtain rfl := Option.some_inj.mp isThere
      exact ⟨held, second, found, placed, _, _, ⟨located, fuelBefore, isCell, isHeld⟩,
        ⟨_, fuel, isSource, rights⟩, applied⟩

end Operators

end Code

end TreeBackend.Machine
