import TreeBackend.Machine.Execution
import TreeBackend.Proofs.Outcome

/-!
# What a successful step of a run consists of

Each lemma takes a successful evaluation or statement apart into those of its
parts, so that no other module opens the definition of execution.
-/

namespace TreeBackend.Machine

open IR Outcome

variable {call : Label → List Int → Exec Int} {temps : Temps} {machine machine' : Machine}
  {value : Int}

theorem loadInt_eq_ok {address : Int} :
    loadInt address machine = .ok value machine' ↔
      machine.memory.loadInt address = .ok value ∧ machine' = machine := by
  unfold loadInt
  cases machine.memory.loadInt address <;> simp [eq_comm]

/-- An integer is read where an integer stands. -/
theorem memory_loadInt_eq_ok {memory : Memory} {address : Int} :
    memory.loadInt address = .ok value ↔ memory.read? address = some (.int value) := by
  unfold Memory.loadInt
  cases memory.read? address with
  | none => simp
  | some found => cases found <;> simp

theorem storeInt_eq_ok {address : Int} {result : Unit} :
    storeInt address value machine = .ok result machine' ↔
      machine.memory.isAddress address = true ∧
        machine' = machine.writeWord address (.int value) := by
  unfold storeInt
  split
  · next valid => simp [valid, eq_comm]
  · next invalid => simp [invalid]

theorem labelAddress_eq_ok {label : Label} :
    labelAddress label machine = .ok value machine' ↔
      machine.memory.address? label = some value ∧ machine' = machine := by
  unfold labelAddress
  cases machine.memory.address? label <;> simp [eq_comm]

theorem readTemp_eq_ok {temp : Temp} :
    readTemp temps temp machine = .ok value machine' ↔
      temps.get? temp = some value ∧ machine' = machine := by
  unfold readTemp
  cases temps.get? temp with
  | none => simp [raise, throw_ne_ok]
  | some found => simp [pure_eq_ok, eq_comm]

theorem compute_eq_ok {operator : Operator} {left right : Int} :
    compute operator left right machine = .ok value machine' ↔
      operator.apply left right = some value ∧ machine' = machine := by
  unfold compute
  cases operator.apply left right with
  | none => simp [raise, throw_ne_ok]
  | some found => simp [pure_eq_ok, eq_comm]

/-! ### Expressions -/

attribute [local simp] eval evalAll execute

theorem eval_const_eq_ok {number : Int} :
    eval call temps (.const number) machine = .ok value machine' ↔
      value = number ∧ machine' = machine := by
  simp [pure_eq_ok]

theorem eval_name {label : Label} : eval call temps (.name label) = labelAddress label := by
  simp

theorem eval_temp {temp : Temp} : eval call temps (.temp temp) = readTemp temps temp := by
  simp

theorem eval_mem_eq_ok {address : Expr} :
    eval call temps (.mem address) machine = .ok value machine' ↔
      ∃ place, eval call temps address machine = .ok place machine' ∧
        machine'.memory.loadInt place = .ok value := by
  simp [bind_eq_ok, loadInt_eq_ok]

theorem eval_binop_eq_ok {operator : Operator} {left right : Expr} :
    eval call temps (.binop operator left right) machine = .ok value machine' ↔
      ∃ leftValue middle rightValue, eval call temps left machine = .ok leftValue middle ∧
        eval call temps right middle = .ok rightValue machine' ∧
        operator.apply leftValue rightValue = some value := by
  simp [bind_eq_ok, compute_eq_ok]

theorem eval_call_eq_ok {label : Label} {arguments : List Expr} :
    eval call temps (.call label arguments) machine = .ok value machine' ↔
      ∃ values middle, evalAll call temps arguments machine = .ok values middle ∧
        call label values middle = .ok value machine' := by
  simp [bind_eq_ok]

theorem evalAll_nil_eq_ok {values : List Int} :
    evalAll call temps [] machine = .ok values machine' ↔ values = [] ∧ machine' = machine := by
  simp [pure_eq_ok]

theorem evalAll_cons_eq_ok {expression : Expr} {rest : List Expr} {values : List Int} :
    evalAll call temps (expression :: rest) machine = .ok values machine' ↔
      ∃ head middle tail, eval call temps expression machine = .ok head middle ∧
        evalAll call temps rest middle = .ok tail machine' ∧ values = head :: tail := by
  simp only [evalAll, bind_eq_ok, pure_eq_ok]
  grind

theorem evalAll_length {expressions : List Expr} {values : List Int}
    (evaluated : evalAll call temps expressions machine = .ok values machine') :
    values.length = expressions.length := by
  induction expressions generalizing values machine with
  | nil =>
      obtain ⟨rfl, -⟩ := evalAll_nil_eq_ok.mp evaluated
      rfl
  | cons expression rest ih =>
      obtain ⟨head, middle, tail, -, others, rfl⟩ := evalAll_cons_eq_ok.mp evaluated
      rw [List.length_cons, List.length_cons, ih others]

/-! ### Statements -/

variable {next : Continuation}

theorem execute_label_eq_ok {label : Label} :
    execute call temps (.label label) machine = .ok next machine' ↔
      next = ⟨none, temps⟩ ∧ machine' = machine := by
  simp [pure_eq_ok]

theorem execute_jump_eq_ok {target : Label} :
    execute call temps (.jump target) machine = .ok next machine' ↔
      next = ⟨some target, temps⟩ ∧ machine' = machine := by
  simp [pure_eq_ok]

theorem execute_cjump_eq_ok {condition : Expr} {whenTrue whenFalse : Label} :
    execute call temps (.cjump condition whenTrue whenFalse) machine = .ok next machine' ↔
      ∃ test, eval call temps condition machine = .ok test machine' ∧
        next = ⟨some (if test = 0 then whenFalse else whenTrue), temps⟩ := by
  simp only [execute, bind_eq_ok, pure_eq_ok]
  grind

theorem execute_exp_eq_ok {expression : Expr} :
    execute call temps (.exp expression) machine = .ok next machine' ↔
      ∃ value, eval call temps expression machine = .ok value machine' ∧
        next = ⟨none, temps⟩ := by
  simp only [execute, bind_eq_ok, pure_eq_ok]
  grind

theorem execute_move_temp_eq_ok {temp : Temp} {source : Expr} :
    execute call temps (.move (.temp temp) source) machine = .ok next machine' ↔
      ∃ value, eval call temps source machine = .ok value machine' ∧
        next = ⟨none, temps.insert temp value⟩ := by
  simp only [execute, bind_eq_ok, pure_eq_ok]
  grind

theorem execute_move_mem_eq_ok {address source : Expr} :
    execute call temps (.move (.mem address) source) machine = .ok next machine' ↔
      ∃ place middle value last, eval call temps address machine = .ok place middle ∧
        eval call temps source middle = .ok value last ∧
        last.memory.isAddress place = true ∧
        machine' = last.writeWord place (.int value) ∧ next = ⟨none, temps⟩ := by
  simp only [execute, bind_eq_ok, pure_eq_ok, storeInt_eq_ok]
  grind

end TreeBackend.Machine
