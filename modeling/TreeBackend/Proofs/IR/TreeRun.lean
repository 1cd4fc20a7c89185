import TreeBackend.Proofs.IR.Temps
import TreeBackend.Proofs.Machine.Inversion

/-!
# Running trees

The meaning of trees before they are flattened.  It extends the meaning of plain
statements by sequences inside sequences and by statements inside expressions:
everything runs from left to right, the statement of an `eseq` before its value,
and the address of a cell before what is stored there.  Plain code means the same
as it does to the machine.

Only straight trees have a meaning here: a jump has nowhere to go inside a tree.
-/

namespace TreeBackend.Machine

open IR Outcome

mutual

/-- The value of an expression, and the temporaries after it. -/
def evalTree (call : Label → List Int → Exec Int) : Temps → Expr → Exec (Int × Temps)
  | temps, .const value => return (value, temps)
  | temps, .name label => do
      return (← labelAddress label, temps)
  | temps, .temp temp => do
      return (← readTemp temps temp, temps)
  | temps, .mem address => do
      let (place, temps) ← evalTree call temps address
      return (← loadInt place, temps)
  | temps, .binop operator left right => do
      let (leftValue, temps) ← evalTree call temps left
      let (rightValue, temps) ← evalTree call temps right
      return (← compute operator leftValue rightValue, temps)
  | temps, .call label arguments => do
      let (values, temps) ← evalTrees call temps arguments
      return (← call label values, temps)
  | temps, .eseq effect value => do
      evalTree call (← runTree call temps effect) value

def evalTrees (call : Label → List Int → Exec Int) : Temps → List Expr → Exec (List Int × Temps)
  | temps, [] => return ([], temps)
  | temps, expression :: rest => do
      let (value, temps) ← evalTree call temps expression
      let (values, temps) ← evalTrees call temps rest
      return (value :: values, temps)

/-- Runs a statement. -/
def runTree (call : Label → List Int → Exec Int) : Temps → Stmt → Exec Temps
  | temps, .seq items => runTrees call temps items
  | temps, .exp value => do
      return (← evalTree call temps value).2
  | temps, .move target source =>
      storeTree call (fun temps => evalTree call temps source) temps target
  | temps, .label _ => return temps
  | _, .jump target => raise (.unknownJumpTarget target)
  | _, .cjump _ whenTrue _ => raise (.unknownJumpTarget whenTrue)

def runTrees (call : Label → List Int → Exec Int) : Temps → List Stmt → Exec Temps
  | temps, [] => return temps
  | temps, statement :: rest => do
      runTrees call (← runTree call temps statement) rest

def storeTree (call : Label → List Int → Exec Int) (source : Temps → Exec (Int × Temps)) :
    Temps → Expr → Exec Temps
  | temps, .temp temp => do
      let (value, temps) ← source temps
      return temps.insert temp value
  | temps, .mem address => do
      let (place, temps) ← evalTree call temps address
      let (value, temps) ← source temps
      storeInt place value
      return temps
  | temps, .eseq effect value => do
      storeTree call source (← runTree call temps effect) value
  | _, target => raise (.invalidMoveTarget target.inline)

end

variable {call : Label → List Int → Exec Int}

mutual

/-- Plain expressions have the value that the machine gives them. -/
theorem evalTree_of_isPlain : (expression : Expr) → (temps : Temps) →
    expression.isPlain = true →
    evalTree call temps expression = do return (← eval call temps expression, temps)
  | .const _, _, _ => by simp [evalTree, eval]
  | .name _, _, _ => by simp [evalTree, eval]
  | .temp _, _, _ => by simp [evalTree, eval]
  | .mem address, temps, plain => by
      simp [evalTree, eval, evalTree_of_isPlain address temps plain]
  | .binop _ left right, temps, plain => by
      rw [Expr.isPlain, Bool.and_eq_true] at plain
      simp [evalTree, eval, evalTree_of_isPlain left temps plain.1,
        evalTree_of_isPlain right temps plain.2]
  | .call _ arguments, temps, plain => by
      simp [evalTree, eval, evalTrees_of_arePlain arguments temps plain]
  | .eseq .., _, plain => by simp [Expr.isPlain] at plain

theorem evalTrees_of_arePlain : (expressions : List Expr) → (temps : Temps) →
    Expr.arePlain expressions = true →
    evalTrees call temps expressions = do return (← evalAll call temps expressions, temps)
  | [], _, _ => by simp [evalTrees, evalAll]
  | expression :: rest, temps, plain => by
      rw [Expr.arePlain, Bool.and_eq_true] at plain
      simp [evalTrees, evalAll, evalTree_of_isPlain expression temps plain.1,
        evalTrees_of_arePlain rest temps plain.2]

end

/-- Plain straight statements do what the machine makes of them. -/
theorem runTree_of_isPlain {statement : Stmt} {temps : Temps} (plain : statement.isPlain = true)
    (straight : statement.isStraight = true) :
    runTree call temps statement = do return (← execute call temps statement).temps := by
  cases statement with
  | seq | label | jump | cjump => simp_all [Stmt.isPlain, Stmt.isStraight]
  | exp value =>
      simp [runTree, execute, evalTree_of_isPlain value temps plain]
  | move target source =>
      rw [Stmt.isPlain, Bool.and_eq_true] at plain
      cases target with
      | temp _ => simp [runTree, storeTree, execute, evalTree_of_isPlain source _ plain.2]
      | mem address =>
          have addressPlain : address.isPlain = true := plain.1
          simp [runTree, storeTree, execute, evalTree_of_isPlain source _ plain.2,
            evalTree_of_isPlain address temps addressPlain]
      | eseq => simp [Expr.isPlain] at plain
      | const | name | binop | call =>
          simp only [runTree, storeTree, execute, raise]
          rfl

/-! ### What a successful run of a tree consists of -/

variable {temps temps' : Temps} {machine machine' : Machine} {value : Int}

theorem evalTree_const_eq_ok {number : Int} :
    evalTree call temps (.const number) machine = .ok (value, temps') machine' ↔
      value = number ∧ temps' = temps ∧ machine' = machine := by
  simp [evalTree, pure_eq_ok, and_assoc]

theorem evalTree_name_eq_ok {label : Label} :
    evalTree call temps (.name label) machine = .ok (value, temps') machine' ↔
      machine.memory.address? label = some value ∧ temps' = temps ∧ machine' = machine := by
  simp only [evalTree, bind_eq_ok, labelAddress_eq_ok, pure_eq_ok, Prod.mk.injEq]
  grind

theorem evalTree_temp_eq_ok {temp : Temp} :
    evalTree call temps (.temp temp) machine = .ok (value, temps') machine' ↔
      temps.get? temp = some value ∧ temps' = temps ∧ machine' = machine := by
  simp only [evalTree, bind_eq_ok, readTemp_eq_ok, pure_eq_ok, Prod.mk.injEq]
  grind

theorem evalTree_mem_eq_ok {address : Expr} :
    evalTree call temps (.mem address) machine = .ok (value, temps') machine' ↔
      ∃ place, evalTree call temps address machine = .ok (place, temps') machine' ∧
        machine'.memory.loadInt place = .ok value := by
  simp only [evalTree, bind_eq_ok, loadInt_eq_ok, pure_eq_ok, Prod.mk.injEq, Prod.exists]
  grind

theorem evalTree_binop_eq_ok {operator : Operator} {left right : Expr} :
    evalTree call temps (.binop operator left right) machine = .ok (value, temps') machine' ↔
      ∃ a middle between b, evalTree call temps left machine = .ok (a, middle) between ∧
        evalTree call middle right between = .ok (b, temps') machine' ∧
        operator.apply a b = some value := by
  simp only [evalTree, bind_eq_ok, compute_eq_ok, pure_eq_ok, Prod.mk.injEq, Prod.exists]
  grind

theorem evalTree_call_eq_ok {label : Label} {arguments : List Expr} :
    evalTree call temps (.call label arguments) machine = .ok (value, temps') machine' ↔
      ∃ values between, evalTrees call temps arguments machine = .ok (values, temps') between ∧
        call label values between = .ok value machine' := by
  simp only [evalTree, bind_eq_ok, pure_eq_ok, Prod.mk.injEq, Prod.exists]
  grind

theorem evalTree_eseq_eq_ok {effect : Stmt} {last : Expr} :
    evalTree call temps (.eseq effect last) machine = .ok (value, temps') machine' ↔
      ∃ middle between, runTree call temps effect machine = .ok middle between ∧
        evalTree call middle last between = .ok (value, temps') machine' := by
  simp only [evalTree, bind_eq_ok]

theorem evalTrees_nil_eq_ok {values : List Int} :
    evalTrees call temps [] machine = .ok (values, temps') machine' ↔
      values = [] ∧ temps' = temps ∧ machine' = machine := by
  simp [evalTrees, pure_eq_ok, and_assoc]

theorem evalTrees_cons_eq_ok {expression : Expr} {rest : List Expr} {values : List Int} :
    evalTrees call temps (expression :: rest) machine = .ok (values, temps') machine' ↔
      ∃ head middle between tail,
        evalTree call temps expression machine = .ok (head, middle) between ∧
        evalTrees call middle rest between = .ok (tail, temps') machine' ∧
        values = head :: tail := by
  simp only [evalTrees, bind_eq_ok, pure_eq_ok, Prod.mk.injEq, Prod.exists]
  grind

theorem runTree_exp_eq_ok {expression : Expr} :
    runTree call temps (.exp expression) machine = .ok temps' machine' ↔
      ∃ value, evalTree call temps expression machine = .ok (value, temps') machine' := by
  simp only [runTree, bind_eq_ok, pure_eq_ok, Prod.exists]
  grind

theorem runTrees_nil_eq_ok :
    runTrees call temps [] machine = .ok temps' machine' ↔
      temps' = temps ∧ machine' = machine := by
  simp only [runTrees, pure_eq_ok]

theorem runTrees_cons_eq_ok {statement : Stmt} {rest : List Stmt} :
    runTrees call temps (statement :: rest) machine = .ok temps' machine' ↔
      ∃ middle between, runTree call temps statement machine = .ok middle between ∧
        runTrees call middle rest between = .ok temps' machine' := by
  simp only [runTrees, bind_eq_ok]

variable {source : Temps → Exec (Int × Temps)}

theorem storeTree_temp_eq_ok {temp : Temp} :
    storeTree call source temps (.temp temp) machine = .ok temps' machine' ↔
      ∃ value middle, source temps machine = .ok (value, middle) machine' ∧
        temps' = middle.insert temp value := by
  simp only [storeTree, bind_eq_ok, pure_eq_ok, Prod.exists]
  grind

theorem storeTree_mem_eq_ok {address : Expr} :
    storeTree call source temps (.mem address) machine = .ok temps' machine' ↔
      ∃ place middle between value last,
        evalTree call temps address machine = .ok (place, middle) between ∧
        source middle between = .ok (value, temps') last ∧
        last.memory.isAddress place = true ∧
        machine' = last.writeWord place (.int value) := by
  simp only [storeTree, bind_eq_ok, pure_eq_ok, storeInt_eq_ok, Prod.exists]
  grind

theorem storeTree_eseq_eq_ok {effect : Stmt} {target : Expr} :
    storeTree call source temps (.eseq effect target) machine = .ok temps' machine' ↔
      ∃ middle between, runTree call temps effect machine = .ok middle between ∧
        storeTree call source middle target between = .ok temps' machine' := by
  simp only [storeTree, bind_eq_ok]

end TreeBackend.Machine
