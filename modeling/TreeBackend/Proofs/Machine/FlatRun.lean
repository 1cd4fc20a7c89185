import Mathlib.Logic.Relation
import Mathlib.Order.Filter.AtTopBot.Basic
import TreeBackend.Proofs.Machine.Inversion

/-!
# Runs of flat code

A piece of flat code has an effect of its own, wherever it stands in the body of
a function: it takes the temporaries and the machine from its first statement
to the place behind its last one.  This file defines that effect for a piece
with jumps inside it, and shows how the effects of pieces are put together.

Calls are bounded by fuel, so every statement about the result of an expression
is one about all sufficiently large amounts of fuel.
-/

namespace TreeBackend.Machine

open Filter IR

/-- Two machines agree on the address of every label, the two pointers included. -/
def SameLabels (first second : Machine) : Prop :=
  ∀ label, second.memory.address? label = first.memory.address? label

namespace SameLabels

theorem refl (machine : Machine) : SameLabels machine machine := fun _ => rfl

theorem trans {first second third : Machine} (left : SameLabels first second)
    (right : SameLabels second third) : SameLabels first third :=
  fun label => (right label).trans (left label)

end SameLabels

/-- The body of a function together with the way in which it calls others. -/
structure Code where
  statements : Array Stmt
  jumps : Table Label Nat
  calls : Nat → Label → List Int → Exec Int

/-- A place in the body of a function, with what the function has there. -/
structure Point where
  position : Nat
  temps : Temps
  machine : Machine

namespace Code

variable {code : Code} {temps temps' temps'' : Temps} {machine machine' machine'' : Machine}

/-- With enough fuel, an expression has a value, and its calls leave a machine
with the same labels. -/
structure Evaluates (code : Code) (temps : Temps) (expression : Expr) (machine : Machine)
    (value : Int) (machine' : Machine) : Prop where
  result : ∀ᶠ fuel in atTop, eval (code.calls fuel) temps expression machine = .ok value machine'
  labels : SameLabels machine machine'

/-- Expressions have values one after the other. -/
inductive EvaluatesAll (code : Code) (temps : Temps) :
    List Expr → Machine → List Int → Machine → Prop where
  | nil {machine : Machine} : EvaluatesAll code temps [] machine [] machine
  | cons {expression : Expr} {rest : List Expr} {value : Int} {values : List Int}
      {machine machine' machine'' : Machine} :
      code.Evaluates temps expression machine value machine' →
      EvaluatesAll code temps rest machine' values machine'' →
      EvaluatesAll code temps (expression :: rest) machine (value :: values) machine''

/-- One statement leads from a point to the next one. -/
inductive Step (code : Code) : Point → Point → Prop where
  | next {position : Nat} {statement : Stmt} {temps temps' : Temps}
      {machine machine' : Machine} :
      code.statements[position]? = some statement →
      (∀ᶠ fuel in atTop,
        execute (code.calls fuel) temps statement machine = .ok ⟨none, temps'⟩ machine') →
      Step code ⟨position, temps, machine⟩ ⟨position + 1, temps', machine'⟩
  | jump {position target : Nat} {statement : Stmt} {label : Label} {temps temps' : Temps}
      {machine machine' : Machine} :
      code.statements[position]? = some statement →
      (∀ᶠ fuel in atTop,
        execute (code.calls fuel) temps statement machine = .ok ⟨some label, temps'⟩ machine') →
      code.jumps.get? label = some target →
      Step code ⟨position, temps, machine⟩ ⟨target, temps', machine'⟩

/-- Some statements lead from a point to another one. -/
abbrev Reaches (code : Code) : Point → Point → Prop := Relation.ReflTransGen code.Step

/-- A piece of code stands at a position, and jumps to its labels arrive there. -/
structure Placed (code : Code) (position : Nat) (piece : List Stmt) : Prop where
  statement : ∀ {index statement}, piece[index]? = some statement →
    code.statements[position + index]? = some statement
  target : ∀ {index label}, piece[index]? = some (.label label) →
    code.jumps.get? label = some (position + index)

/-- Wherever a piece of code stands, it leads from its first statement to the
place behind its last one.  An empty piece does nothing at all. -/
structure Executes (code : Code) (piece : List Stmt) (temps : Temps) (machine : Machine)
    (temps' : Temps) (machine' : Machine) : Prop where
  idle : piece = [] → temps' = temps ∧ machine' = machine
  labels : SameLabels machine machine'
  reaches : ∀ position, code.Placed position piece →
    code.Reaches ⟨position, temps, machine⟩ ⟨position + piece.length, temps', machine'⟩

/-! ### Where pieces stand -/

namespace Placed

variable {position : Nat} {first second : List Stmt}

theorem left (placed : code.Placed position (first ++ second)) : code.Placed position first where
  statement found := by
    apply placed.statement
    rw [List.getElem?_append_left (List.getElem?_eq_some_iff.mp found).1]
    exact found
  target found := by
    apply placed.target
    rw [List.getElem?_append_left (List.getElem?_eq_some_iff.mp found).1]
    exact found

theorem right (placed : code.Placed position (first ++ second)) :
    code.Placed (position + first.length) second where
  statement found := by
    rw [Nat.add_assoc]
    apply placed.statement
    simpa [List.getElem?_append_right] using found
  target found := by
    rw [Nat.add_assoc]
    apply placed.target
    simpa [List.getElem?_append_right] using found

theorem head {statement : Stmt} {rest : List Stmt}
    (placed : code.Placed position (statement :: rest)) :
    code.statements[position]? = some statement :=
  @Placed.statement _ _ _ placed 0 _ rfl

theorem tail {statement : Stmt} {rest : List Stmt}
    (placed : code.Placed position (statement :: rest)) : code.Placed (position + 1) rest :=
  @Placed.right _ _ [statement] rest placed

theorem head_target {label : Label} {rest : List Stmt}
    (placed : code.Placed position (.label label :: rest)) :
    code.jumps.get? label = some position :=
  @Placed.target _ _ _ placed 0 _ rfl

end Placed

/-! ### Values of expressions -/

namespace Evaluates

theorem const (value : Int) : code.Evaluates temps (.const value) machine value machine where
  result := .of_forall fun _ => eval_const_eq_ok.mpr ⟨rfl, rfl⟩
  labels := .refl machine

theorem name {label : Label} {address : Int}
    (known : machine.memory.address? label = some address) :
    code.Evaluates temps (.name label) machine address machine where
  result := .of_forall fun _ => by
    rw [eval_name]
    exact labelAddress_eq_ok.mpr ⟨known, rfl⟩
  labels := .refl machine

theorem temp {temp : Temp} {value : Int} (assigned : temps.get? temp = some value) :
    code.Evaluates temps (.temp temp) machine value machine where
  result := .of_forall fun _ => by
    rw [eval_temp]
    exact readTemp_eq_ok.mpr ⟨assigned, rfl⟩
  labels := .refl machine

variable {value : Int}

theorem mem {address : Expr} {place : Int}
    (evaluates : code.Evaluates temps address machine place machine')
    (found : machine'.memory.loadInt place = .ok value) :
    code.Evaluates temps (.mem address) machine value machine' where
  result := evaluates.result.mono fun _ result => eval_mem_eq_ok.mpr ⟨place, result, found⟩
  labels := evaluates.labels

theorem binop {operator : Operator} {left right : Expr} {leftValue rightValue : Int}
    (first : code.Evaluates temps left machine leftValue machine')
    (second : code.Evaluates temps right machine' rightValue machine'')
    (applied : operator.apply leftValue rightValue = some value) :
    code.Evaluates temps (.binop operator left right) machine value machine'' where
  result := by
    filter_upwards [first.result, second.result] with fuel firstResult secondResult
    exact eval_binop_eq_ok.mpr ⟨leftValue, machine', rightValue, firstResult, secondResult, applied⟩
  labels := first.labels.trans second.labels

end Evaluates

namespace EvaluatesAll

variable {expressions : List Expr} {values : List Int}

theorem result (evaluates : code.EvaluatesAll temps expressions machine values machine') :
    ∀ᶠ fuel in atTop,
      evalAll (code.calls fuel) temps expressions machine = .ok values machine' := by
  induction evaluates with
  | nil => exact .of_forall fun _ => evalAll_nil_eq_ok.mpr ⟨rfl, rfl⟩
  | cons head _ ih =>
      filter_upwards [head.result, ih] with fuel headResult tailResult
      exact evalAll_cons_eq_ok.mpr ⟨_, _, _, headResult, tailResult, rfl⟩

theorem labels (evaluates : code.EvaluatesAll temps expressions machine values machine') :
    SameLabels machine machine' := by
  induction evaluates with
  | nil => exact .refl _
  | cons head _ ih => exact head.labels.trans ih

theorem append {others : List Expr} {otherValues : List Int}
    (first : code.EvaluatesAll temps expressions machine values machine')
    (second : code.EvaluatesAll temps others machine' otherValues machine'') :
    code.EvaluatesAll temps (expressions ++ others) machine (values ++ otherValues) machine'' := by
  induction first with
  | nil => exact second
  | cons head _ ih => exact .cons head (ih second)

end EvaluatesAll

theorem Evaluates.call {label : Label} {arguments : List Expr} {values : List Int} {value : Int}
    (evaluates : code.EvaluatesAll temps arguments machine values machine')
    (returns : ∀ᶠ fuel in atTop, code.calls fuel label values machine' = .ok value machine'')
    (labels : SameLabels machine' machine'') :
    code.Evaluates temps (.call label arguments) machine value machine'' where
  result := by
    filter_upwards [evaluates.result, returns] with fuel argumentResult callResult
    exact eval_call_eq_ok.mpr ⟨values, machine', argumentResult, callResult⟩
  labels := evaluates.labels.trans labels

/-! ### Effects of pieces -/

namespace Executes

variable {first second : List Stmt}

theorem nil : code.Executes [] temps machine temps machine where
  idle _ := ⟨rfl, rfl⟩
  labels := .refl machine
  reaches _ _ := .refl

theorem append (left : code.Executes first temps machine temps' machine')
    (right : code.Executes second temps' machine' temps'' machine'') :
    code.Executes (first ++ second) temps machine temps'' machine'' where
  idle empty := by
    obtain ⟨rfl, rfl⟩ := List.append_eq_nil_iff.mp empty
    obtain ⟨rfl, rfl⟩ := left.idle rfl
    exact right.idle rfl
  labels := left.labels.trans right.labels
  reaches position placed := by
    have reached := (left.reaches position placed.left).trans (right.reaches _ placed.right)
    simpa [Nat.add_assoc] using reached

/-- A statement that does not jump is a piece of its own. -/
theorem single {statement : Stmt}
    (done : ∀ᶠ fuel in atTop,
      execute (code.calls fuel) temps statement machine = .ok ⟨none, temps'⟩ machine')
    (labels : SameLabels machine machine') :
    code.Executes [statement] temps machine temps' machine' where
  idle empty := by simp at empty
  labels := labels
  reaches _ placed := .single (.next placed.head done)

theorem label (label : Label) : code.Executes [.label label] temps machine temps machine :=
  .single (.of_forall fun _ => execute_label_eq_ok.mpr ⟨rfl, rfl⟩) (.refl machine)

variable {value : Int}

theorem exp {expression : Expr}
    (evaluates : code.Evaluates temps expression machine value machine') :
    code.Executes [.exp expression] temps machine temps machine' :=
  .single (evaluates.result.mono fun _ result => execute_exp_eq_ok.mpr ⟨value, result, rfl⟩)
    evaluates.labels

theorem moveTemp {source : Expr} (temp : Temp)
    (evaluates : code.Evaluates temps source machine value machine') :
    code.Executes [.move (.temp temp) source] temps machine (temps.insert temp value) machine' :=
  .single (evaluates.result.mono fun _ result => execute_move_temp_eq_ok.mpr ⟨value, result, rfl⟩)
    evaluates.labels

theorem moveMem {address source : Expr} {place : Int}
    (first : code.Evaluates temps address machine place machine')
    (second : code.Evaluates temps source machine' value machine'')
    (valid : machine''.memory.isAddress place = true) :
    code.Executes [.move (.mem address) source] temps machine temps
      (machine''.writeWord place (.int value)) := by
  refine .single ?_ ((first.labels.trans second.labels).trans fun label => rfl)
  filter_upwards [first.result, second.result] with fuel placeResult valueResult
  exact execute_move_mem_eq_ok.mpr
    ⟨place, machine', value, machine'', placeResult, valueResult, valid, rfl, rfl⟩

end Executes

end Code

end TreeBackend.Machine
