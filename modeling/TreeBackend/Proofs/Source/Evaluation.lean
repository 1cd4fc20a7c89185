import Mathlib.Data.List.Infix
import TreeBackend.Builtin
import TreeBackend.Proofs.Source.Contents

/-!
# What a program means

A direct evaluation of programs, without frames, addresses or code.  Every call of
a function makes an activation with fresh cells for the variables and parameters
that the function owns; the global variables belong to activation zero and start
at zero.  A name means the cell in the innermost activation around it whose
function owns the variable.

An evaluation has no result where it reads a cell that nothing was assigned to,
divides by zero, or does what the evaluator does not cover: subscripts, random
numbers, and strings other than as the argument of `print_str`.  It also gives up
when loops or calls go on for longer than it is allowed to follow them.
-/

namespace TreeBackend.Source

/-- A variable or a parameter of an activation. -/
structure Cell where
  activation : Nat
  definition : NodeId
  deriving DecidableEq, Repr

/-- What an evaluation has come to. -/
structure World where
  /-- The values of the cells that something was assigned to. -/
  cells : Table Cell Int := {}
  /-- The number of the next activation. -/
  activations : Nat := 1
  output : String := ""

abbrev Evaluation (α : Type) := StateT World Option α

/-- An activation of a function. -/
structure Activation where
  function : Function
  number : Nat

/-- The activations whose variables can be seen from a place, innermost first. -/
abbrev Scope := List Activation

namespace Evaluation

/-- An evaluation without a result. -/
def stuck {α : Type} : Evaluation α := fun _ => none

/-- What is there, or no result. -/
def given {α : Type} : Option α → Evaluation α
  | some value => pure value
  | none => stuck

def read (cell : Cell) : Evaluation Int := fun world =>
  (world.cells.get? cell).map fun value => (value, world)

def assign (cell : Cell) (value : Int) : Evaluation Unit := fun world =>
  some ((), { world with cells := world.cells.insert cell value })

def printLine (line : String) : Evaluation Unit := fun world =>
  some ((), { world with output := world.output ++ line ++ "\n" })

/-- The number of a new activation. -/
def activate : Evaluation Nat := fun world =>
  some (world.activations, { world with activations := world.activations + 1 })

/-- Assigns arguments to the parameters of an activation, which are as many. -/
def assignAll (number : Nat) : List Parameter → List Int → Evaluation Unit
  | [], [] => pure ()
  | parameter :: parameters, value :: values => do
      assign ⟨number, parameter.node.id⟩ value
      assignAll number parameters values
  | _, _ => stuck

/-- Does a body as long as a test holds, for at most the given number of rounds. -/
def repeatWhile : Nat → Evaluation Bool → Evaluation Unit → Evaluation Unit
  | 0, _, _ => stuck
  | rounds + 1, test, body => do
      if ← test then
        body
        repeatWhile rounds test body
      else pure ()

end Evaluation

def UnaryOperator.apply : UnaryOperator → Int → Int
  | .plus, value => value
  | .minus, value => Word.wrap (0 - value)
  | .not, value => Word.wrap (1 - value)

def Program.cellOf? (program : Program) (scope : Scope) (definition : NodeId) : Option Cell :=
  match scope.find? fun activation => activation.function.ownedIds.contains definition with
  | some activation => some ⟨activation.number, definition⟩
  | none =>
      if program.globals.any (·.node.id = definition) then some ⟨0, definition⟩ else none

/-- The cell that a reference stands for in a scope. Nothing else stands for one. -/
def Program.cellAt? (program : Program) (scope : Scope) : Expr → Option Cell
  | .name node _ => (program.resolution.definitionOf? node.id).bind (program.cellOf? scope)
  | _ => none

def Program.calleeAt? (program : Program) (node : Node) : Option Function :=
  (program.resolution.definitionOf? node.id).bind fun definition =>
    program.functions.find? (·.node.id = definition)

def lineOf? : Builtin → Int → Option String
  | .printInt, value => some (toString value)
  | .printLog, truth => some (if truth = 0 then "false" else "true")
  | _, _ => none

/-- The value of a single argument. -/
def onlyOf? : List Int → Option Int
  | [value] => some value
  | _ => none

/-- The text of a single argument that is a string constant. -/
def textOf? : List Expr → Option String
  | [.literal _ (.str text)] => some text
  | _ => none

def Function.scopeIn? (callee : Function) (scope : Scope) : Option Scope :=
  scope.tails.find? fun outer => outer.map (·.function.node.id) = callee.around

/-- What the evaluation of an expression depends on. -/
structure Surroundings where
  program : Program
  /-- How many rounds of a loop are followed. -/
  rounds : Nat
  /-- How to call a function in the scope of its definition. -/
  call : Function → Scope → List Int → Evaluation (Option Int)
  scope : Scope

open Evaluation in
mutual

/-- The value of an expression. Conditionals, loops and `print_str` have none. -/
def Expr.evaluate (around : Surroundings) : Expr → Evaluation (Option Int)
  | .literal _ (.int value) => return some value
  | .literal _ (.log truth) => return some (Word.ofBool truth)
  | .literal _ (.str _) => stuck
  | .name node spelling => do
      let cell ← given (around.program.cellAt? around.scope (.name node spelling))
      return some (← read cell)
  | .unary _ operator operand => do
      let value ← given (← operand.evaluate around)
      return some (operator.apply value)
  | .binary _ (.compute operator) left right => do
      let leftValue ← given (← left.evaluate around)
      let rightValue ← given (← right.evaluate around)
      return some (← given (operator.apply leftValue rightValue))
  | .binary _ .assign target right => do
      let cell ← given (around.program.cellAt? around.scope target)
      let value ← given (← right.evaluate around)
      assign cell value
      return some value
  | .binary _ .index _ _ => stuck
  | .call node called arguments =>
      match Builtin.ofName? called with
      | some .printStr => do
          printLine ("\"" ++ (← given (textOf? arguments)) ++ "\"")
          return none
      | some builtin => do
          let value ← given (onlyOf? (← Expr.evaluateAll around arguments))
          printLine (← given (lineOf? builtin value))
          return some value
      | none => do
          let values ← Expr.evaluateAll around arguments
          let callee ← given (around.program.calleeAt? node)
          let scope ← given (callee.scopeIn? around.scope)
          around.call callee scope values
  | .block _ items => Expr.evaluateLast around items
  | .ifThen _ condition thenBranch => do
      let test ← given (← condition.evaluate around)
      if test ≠ 0 then
        let _ ← thenBranch.evaluate around
      return none
  | .ifThenElse _ condition thenBranch elseBranch => do
      let test ← given (← condition.evaluate around)
      let _ ← if test = 0 then elseBranch.evaluate around else thenBranch.evaluate around
      return none
  | .whileLoop _ condition body => do
      repeatWhile around.rounds
        (do return (← given (← condition.evaluate around)) ≠ 0)
        (do let _ ← body.evaluate around)
      return none
  | .forLoop _ counter low high step body => do
      let cell ← given (around.program.cellAt? around.scope counter)
      assign cell (← given (← low.evaluate around))
      let bound ← given (← high.evaluate around)
      let stride ← given (← step.evaluate around)
      repeatWhile around.rounds
        (do return (← read cell) < bound)
        (do
          let _ ← body.evaluate around
          assign cell (Word.wrap ((← read cell) + stride)))
      return none
  | .whereIn _ _ inner => inner.evaluate around

/-- The values of arguments from left to right. -/
def Expr.evaluateAll (around : Surroundings) : List Expr → Evaluation (List Int)
  | [] => return []
  | expression :: rest => do
      let value ← given (← expression.evaluate around)
      return value :: (← Expr.evaluateAll around rest)

/-- The value of the last one of some expressions, after the ones before it. -/
def Expr.evaluateLast (around : Surroundings) : List Expr → Evaluation (Option Int)
  | [] => stuck
  | [last] => last.evaluate around
  | expression :: rest => do
      let _ ← expression.evaluate around
      Expr.evaluateLast around rest

end

open Evaluation in
/-- Calls a function with arguments, in the scope of its definition. At most the given
number of calls are followed into each other. -/
def Program.call (program : Program) (rounds : Nat) :
    (depth : Nat) → Function → Scope → List Int → Evaluation (Option Int)
  | 0, _, _, _ => stuck
  | depth + 1, function, scope, arguments => do
      let number ← activate
      assignAll number function.parameters arguments
      function.body.evaluate
        ⟨program, rounds, program.call rounds depth, ⟨function, number⟩ :: scope⟩

def Program.main? (program : Program) : Option Function :=
  program.functions.find? fun function =>
    function.around.isEmpty && function.name = "main" && function.parameters.isEmpty

def Program.world (program : Program) : World where
  cells := .ofList (program.globals.map fun owned => (⟨0, owned.node.id⟩, 0))

/-- The result of a program and what it prints. -/
def Program.evaluate (program : Program) (rounds depth : Nat) : Option (Int × String) :=
  match program.main? with
  | none => none
  | some main =>
      match program.call rounds depth main [] [] program.world with
      | some (some result, world) => some (result, world.output)
      | _ => none

/-! ### What a successful evaluation consists of -/

namespace Evaluation

variable {α β : Type} {world final : World}

theorem bind_eq_some {first : Evaluation α} {next : α → Evaluation β} {result : β} :
    (first >>= next) world = some (result, final) ↔
      ∃ value middle, first world = some (value, middle) ∧
        next value middle = some (result, final) := by
  change (first world).bind (fun step => next step.1 step.2) = _ ↔ _
  cases first world with
  | none => simp
  | some step =>
      constructor
      · intro succeeds
        exact ⟨step.1, step.2, rfl, succeeds⟩
      · rintro ⟨value, middle, same, succeeds⟩
        cases same
        exact succeeds

theorem pure_eq_some {value result : α} :
    (pure value : Evaluation α) world = some (result, final) ↔ result = value ∧ final = world := by
  change some (value, world) = _ ↔ _
  simp [eq_comm]

theorem stuck_ne_some {result : α} : (stuck : Evaluation α) world ≠ some (result, final) := by
  simp [stuck]

theorem given_eq_some {value : Option α} {result : α} :
    given value world = some (result, final) ↔ value = some result ∧ final = world := by
  cases value with
  | none => simp [given, stuck]
  | some value =>
      rw [given, pure_eq_some, Option.some_inj, eq_comm]

theorem read_eq_some {cell : Cell} {value : Int} :
    read cell world = some (value, final) ↔
      world.cells.get? cell = some value ∧ final = world := by
  unfold read
  cases world.cells.get? cell <;> simp [eq_comm]

theorem assign_eq_some {cell : Cell} {value : Int} {result : Unit} :
    assign cell value world = some (result, final) ↔
      final = { world with cells := world.cells.insert cell value } := by
  simp [assign, eq_comm]

theorem printLine_eq_some {line : String} {result : Unit} :
    printLine line world = some (result, final) ↔
      final = { world with output := world.output ++ line ++ "\n" } := by
  simp [printLine, eq_comm]

theorem activate_eq_some {number : Nat} :
    activate world = some (number, final) ↔
      number = world.activations ∧
        final = { world with activations := world.activations + 1 } := by
  simp [activate, eq_comm]

/-- A loop ends, or does one round and goes on with one round less to follow. -/
theorem repeatWhile_eq_some {rounds : Nat} {test : Evaluation Bool} {body : Evaluation Unit}
    {result : Unit} :
    repeatWhile rounds test body world = some (result, final) ↔
      ∃ fewer holds middle, rounds = fewer + 1 ∧ test world = some (holds, middle) ∧
        if holds then ∃ between, body middle = some ((), between) ∧
          repeatWhile fewer test body between = some ((), final)
        else final = middle := by
  cases rounds with
  | zero => simp [repeatWhile, stuck]
  | succ rounds =>
      simp only [repeatWhile, bind_eq_some]
      constructor
      · rintro ⟨holds, middle, tested, goes⟩
        refine ⟨rounds, holds, middle, rfl, tested, ?_⟩
        cases holds with
        | false => exact (pure_eq_some.mp goes).2
        | true =>
            obtain ⟨⟨⟩, between, does, again⟩ := bind_eq_some.mp goes
            exact ⟨between, does, again⟩
      · rintro ⟨fewer, holds, middle, same, tested, goes⟩
        obtain rfl := Nat.succ.inj same
        refine ⟨holds, middle, tested, ?_⟩
        cases holds with
        | false => exact pure_eq_some.mpr ⟨rfl, goes⟩
        | true =>
            obtain ⟨between, does, again⟩ := goes
            exact bind_eq_some.mpr ⟨(), between, does, again⟩

end Evaluation

section Evaluate

open Evaluation

variable {around : Surroundings} {world final : World} {result : Option Int}

attribute [local simp] Expr.evaluate Expr.evaluateAll Expr.evaluateLast

theorem evaluate_int_eq_some {node : Node} {value : Int} :
    (Expr.literal node (.int value)).evaluate around world = some (result, final) ↔
      result = some value ∧ final = world := by
  simp [pure_eq_some]

theorem evaluate_log_eq_some {node : Node} {truth : Bool} :
    (Expr.literal node (.log truth)).evaluate around world = some (result, final) ↔
      result = some (Word.ofBool truth) ∧ final = world := by
  simp [pure_eq_some]

theorem evaluate_name_eq_some {node : Node} {name : String} :
    (Expr.name node name).evaluate around world = some (result, final) ↔
      ∃ cell value, around.program.cellAt? around.scope (.name node name) = some cell ∧
        world.cells.get? cell = some value ∧ result = some value ∧ final = world := by
  simp only [Expr.evaluate, bind_eq_some, given_eq_some, read_eq_some, pure_eq_some]
  grind

theorem evaluate_unary_eq_some {node : Node} {operator : UnaryOperator} {operand : Expr} :
    (Expr.unary node operator operand).evaluate around world = some (result, final) ↔
      ∃ value, operand.evaluate around world = some (some value, final) ∧
        result = some (operator.apply value) := by
  simp only [Expr.evaluate, bind_eq_some, given_eq_some, pure_eq_some]
  grind

theorem evaluate_compute_eq_some {node : Node} {operator : Operator} {left right : Expr} :
    (Expr.binary node (.compute operator) left right).evaluate around world =
        some (result, final) ↔
      ∃ leftValue middle rightValue value,
        left.evaluate around world = some (some leftValue, middle) ∧
        right.evaluate around middle = some (some rightValue, final) ∧
        operator.apply leftValue rightValue = some value ∧ result = some value := by
  simp only [Expr.evaluate, bind_eq_some, given_eq_some, pure_eq_some]
  grind

theorem evaluate_assign_eq_some {node : Node} {target right : Expr} :
    (Expr.binary node .assign target right).evaluate around world = some (result, final) ↔
      ∃ cell value middle, around.program.cellAt? around.scope target = some cell ∧
        right.evaluate around world = some (some value, middle) ∧
        final = { middle with cells := middle.cells.insert cell value } ∧
        result = some value := by
  simp only [Expr.evaluate, bind_eq_some, given_eq_some, assign_eq_some, pure_eq_some]
  grind

/-! ### Calls -/

theorem onlyOf?_eq_some {values : List Int} {value : Int} :
    onlyOf? values = some value ↔ values = [value] := by
  unfold onlyOf?
  split <;> simp_all

theorem textOf?_eq_some {arguments : List Expr} {text : String} :
    textOf? arguments = some text ↔ ∃ node, arguments = [.literal node (.str text)] := by
  unfold textOf?
  split <;> simp_all

theorem evaluate_printStr_eq_some {node : Node} {called : String} {arguments : List Expr}
    (found : Builtin.ofName? called = some .printStr) :
    (Expr.call node called arguments).evaluate around world = some (result, final) ↔
      ∃ text, textOf? arguments = some text ∧
        final = { world with output := world.output ++ ("\"" ++ text ++ "\"") ++ "\n" } ∧
        result = none := by
  simp only [Expr.evaluate, found, bind_eq_some, given_eq_some, printLine_eq_some, pure_eq_some]
  grind

theorem evaluate_print_eq_some {node : Node} {called : String} {arguments : List Expr}
    {builtin : Builtin} (found : Builtin.ofName? called = some builtin)
    (noText : builtin ≠ .printStr) :
    (Expr.call node called arguments).evaluate around world = some (result, final) ↔
      ∃ value middle line, Expr.evaluateAll around arguments world = some ([value], middle) ∧
        lineOf? builtin value = some line ∧
        final = { middle with output := middle.output ++ line ++ "\n" } ∧
        result = some value := by
  cases builtin <;> simp only [Expr.evaluate, found, bind_eq_some, given_eq_some,
    printLine_eq_some, pure_eq_some, onlyOf?_eq_some, ne_eq, reduceCtorEq, not_true] at noText ⊢ <;>
  grind

theorem evaluate_call_eq_some {node : Node} {called : String} {arguments : List Expr}
    (found : Builtin.ofName? called = none) :
    (Expr.call node called arguments).evaluate around world = some (result, final) ↔
      ∃ values middle callee scope,
        Expr.evaluateAll around arguments world = some (values, middle) ∧
        around.program.calleeAt? node = some callee ∧
        callee.scopeIn? around.scope = some scope ∧
        around.call callee scope values middle = some (result, final) := by
  simp only [Expr.evaluate, found, bind_eq_some, given_eq_some]
  grind

theorem call_succ_eq_some {program : Program} {rounds depth : Nat} {function : Function}
    {scope : Scope} {arguments : List Int} :
    program.call rounds (depth + 1) function scope arguments world = some (result, final) ↔
      ∃ middle, assignAll world.activations function.parameters arguments
          { world with activations := world.activations + 1 } = some ((), middle) ∧
        function.body.evaluate ⟨program, rounds, program.call rounds depth,
          ⟨function, world.activations⟩ :: scope⟩ middle = some (result, final) := by
  simp only [Program.call, bind_eq_some, activate_eq_some]
  grind

/-- Arguments are the values of the parameters to which they belong, and nothing else is
assigned. -/
theorem assignAll_eq_some {number : Nat} {parameters : List Parameter} {values : List Int}
    {result : Unit} (assigned : assignAll number parameters values world = some (result, final)) :
    values.length = parameters.length ∧ final.activations = world.activations ∧
      final.output = world.output ∧ ∀ cell value, final.cells.get? cell = some value →
        world.cells.get? cell = some value ∨ ∃ (index : Nat) (parameter : Parameter),
          parameters[index]? = some parameter ∧ cell = ⟨number, parameter.node.id⟩ ∧
            values[index]? = some value := by
  induction parameters generalizing values world with
  | nil =>
      cases values with
      | nil =>
          obtain ⟨-, rfl⟩ := pure_eq_some.mp assigned
          exact ⟨rfl, rfl, rfl, fun _ _ => .inl⟩
      | cons _ _ => exact (stuck_ne_some assigned).elim
  | cons parameter parameters ih =>
      cases values with
      | nil => exact (stuck_ne_some assigned).elim
      | cons first values =>
          obtain ⟨⟨⟩, middle, assigns, others⟩ := bind_eq_some.mp assigned
          obtain rfl := assign_eq_some.mp assigns
          obtain ⟨counted, activations, output, cells⟩ := ih others
          refine ⟨by simp [counted], activations, output, fun cell value found => ?_⟩
          rcases cells cell value found with found | ⟨index, other, isThere, same, isValue⟩
          · rw [Table.get?_insert] at found
            split at found
            · next same =>
                exact .inr ⟨0, parameter, rfl, same.symm, found⟩
            · exact .inl found
          · exact .inr ⟨index + 1, other, isThere, same, isValue⟩

/-! ### Control -/

theorem evaluate_ifThen_eq_some {node : Node} {condition thenBranch : Expr} :
    (Expr.ifThen node condition thenBranch).evaluate around world = some (result, final) ↔
      ∃ test middle, condition.evaluate around world = some (some test, middle) ∧
        (if test = 0 then final = middle
        else ∃ value, thenBranch.evaluate around middle = some (value, final)) ∧
        result = none := by
  simp only [Expr.evaluate, bind_eq_some, given_eq_some]
  constructor
  · rintro ⟨_, _, tested, test, middle, ⟨rfl, rfl⟩, goes⟩
    refine ⟨test, middle, tested, ?_⟩
    by_cases isZero : test = 0
    · simp only [isZero, ne_eq, not_true, if_false, pure_eq_some] at goes
      simpa [isZero] using goes.symm
    · simp only [isZero, ne_eq, not_false_eq_true, if_true, bind_eq_some, pure_eq_some] at goes
      simp only [isZero, if_false]
      grind
  · rintro ⟨test, middle, tested, goes, rfl⟩
    refine ⟨_, middle, tested, test, _, ⟨rfl, rfl⟩, ?_⟩
    by_cases isZero : test = 0
    · simp only [isZero, ne_eq, not_true, if_false, pure_eq_some]
      simpa [isZero] using goes
    · simp only [isZero, if_false] at goes
      simp only [isZero, ne_eq, not_false_eq_true, if_true, bind_eq_some, pure_eq_some]
      grind

theorem evaluate_ifThenElse_eq_some {node : Node} {condition thenBranch elseBranch : Expr} :
    (Expr.ifThenElse node condition thenBranch elseBranch).evaluate around world =
        some (result, final) ↔
      ∃ test middle value, condition.evaluate around world = some (some test, middle) ∧
        (if test = 0 then elseBranch.evaluate around middle = some (value, final)
        else thenBranch.evaluate around middle = some (value, final)) ∧
        result = none := by
  simp only [Expr.evaluate, bind_eq_some, given_eq_some]
  constructor
  · rintro ⟨_, _, tested, test, middle, ⟨rfl, rfl⟩, goes⟩
    by_cases isZero : test = 0
    · simp only [isZero, if_true, bind_eq_some, pure_eq_some] at goes
      obtain ⟨value, _, goes, rfl, rfl⟩ := goes
      exact ⟨test, middle, value, tested, by rwa [if_pos isZero], rfl⟩
    · simp only [isZero, if_false, bind_eq_some, pure_eq_some] at goes
      obtain ⟨value, _, goes, rfl, rfl⟩ := goes
      exact ⟨test, middle, value, tested, by rwa [if_neg isZero], rfl⟩
  · rintro ⟨test, middle, value, tested, goes, rfl⟩
    refine ⟨_, middle, tested, test, _, ⟨rfl, rfl⟩, ?_⟩
    by_cases isZero : test = 0
    · rw [if_pos isZero] at goes ⊢
      exact bind_eq_some.mpr ⟨value, final, goes, pure_eq_some.mpr ⟨rfl, rfl⟩⟩
    · rw [if_neg isZero] at goes ⊢
      exact bind_eq_some.mpr ⟨value, final, goes, pure_eq_some.mpr ⟨rfl, rfl⟩⟩

theorem evaluate_whileLoop_eq_some {node : Node} {condition body : Expr} :
    (Expr.whileLoop node condition body).evaluate around world = some (result, final) ↔
      repeatWhile around.rounds
          (do return (← given (← condition.evaluate around)) ≠ 0)
          (do let _ ← body.evaluate around) world = some ((), final) ∧
        result = none := by
  simp only [Expr.evaluate, bind_eq_some, pure_eq_some]
  grind

theorem evaluate_forLoop_eq_some {node : Node} {counter low high step body : Expr} :
    (Expr.forLoop node counter low high step body).evaluate around world =
        some (result, final) ↔
      ∃ cell first afterLow bound afterHigh stride afterStep,
        around.program.cellAt? around.scope counter = some cell ∧
        low.evaluate around world = some (some first, afterLow) ∧
        high.evaluate around { afterLow with cells := afterLow.cells.insert cell first } =
          some (some bound, afterHigh) ∧
        step.evaluate around afterHigh = some (some stride, afterStep) ∧
        repeatWhile around.rounds
          (do return (← read cell) < bound)
          (do
            let _ ← body.evaluate around
            assign cell (Word.wrap ((← read cell) + stride))) afterStep = some ((), final) ∧
        result = none := by
  simp only [Expr.evaluate, bind_eq_some, given_eq_some, assign_eq_some, pure_eq_some]
  constructor
  · rintro ⟨cell, _, ⟨found, rfl⟩, _, _, lows, first, afterLow, ⟨rfl, rfl⟩, _, _, rfl,
      _, _, highs, bound, afterHigh, ⟨rfl, rfl⟩, _, _, steps, stride, afterStep, ⟨rfl, rfl⟩,
      _, _, loops, rfl, rfl⟩
    exact ⟨cell, first, afterLow, bound, afterHigh, stride, afterStep, found, lows, highs, steps,
      loops, rfl⟩
  · rintro ⟨cell, first, afterLow, bound, afterHigh, stride, afterStep, found, lows, highs, steps,
      loops, rfl⟩
    exact ⟨cell, _, ⟨found, rfl⟩, _, afterLow, lows, first, _, ⟨rfl, rfl⟩, (), _, rfl,
      _, afterHigh, highs, bound, _, ⟨rfl, rfl⟩, _, afterStep, steps, stride, _, ⟨rfl, rfl⟩,
      (), _, loops, rfl, rfl⟩

/-! ### Sequences -/

theorem evaluate_block_eq {node : Node} {items : List Expr} :
    (Expr.block node items).evaluate around = Expr.evaluateLast around items := by
  simp

theorem evaluate_whereIn_eq {node : Node} {definitions : List Def} {inner : Expr} :
    (Expr.whereIn node definitions inner).evaluate around = inner.evaluate around := by
  simp

theorem evaluateAll_nil_eq_some {values : List Int} :
    Expr.evaluateAll around [] world = some (values, final) ↔ values = [] ∧ final = world := by
  simp only [Expr.evaluateAll, pure_eq_some]

theorem evaluateAll_cons_eq_some {expression : Expr} {rest : List Expr} {values : List Int} :
    Expr.evaluateAll around (expression :: rest) world = some (values, final) ↔
      ∃ value middle others, expression.evaluate around world = some (some value, middle) ∧
        Expr.evaluateAll around rest middle = some (others, final) ∧
        values = value :: others := by
  simp only [Expr.evaluateAll, bind_eq_some, given_eq_some, pure_eq_some]
  grind

theorem length_of_evaluateAll {expressions : List Expr} {values : List Int}
    (evaluated : Expr.evaluateAll around expressions world = some (values, final)) :
    values.length = expressions.length := by
  induction expressions generalizing world values with
  | nil =>
      obtain ⟨rfl, -⟩ := evaluateAll_nil_eq_some.mp evaluated
      rfl
  | cons expression rest ih =>
      obtain ⟨_, _, others, -, evaluatedOthers, rfl⟩ := evaluateAll_cons_eq_some.mp evaluated
      rw [List.length_cons, List.length_cons, ih evaluatedOthers]

theorem evaluateLast_cons_eq_some {expression next : Expr} {rest : List Expr} :
    Expr.evaluateLast around (expression :: next :: rest) world = some (result, final) ↔
      ∃ value middle, expression.evaluate around world = some (value, middle) ∧
        Expr.evaluateLast around (next :: rest) middle = some (result, final) := by
  simp only [Expr.evaluateLast, bind_eq_some]

end Evaluate

/-! ### What names lead to -/

section Names

variable {program : Program} {scope : Scope}

theorem cellAt?_eq_some {target : Expr} {cell : Cell} :
    program.cellAt? scope target = some cell ↔
      ∃ node name definition, target = .name node name ∧
        program.resolution.definitionOf? node.id = some definition ∧
        program.cellOf? scope definition = some cell := by
  cases target <;> simp [Program.cellAt?, Option.bind_eq_some_iff]

theorem calleeAt?_eq_some {node : Node} {callee : Function}
    (found : program.calleeAt? node = some callee) :
    program.resolution.definitionOf? node.id = some callee.node.id ∧
      callee ∈ program.functions := by
  obtain ⟨definition, bound, isFirst⟩ := Option.bind_eq_some_iff.mp found
  have same : callee.node.id = definition := by simpa using List.find?_some isFirst
  exact ⟨same ▸ bound, List.mem_of_find?_eq_some isFirst⟩

/-- A callee sees a part of the scope of its caller, one activation for each function
around it. -/
theorem scopeIn?_eq_some {callee : Function} {outer : Scope}
    (found : callee.scopeIn? scope = some outer) :
    outer <:+ scope ∧ outer.map (·.function.node.id) = callee.around := by
  refine ⟨(List.mem_tails _ _).mp (List.mem_of_find?_eq_some found), ?_⟩
  simpa using List.find?_some found

/-! ### Programs -/

theorem main?_eq_some {main : Function} (found : program.main? = some main) :
    main ∈ program.functions ∧ main.around = [] ∧ main.name = "main" ∧ main.parameters = [] := by
  have isMain := List.find?_some found
  simp only [Bool.and_eq_true, List.isEmpty_iff, decide_eq_true_eq] at isMain
  exact ⟨List.mem_of_find?_eq_some found, isMain.1.1, isMain.1.2, isMain.2⟩

theorem programEvaluate_eq_some {rounds depth : Nat} {result : Int} {output : String} :
    program.evaluate rounds depth = some (result, output) ↔
      ∃ main world, program.main? = some main ∧
        program.call rounds depth main [] [] program.world = some (some result, world) ∧
        output = world.output := by
  unfold Program.evaluate
  grind

end Names

end TreeBackend.Source
