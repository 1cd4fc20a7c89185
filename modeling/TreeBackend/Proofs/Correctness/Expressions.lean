import TreeBackend.Proofs.Correctness.Calls

/-!
# What the code of expressions does

The code of an expression does what an evaluation of the expression does, by induction on the
expression.  What calls do is assumed here; it is shown by induction on their depth.
-/

namespace TreeBackend

open Filter Source Lowering
open Machine (Code Routine Returns NoBuiltin)
open Machine.Code

/-! ### Values in temporaries -/

section Temporaries

variable {context : LoweringContext} {level : Nat}

mutual

/-- No expression of a program becomes a bare temporary. -/
theorem ofExpr_lastTemp? : (expression : Source.Expr) → {state final : LoweringState} →
    {value : IR.Expr} → ofExpr context level expression state = .ok (.expr value) final →
    value.lastTemp? = none
  | .literal _ (.int _), _, _, _, lowered => by
      obtain ⟨same, -⟩ := ofExpr_int_eq_ok.mp lowered
      obtain rfl := Lowered.expr.inj same
      rfl
  | .literal _ (.log _), _, _, _, lowered => by
      obtain ⟨same, -⟩ := ofExpr_log_eq_ok.mp lowered
      obtain rfl := Lowered.expr.inj same
      rfl
  | .literal _ (.str _), _, _, _, lowered => by
      obtain ⟨same, -⟩ := ofExpr_str_eq_ok.mp lowered
      obtain rfl := Lowered.expr.inj same
      rfl
  | .name .., _, _, _, lowered => by
      obtain ⟨_, _, _, -, -, reached, same, -⟩ := ofExpr_name_eq_ok.mp lowered
      obtain rfl := Lowered.expr.inj same
      obtain ⟨_, rfl, -⟩ := cell?_quiet reached
      rfl
  | .unary _ operator operand, _, _, _, lowered => by
      obtain ⟨value, operandLowered, same⟩ := ofExpr_unary_eq_ok.mp lowered
      obtain rfl := Lowered.expr.inj same
      cases operator with
      | plus => exact ofExpr_lastTemp? operand operandLowered
      | minus | not => rfl
  | .binary _ (.compute _) .., _, _, _, lowered => by
      obtain ⟨_, _, _, -, -, same⟩ := ofExpr_compute_eq_ok.mp lowered
      obtain rfl := Lowered.expr.inj same
      rfl
  | .binary _ .index .., _, _, _, lowered => by
      obtain ⟨_, _, _, _, _, -, -, built, same⟩ := ofExpr_binary_eq_ok.mp lowered
      obtain rfl := Lowered.expr.inj same
      obtain ⟨_, -, rfl, -⟩ := ofBinary_index_eq_ok.mp built
      rfl
  | .binary _ .assign target _, _, _, _, lowered => by
      obtain ⟨left, _, _, _, _, targets, -, built, same⟩ := ofExpr_binary_eq_ok.mp lowered
      obtain rfl := Lowered.expr.inj same
      have noTemp := ofExpr_lastTemp? target targets
      cases left with
      | mem address =>
          rw [ofBinary_assign_mem_eq_ok] at built
          split at built <;>
          · obtain ⟨rfl, -⟩ := built
            rfl
      | const | name | temp | binop | call | eseq =>
          obtain ⟨rfl, -⟩ := Outcome.pure_eq_ok.mp built
          exact noTemp
  | .call .., _, _, _, lowered => by
      obtain ⟨_, _, -, -, same⟩ := ofExpr_call_eq_ok.mp lowered
      obtain rfl := Lowered.expr.inj same
      rfl
  | .block _ items, _, _, _, lowered => by
      obtain ⟨front, last, itemsLowered, same⟩ := ofExpr_block_eq_ok.mp lowered
      obtain rfl := Lowered.expr.inj same
      exact ofExprs_lastTemp? items itemsLowered last
        (List.mem_append_right _ (List.mem_cons_self ..))
  | .ifThen .., _, _, _, lowered => by
      obtain ⟨_, _, _, _, -, -, -, same⟩ := ofExpr_ifThen_eq_ok.mp lowered
      cases same
  | .ifThenElse .., _, _, _, lowered => by
      obtain ⟨_, _, _, _, _, _, -, -, -, -, same⟩ := ofExpr_ifThenElse_eq_ok.mp lowered
      cases same
  | .whileLoop .., _, _, _, lowered => by
      obtain ⟨_, _, _, _, -, -, -, same⟩ := ofExpr_whileLoop_eq_ok.mp lowered
      cases same
  | .forLoop .., _, _, _, lowered => by
      obtain ⟨_, _, _, _, _, _, _, _, _, _, _, -, -, -, -, -, -, -, same⟩ :=
        ofExpr_forLoop_eq_ok.mp lowered
      cases same
  | .whereIn _ _ inner, _, _, _, lowered => by
      obtain ⟨_, _, -, innerLowered, same⟩ := ofExpr_whereIn_eq_ok.mp lowered
      obtain rfl := Lowered.expr.inj same
      exact ofExpr_lastTemp? inner innerLowered

theorem ofExprs_lastTemp? : (expressions : List Source.Expr) → {state final : LoweringState} →
    {parts : List Lowered} → ofExprs context level expressions state = .ok parts final →
    ∀ value, .expr value ∈ parts → value.lastTemp? = none
  | [], _, _, _, lowered => by
      obtain ⟨rfl, -⟩ := ofExprs_nil_eq_ok.mp lowered
      simp
  | expression :: others, _, _, _, lowered => by
      obtain ⟨_, _, _, first, rest, rfl⟩ := ofExprs_cons_eq_ok.mp lowered
      intro value member
      rcases List.mem_cons.mp member with rfl | member
      · exact ofExpr_lastTemp? expression first
      · exact ofExprs_lastTemp? others rest value member

end

theorem ofArguments_lastTemp? {expressions : List Source.Expr} {state final : LoweringState}
    {operands : List IR.Expr}
    (lowered : ofArguments context level expressions state = .ok operands final) :
    ∀ operand ∈ operands, operand.lastTemp? = none := by
  induction expressions generalizing state operands with
  | nil =>
      obtain ⟨rfl, -⟩ := ofArguments_nil_eq_ok.mp lowered
      simp
  | cons expression rest ih =>
      obtain ⟨_, _, _, first, others, rfl⟩ := ofArguments_cons_eq_ok.mp lowered
      exact List.forall_mem_cons.mpr ⟨ofExpr_lastTemp? expression first, ih others⟩

theorem assigned_lt {expression : Source.Expr} {state final : LoweringState} {code : Lowered}
    (assign : AssignToReferences expression.parts)
    (lowered : ofExpr context level expression state = .ok code final) :
    ∀ temp ∈ code.toStmt.assigned, temp.number < final.temps.issued :=
  fun temp member =>
    have drawn := ofExpr_draws expression assign.toCells lowered
    (drawn.temp temp (IR.Stmt.assigned_subset _ member)).2

end Temporaries

/-! ### Expressions -/

/-- Calls do what an evaluation of them does: there is room for the frame of the callee, and it
returns. -/
structure CallsWork (program : Program)
    (call : Source.Function → Scope → List Int → Evaluation (Option Int)) (table : FrameTable)
    (start : Machine) (live : List LiveCall) : Prop where
  counted : ∀ {callee : Source.Function} {scope : Scope} {values : List Int} {world after : World}
    {result : Option Int}, call callee scope values world = some (result, after) →
      values.length = callee.parameters.length
  works : ∀ {callee : Source.Function} {routine : Routine} {scope : Scope} {values : List Int}
    {world after : World} {result : Option Int},
    call callee scope values world = some (result, after) →
    CanCall program table (callsOf live) callee routine →
    start.routine? routine.frame.label = some routine → IsScopeOf live callee.around scope →
      start.memory.staticTop ≤ (newCall start (callsOf live) callee routine).top ∧
      ∀ {machine : Machine}, Represents table start live world machine → ∃ value final,
        Returns routine (Call.linkOf callee (callsOf live) :: values) machine value final ∧
        (∀ found ∈ result, value = found) ∧ Represents table start live after final

/-- The innermost one of some calls carries out an activation in certain surroundings. -/
structure Scene (around : Surroundings) (table : FrameTable) (chunks : List IR.Chunk)
    (start : Machine) (here : LiveCall) (older : List LiveCall) : Prop where
  furnished : Furnished around.program table chunks start
  isLive : IsLive around.program table start (here :: older)
  inScope : IsScopeOf (here :: older)
    (here.call.function.node.id :: here.call.function.around) around.scope
  calls : CallsWork around.program around.call table start (here :: older)

/-- The temporaries that were drawn lie below a bound, and the string constants that were
finished are in the program. -/
structure Within (bound : Nat) (chunks : List IR.Chunk) (state : LoweringState) : Prop where
  temps : state.temps.issued ≤ bound
  text : ∀ slot text, .data slot text ∈ state.chunks → .data slot text ∈ chunks

theorem Within.before {bound : Nat} {chunks : List IR.Chunk} {state final : LoweringState}
    (within : Within bound chunks final) (precedes : state.Precedes final) :
    Within bound chunks state :=
  ⟨precedes.temps.trans within.temps,
    fun slot text member => within.text slot text (precedes.chunks.mem member)⟩

/-- A part of the body of a function: it calls as the function does, and its assignments go to
references. -/
structure IsPartOf (function : Source.Function) (calls : List Nat) (parts : List Source.Expr) :
    Prop where
  calls : calls ⊆ function.contents.calls
  assign : AssignToReferences parts

namespace IsPartOf

variable {function : Source.Function} {calls others : List Nat} {part : Source.Expr}
  {parts rest : List Source.Expr}

theorem left (both : IsPartOf function (calls ++ others) (parts ++ rest)) :
    IsPartOf function calls parts :=
  ⟨(List.append_subset.mp both.calls).1, both.assign.left⟩

theorem right (both : IsPartOf function (calls ++ others) (parts ++ rest)) :
    IsPartOf function others rest :=
  ⟨(List.append_subset.mp both.calls).2, both.assign.right⟩

/-- What is in an expression is as much a part as the expression. -/
theorem within (whole : IsPartOf function calls (part :: parts)) : IsPartOf function calls parts :=
  ⟨whole.calls, whole.assign.within⟩

theorem arguments {count : Nat}
    (whole : IsPartOf function ([count] ++ calls) (part :: parts)) :
    IsPartOf function calls parts :=
  ⟨(List.append_subset.mp whole.calls).2, whole.within.assign⟩

end IsPartOf

section Expressions

variable {around : Surroundings} {table : FrameTable} {chunks : List IR.Chunk} {start : Machine}
  {here : LiveCall} {older : List LiveCall} {statements : Array IR.Stmt} {jumps : Table Label Nat}
  {bound : Nat}

theorem Scene.exists_routine (scene : Scene around table chunks start here older)
    {callee : Source.Function} {scope : Scope} {arguments : Nat} {frame : Frame}
    (member : callee ∈ around.program.functions) (found : callee.scopeIn? around.scope = some scope)
    (isFrame : table.frame? callee.node.id = some frame)
    (counted : arguments = callee.parameters.length)
    (isCall : arguments ∈ here.call.function.contents.calls) :
    ∃ routine, CanCall around.program table (callsOf (here :: older)) callee routine ∧
      routine.frame = frame ∧ NoBuiltin frame.label ∧
      start.routine? frame.label = some routine := by
  have hosts := scene.furnished.toHosts
  obtain ⟨own, items, isOwn, -, -, noBuiltin, isRoutine⟩ := scene.furnished.code callee member
  obtain rfl := Option.some_inj.mp (isFrame.symm.trans isOwn)
  obtain ⟨labels, laid⟩ := hosts.laidOut (scene.isLive.function_mem (List.mem_cons_self ..))
  obtain ⟨label, -, ownFrame⟩ := laid.frame
  have runs := (scene.isLive.stack.routines here.call (List.mem_cons_self ..)).frame
  have room : callSize callee.parameters.length ≤ here.call.routine.frame.argumentsSize := by
    rw [Option.some_inj.mp (runs.symm.trans ownFrame), ← counted]
    exact (argumentsSize_frame around.program.resolution _ label).2.2 _ isCall
  exact ⟨_, canCall_of_routine? hosts member isFrame (scene.inScope.isVisibleFrom found) room
    (Machine.Steady.refl start) isRoutine, rfl, noBuiltin, isRoutine⟩

theorem Scene.isWordOf (scene : Scene around table chunks start here older) {node : Node}
    {name : String} {cell : Cell} {code : Lowered} {state final : LoweringState}
    (found : around.program.cellAt? around.scope (.name node name) = some cell)
    (lowered : ofExpr ⟨around.program.resolution, table⟩ here.call.function.depth
      (.name node name) state = .ok code final) :
    ∃ address place, code = .expr (.mem address) ∧ final = state ∧
      IsWordOf table start (here :: older) cell address place := by
  obtain ⟨_, _, value, bound, stored, reached, rfl, rfl⟩ := ofExpr_name_eq_ok.mp lowered
  obtain ⟨address, place, rfl, word⟩ := scene.inScope.isWordOf scene.furnished scene.isLive found
    ((@ofName_eq_ok _ _ final _ _ _ name).mpr ⟨_, _, bound, stored, reached, rfl⟩)
  exact ⟨address, place, rfl, rfl, word⟩

theorem Scene.achieves_assign (scene : Scene around table chunks start here older) {node : Node}
    {cell : Cell} {address expression result : IR.Expr} {place value : Int} {world after : World}
    {state final : LoweringState} (word : IsWordOf table start (here :: older) cell address place)
    (achieves : Achieves table start (here :: older) (.ofBody statements jumps) bound world
      (some value) after (.expr expression))
    (built : ofBinary ⟨around.program.resolution, table⟩ node .assign (.mem address) expression
      state = .ok result final)
    (drawn : ∀ temp ∈ expression.assigned, temp.number < state.temps.issued)
    (within : Within bound chunks final) :
    Achieves table start (here :: older) (.ofBody statements jumps) bound world (some value)
      { after with cells := after.cells.insert cell value } (.expr result) := by
  rw [ofBinary_assign_mem_eq_ok] at built
  split at built
  · obtain ⟨rfl, rfl⟩ := built
    exact achieves_assignment scene.furnished scene.isLive word achieves
  · obtain ⟨rfl, rfl⟩ := built
    refine achieves_assignmentOnce scene.furnished scene.isLive word achieves within.temps
      fun member => ?_
    exact Nat.lt_irrefl _ (drawn _ member)

/-! ### Calls -/

theorem Scene.achieves_printStr (scene : Scene around table chunks start here older)
    {arguments : List Source.Expr} {text : String} {operands : List IR.Expr} {world : World}
    {state final : LoweringState} (isText : textOf? arguments = some text)
    (lowered : ofArguments ⟨around.program.resolution, table⟩ here.call.function.depth arguments
      state = .ok operands final)
    (within : Within bound chunks final) :
    Achieves table start (here :: older) (.ofBody statements jumps) bound world none
      { world with output := world.output ++ ("\"" ++ text ++ "\"") ++ "\n" }
      (.expr (call here.call.function.depth ⟨.named Builtin.printStr.name, 1, none⟩ operands)) := by
  obtain ⟨node, rfl⟩ := textOf?_eq_some.mp isText
  have noTemp := ofArguments_lastTemp? lowered
  obtain ⟨_, _, _, literal, nothing, rfl⟩ := ofArguments_cons_eq_ok.mp lowered
  obtain ⟨rfl, rfl⟩ := ofArguments_nil_eq_ok.mp nothing
  obtain ⟨same, rfl⟩ := ofExpr_str_eq_ok.mp literal
  obtain rfl := Lowered.expr.inj same
  obtain ⟨noFrame, noStack, address, known, isThere⟩ := scene.furnished.text _ text
    (within.text _ text (List.mem_append_right _ (List.mem_cons_self ..)))
  have achieves : AchievesAll table start (here :: older) (.ofBody statements jumps) bound world
      [address] world [.name state.labels.next] := by
    intro temps machine represents
    refine Code.yields_name ?_ fun _ _ _ _ => ⟨rfl, represents⟩
    rw [represents.keeps.steady.labels _ noFrame noStack, known]
  exact achieves_print noTemp achieves (fun represents => Machine.callBuiltin_printStr_eq
    represents.output 0 (represents.constants address _ isThere rfl)) (by simp)

theorem achieves_printValue {arguments : List Source.Expr} {builtin : Builtin}
    {operands : List IR.Expr} {value : Int} {line : String} {world middle : World}
    {state final : LoweringState} (prints : lineOf? builtin value = some line)
    (lowered : ofArguments ⟨around.program.resolution, table⟩ here.call.function.depth arguments
      state = .ok operands final)
    (achieves : AchievesAll table start (here :: older) (.ofBody statements jumps) bound world
      [value] middle operands) :
    Achieves table start (here :: older) (.ofBody statements jumps) bound world (some value)
      { middle with output := middle.output ++ line ++ "\n" }
      (.expr (call here.call.function.depth ⟨.named builtin.name, 1, none⟩ operands)) := by
  refine achieves_print (ofArguments_lastTemp? lowered) achieves (fun represents => ?_)
    fun _ same => Option.some_inj.mp same
  cases builtin with
  | printInt =>
      obtain rfl := Option.some_inj.mp prints
      exact Machine.callBuiltin_printInt_eq represents.output 0 value
  | printLog =>
      obtain rfl := Option.some_inj.mp prints
      exact Machine.callBuiltin_printLog_eq represents.output 0 value
  | printStr | randInt | seed => cases prints

theorem Scene.achieves_function (scene : Scene around table chunks start here older) {node : Node}
    {arguments : List Source.Expr} {called : Source.Function} {scope : Scope} {callee : Callee}
    {operands : List IR.Expr} {values : List Int} {world middle after : World}
    {result : Option Int} {state between final : LoweringState} {name : String}
    (isCallee : around.program.calleeAt? node = some called)
    (isScope : called.scopeIn? around.scope = some scope)
    (calls : around.call called scope values middle = some (result, after))
    (noBuiltin : Builtin.ofName? name = none)
    (found : findCallee ⟨around.program.resolution, table⟩ node name state = .ok callee between)
    (lowered : ofArguments ⟨around.program.resolution, table⟩ here.call.function.depth arguments
      state = .ok operands final)
    (isCall : values.length ∈ here.call.function.contents.calls)
    (achieves : AchievesAll table start (here :: older) (.ofBody statements jumps) bound world
      values middle operands) :
    Achieves table start (here :: older) (.ofBody statements jumps) bound world result after
      (.expr (call here.call.function.depth callee operands)) := by
  obtain ⟨bound, member⟩ := calleeAt?_eq_some isCallee
  obtain ⟨⟨_, isBuiltin, -⟩ | ⟨-, definition, frame, isBound, isFrame, rfl⟩, -⟩ :=
    findCallee_eq_ok.mp found
  · cases noBuiltin.symm.trans isBuiltin
  · obtain rfl := Option.some_inj.mp (bound.symm.trans isBound)
    obtain ⟨routine, can, rfl, noName, isRoutine⟩ := scene.exists_routine member isScope isFrame
      (scene.calls.counted calls) isCall
    obtain ⟨room, returns⟩ := scene.calls.works calls can isRoutine (scene.inScope.scopeIn isScope)
    exact achieves_call scene.furnished scene.isLive can room noName isRoutine
      (ofArguments_lastTemp? lowered) achieves returns

/-! ### Expressions from their parts -/

section Parts

variable (around table chunks start here older statements jumps bound)

/-- Wherever the code of an expression stands in a function that is open, it does what an
evaluation of the expression does. -/
def AchievesExpr (expression : Source.Expr) : Prop :=
  ∀ ⦃state final : LoweringState⦄ ⦃code : Lowered⦄ ⦃world after : World⦄ ⦃result : Option Int⦄,
    IsPartOf here.call.function
      (expression.contents (here.call.function.node.id :: here.call.function.around)).calls
      expression.parts →
    Within bound chunks final →
    ofExpr ⟨around.program.resolution, table⟩ here.call.function.depth expression state =
      .ok code final →
    expression.evaluate around world = some (result, after) →
    Achieves table start (here :: older) (.ofBody statements jumps) bound world result after code

def AchievesArguments (expressions : List Source.Expr) : Prop :=
  ∀ ⦃state final : LoweringState⦄ ⦃operands : List IR.Expr⦄ ⦃world after : World⦄
    ⦃values : List Int⦄,
    IsPartOf here.call.function (Source.Expr.contentsOfList
      (here.call.function.node.id :: here.call.function.around) expressions).calls
      (Source.Expr.partsOfList expressions) →
    Within bound chunks final →
    ofArguments ⟨around.program.resolution, table⟩ here.call.function.depth expressions state =
      .ok operands final →
    Source.Expr.evaluateAll around expressions world = some (values, after) →
    AchievesAll table start (here :: older) (.ofBody statements jumps) bound world values after
      operands

variable {around table chunks start here older statements jumps bound} {node : Node}

theorem achievesExpr_compute {operator : Operator} {left right : Source.Expr}
    (lefts : AchievesExpr around table chunks start here older statements jumps bound left)
    (rights : AchievesExpr around table chunks start here older statements jumps bound right) :
    AchievesExpr around table chunks start here older statements jumps bound
      (.binary node (.compute operator) left right) := by
  intro _ _ _ _ _ _ part within lowered evaluated
  obtain ⟨_, _, _, leftLowered, rightLowered, rfl⟩ := ofExpr_compute_eq_ok.mp lowered
  obtain ⟨_, _, _, _, leftEvaluated, rightEvaluated, applied, rfl⟩ :=
    evaluate_compute_eq_some.mp evaluated
  exact achieves_binop (ofExpr_lastTemp? left leftLowered)
    (lefts part.within.left (within.before (ofExpr_precedes rightLowered)) leftLowered
      leftEvaluated)
    (rights part.within.right within rightLowered rightEvaluated) applied

theorem Scene.achievesExpr_assign (scene : Scene around table chunks start here older)
    {target value : Source.Expr}
    (values : AchievesExpr around table chunks start here older statements jumps bound value) :
    AchievesExpr around table chunks start here older statements jumps bound
      (.binary node .assign target value) := by
  intro _ _ _ _ _ _ part within lowered evaluated
  obtain ⟨_, _, _, _, _, targets, valueLowered, built, rfl⟩ := ofExpr_binary_eq_ok.mp lowered
  obtain ⟨cell, number, _, found, valueEvaluated, rfl, rfl⟩ :=
    evaluate_assign_eq_some.mp evaluated
  obtain ⟨_, _, _, rfl, -⟩ := cellAt?_eq_some.mp found
  obtain ⟨address, place, same, rfl, word⟩ := scene.isWordOf found targets
  obtain rfl := Lowered.expr.inj same
  exact scene.achieves_assign word
    (values part.within.right (within.before (ofBinary_quiet built).1) valueLowered valueEvaluated)
    built (assigned_lt part.within.right.assign valueLowered) within

theorem Scene.achievesExpr_call (scene : Scene around table chunks start here older)
    {called : String} {arguments : List Source.Expr}
    (achieves : AchievesArguments around table chunks start here older statements jumps bound
      arguments) :
    AchievesExpr around table chunks start here older statements jumps bound
      (.call node called arguments) := by
  intro _ _ _ _ _ _ part within lowered evaluated
  obtain ⟨callee, operands, found, argumentsLowered, rfl⟩ := ofExpr_call_eq_ok.mp lowered
  cases isBuiltin : Builtin.ofName? called with
  | none =>
      obtain ⟨values, middle, function, scope, argumentsEvaluated, isCallee, isScope, calls⟩ :=
        (evaluate_call_eq_some isBuiltin).mp evaluated
      refine scene.achieves_function isCallee isScope calls isBuiltin found argumentsLowered ?_
        (achieves part.arguments within argumentsLowered argumentsEvaluated)
      rw [length_of_evaluateAll argumentsEvaluated]
      exact part.calls (List.mem_cons_self ..)
  | some builtin =>
      obtain rfl : callee = ⟨.named builtin.name, 1, none⟩ := by
        obtain ⟨⟨_, same, rfl⟩ | ⟨noBuiltin, -⟩, -⟩ := findCallee_eq_ok.mp found
        · obtain rfl := Option.some_inj.mp (isBuiltin.symm.trans same)
          rfl
        · cases noBuiltin.symm.trans isBuiltin
      by_cases isText : builtin = .printStr
      · subst isText
        obtain ⟨text, isText, rfl, rfl⟩ := (evaluate_printStr_eq_some isBuiltin).mp evaluated
        exact scene.achieves_printStr isText argumentsLowered within
      · obtain ⟨value, middle, line, argumentsEvaluated, prints, rfl, rfl⟩ :=
          (evaluate_print_eq_some isBuiltin isText).mp evaluated
        exact achieves_printValue prints argumentsLowered
          (achieves part.arguments within argumentsLowered argumentsEvaluated)

theorem achievesExpr_ifThen {condition thenBranch : Source.Expr}
    (conditions : AchievesExpr around table chunks start here older statements jumps bound
      condition)
    (thens : AchievesExpr around table chunks start here older statements jumps bound thenBranch) :
    AchievesExpr around table chunks start here older statements jumps bound
      (.ifThen node condition thenBranch) := by
  intro _ _ _ _ _ _ part within lowered evaluated
  obtain ⟨_, _, _, last, tests, branches, rfl, rfl⟩ := ofExpr_ifThen_eq_ok.mp lowered
  obtain ⟨test, _, tested, goes, rfl⟩ := evaluate_ifThen_eq_some.mp evaluated
  have within := within.before (afterLabels_quiet last).1
  refine achieves_ifThen (conditions part.within.left (within.before (ofExpr_precedes branches))
    tests tested) ?_
  split at goes
  · next isZero => rwa [if_pos isZero]
  · next notZero =>
      rw [if_neg notZero]
      exact goes.imp fun _ evaluated => thens part.within.right within branches evaluated

theorem achievesExpr_ifThenElse {condition thenBranch elseBranch : Source.Expr}
    (conditions : AchievesExpr around table chunks start here older statements jumps bound
      condition)
    (thens : AchievesExpr around table chunks start here older statements jumps bound thenBranch)
    (elses : AchievesExpr around table chunks start here older statements jumps bound elseBranch) :
    AchievesExpr around table chunks start here older statements jumps bound
      (.ifThenElse node condition thenBranch elseBranch) := by
  intro _ _ _ _ _ _ part within lowered evaluated
  obtain ⟨_, _, _, _, _, last, tests, branches, others, rfl, rfl⟩ :=
    ofExpr_ifThenElse_eq_ok.mp lowered
  obtain ⟨test, _, value, tested, goes, rfl⟩ := evaluate_ifThenElse_eq_some.mp evaluated
  have within := within.before (afterLabels_quiet last).1
  have beforeOther := within.before (ofExpr_precedes others)
  refine achieves_ifThenElse (conditions part.within.left.left
    (beforeOther.before (ofExpr_precedes branches)) tests tested) ⟨value, ?_⟩
  split at goes
  · next isZero =>
      rw [if_pos isZero]
      exact elses part.within.right within others goes
  · next notZero =>
      rw [if_neg notZero]
      exact thens part.within.left.right beforeOther branches goes

theorem achievesExpr_whileLoop {condition body : Source.Expr}
    (conditions : AchievesExpr around table chunks start here older statements jumps bound
      condition)
    (bodies : AchievesExpr around table chunks start here older statements jumps bound body) :
    AchievesExpr around table chunks start here older statements jumps bound
      (.whileLoop node condition body) := by
  intro _ _ _ _ _ _ part within lowered evaluated
  obtain ⟨_, _, _, last, tests, bodied, rfl, rfl⟩ := ofExpr_whileLoop_eq_ok.mp lowered
  obtain ⟨repeats, rfl⟩ := evaluate_whileLoop_eq_some.mp evaluated
  have within := within.before (afterLabels_quiet last).1
  exact achieves_whileLoop
    (fun tested => conditions part.within.left (within.before (ofExpr_precedes bodied)) tests
      tested)
    (fun done => bodies part.within.right within bodied done) repeats

theorem Scene.achievesExpr_forLoop (scene : Scene around table chunks start here older)
    {counter low high step body : Source.Expr}
    (lower : AchievesExpr around table chunks start here older statements jumps bound low)
    (upper : AchievesExpr around table chunks start here older statements jumps bound high)
    (strides : AchievesExpr around table chunks start here older statements jumps bound step)
    (bodies : AchievesExpr around table chunks start here older statements jumps bound body) :
    AchievesExpr around table chunks start here older statements jumps bound
      (.forLoop node counter low high step body) := by
  intro _ _ _ _ _ _ part within lowered evaluated
  obtain ⟨_, _, _, _, afterLow, _, afterHigh, _, afterStep, _, last, rfl, counted, lows, highs,
    steps, bodied, rfl, rfl⟩ := ofExpr_forLoop_eq_ok.mp lowered
  obtain ⟨cell, _, _, _, _, _, _, found, lowEvaluated, highEvaluated, stepEvaluated, repeats,
    rfl⟩ := evaluate_forLoop_eq_some.mp evaluated
  obtain ⟨address, place, rfl, word⟩ :=
    scene.inScope.isWordOf scene.furnished scene.isLive found counted
  have afterBody := within.before (LoweringState.Draws.afterLoop last).precedes
  have afterSteps := afterBody.before (ofExpr_precedes bodied)
  have afterHighs := afterSteps.before (ofExpr_precedes steps)
  -- Both temporaries are drawn when all code of the loop is there, so it assigns neither.
  have drawn : last.temps.issued + 1 < bound := within.temps
  have stepsLe := (ofExpr_precedes bodied).temps
  have inBody := assigned_lt part.within.right.assign bodied
  refine achieves_forLoop scene.furnished scene.isLive word
    (lower part.within.left.left.left.right (afterHighs.before (ofExpr_precedes highs)) lows
      lowEvaluated)
    (upper part.within.left.left.right afterHighs highs highEvaluated)
    (strides part.within.left.right afterSteps steps stepEvaluated)
    (fun done => bodies part.within.right afterBody bodied done) repeats
    (by simp [IR.TempSupply.next, IR.TempSupply.rest]) (Nat.lt_of_succ_lt drawn) drawn
    (fun member => ?_) (fun member => ?_) (fun member => ?_)
  · exact absurd (assigned_lt part.within.left.right.assign steps _ member)
      (Nat.not_lt.mpr stepsLe)
  · exact absurd (inBody _ member) (Nat.lt_irrefl _)
  · exact absurd (inBody _ member) (Nat.not_lt.mpr (Nat.le_succ _))

end Parts

/-! ### By induction -/

mutual

/-- The code of an expression does what an evaluation of the expression does. -/
theorem evaluate_achieves (scene : Scene around table chunks start here older) :
    (expression : Source.Expr) →
    AchievesExpr around table chunks start here older statements jumps bound expression
  | .literal _ (.int value) => fun _ _ _ _ _ _ _ _ lowered evaluated => by
      obtain ⟨rfl, rfl⟩ := ofExpr_int_eq_ok.mp lowered
      obtain ⟨rfl, rfl⟩ := evaluate_int_eq_some.mp evaluated
      exact achieves_const
  | .literal _ (.log truth) => fun _ _ _ _ _ _ _ _ lowered evaluated => by
      obtain ⟨rfl, rfl⟩ := ofExpr_log_eq_ok.mp lowered
      obtain ⟨rfl, rfl⟩ := evaluate_log_eq_some.mp evaluated
      exact achieves_const
  | .literal _ (.str _) => fun _ _ _ _ _ _ _ _ _ evaluated => by
      rw [Source.Expr.evaluate] at evaluated
      exact (Evaluation.stuck_ne_some evaluated).elim
  | .name node name => fun _ _ _ _ _ _ _ _ lowered evaluated => by
      obtain ⟨cell, value, found, assigned, rfl, rfl⟩ := evaluate_name_eq_some.mp evaluated
      obtain ⟨address, place, rfl, -, word⟩ := scene.isWordOf found lowered
      exact word.achieves assigned
  | .unary _ operator operand => fun _ _ _ _ _ _ part within lowered evaluated => by
      obtain ⟨value, operandLowered, rfl⟩ := ofExpr_unary_eq_ok.mp lowered
      obtain ⟨number, operandEvaluated, rfl⟩ := evaluate_unary_eq_some.mp evaluated
      exact achieves_unary (ofExpr_lastTemp? operand operandLowered)
        (evaluate_achieves scene operand part.within within operandLowered operandEvaluated)
  | .binary _ (.compute _) left right =>
      achievesExpr_compute (evaluate_achieves scene left) (evaluate_achieves scene right)
  | .binary _ .index _ _ => fun _ _ _ _ _ _ _ _ _ evaluated => by
      rw [Source.Expr.evaluate] at evaluated
      exact (Evaluation.stuck_ne_some evaluated).elim
  | .binary _ .assign _ value => scene.achievesExpr_assign (evaluate_achieves scene value)
  | .call _ _ arguments => scene.achievesExpr_call (evaluateAll_achieves scene arguments)
  | .block _ items => fun _ _ _ _ _ _ part within lowered evaluated => by
      obtain ⟨front, last, itemsLowered, rfl⟩ := ofExpr_block_eq_ok.mp lowered
      rw [evaluate_block_eq] at evaluated
      intro temps machine represents
      exact yields_eseq (performs_seq
        (evaluateLast_performs scene items part.within within itemsLowered evaluated represents))
  | .ifThen _ condition thenBranch =>
      achievesExpr_ifThen (evaluate_achieves scene condition) (evaluate_achieves scene thenBranch)
  | .ifThenElse _ condition thenBranch elseBranch =>
      achievesExpr_ifThenElse (evaluate_achieves scene condition)
        (evaluate_achieves scene thenBranch) (evaluate_achieves scene elseBranch)
  | .whileLoop _ condition body =>
      achievesExpr_whileLoop (evaluate_achieves scene condition) (evaluate_achieves scene body)
  | .forLoop _ _ low high step body =>
      scene.achievesExpr_forLoop (evaluate_achieves scene low) (evaluate_achieves scene high)
        (evaluate_achieves scene step) (evaluate_achieves scene body)
  | .whereIn _ definitions inner => fun _ _ _ _ _ _ part within lowered evaluated => by
      obtain ⟨_, _, -, innerLowered, rfl⟩ := ofExpr_whereIn_eq_ok.mp lowered
      rw [evaluate_whereIn_eq] at evaluated
      exact evaluate_achieves scene inner part.within.right within innerLowered evaluated

/-- The code of arguments does what an evaluation of them does. -/
theorem evaluateAll_achieves (scene : Scene around table chunks start here older) :
    (expressions : List Source.Expr) →
    AchievesArguments around table chunks start here older statements jumps bound expressions
  | [] => fun _ _ _ _ _ _ _ _ lowered evaluated => by
      obtain ⟨rfl, rfl⟩ := ofArguments_nil_eq_ok.mp lowered
      obtain ⟨rfl, rfl⟩ := evaluateAll_nil_eq_some.mp evaluated
      exact achievesAll_nil
  | expression :: rest => fun _ _ _ _ _ _ part within lowered evaluated => by
      obtain ⟨_, _, _, first, others, rfl⟩ := ofArguments_cons_eq_ok.mp lowered
      obtain ⟨_, _, _, firstEvaluated, othersEvaluated, rfl⟩ :=
        evaluateAll_cons_eq_some.mp evaluated
      exact achievesAll_cons
        (evaluate_achieves scene expression part.left (within.before (ofArguments_precedes others))
          first firstEvaluated)
        (evaluateAll_achieves scene rest part.right within others othersEvaluated)

/-- The code of the items of a block does what an evaluation of them does, the last one giving
the value. -/
theorem evaluateLast_performs (scene : Scene around table chunks start here older) :
    (expressions : List Source.Expr) → {state final : LoweringState} → {front : List Lowered} →
    {last : IR.Expr} → {world after : World} → {result : Option Int} →
    {temps : Machine.Temps} → {machine : Machine} →
    IsPartOf here.call.function (Source.Expr.contentsOfList
      (here.call.function.node.id :: here.call.function.around) expressions).calls
      (Source.Expr.partsOfList expressions) →
    Within bound chunks final →
    ofExprs ⟨around.program.resolution, table⟩ here.call.function.depth expressions state =
      .ok (front ++ [.expr last]) final →
    Source.Expr.evaluateLast around expressions world = some (result, after) →
    Represents table start (here :: older) world machine →
    (Machine.Code.ofBody statements jumps).PerformsAll bound (front.map Lowered.toStmt) temps
      machine fun temps machine =>
        (Machine.Code.ofBody statements jumps).Yields bound last temps machine fun value _ final =>
          (∀ found ∈ result, value = found) ∧ Represents table start (here :: older) after final
  | [], _, _, _, _, _, _, _, _, _, _, _, _, evaluated, _ => by
      rw [Source.Expr.evaluateLast] at evaluated
      exact (Evaluation.stuck_ne_some evaluated).elim
  | [expression], _, _, front, last, _, _, _, _, _, part, within, lowered, evaluated,
      represents => by
      obtain ⟨_, _, _, first, nothing, same⟩ := ofExprs_cons_eq_ok.mp lowered
      obtain ⟨rfl, rfl⟩ := ofExprs_nil_eq_ok.mp nothing
      obtain ⟨rfl, same⟩ := List.append_inj' (show front ++ [.expr last] = [] ++ [_] from same) rfl
      obtain rfl := List.head_eq_of_cons_eq same
      exact fun temps' _ =>
        evaluate_achieves scene expression part.left within first evaluated represents
  | expression :: next :: rest, _, _, front, _, _, _, _, _, _, part, within, lowered, evaluated,
      represents => by
      obtain ⟨first, _, others, firstLowered, othersLowered, same⟩ :=
        ofExprs_cons_eq_ok.mp lowered
      obtain ⟨_, _, firstEvaluated, othersEvaluated⟩ := evaluateLast_cons_eq_some.mp evaluated
      cases front with
      | nil =>
          obtain ⟨_, _, _, -, -, rfl⟩ := ofExprs_cons_eq_ok.mp othersLowered
          cases same
      | cons code front =>
          obtain ⟨rfl, rfl⟩ := List.cons.inj same
          have achieves := evaluate_achieves scene expression part.left
            (within.before (ofExprs_precedes othersLowered)) firstLowered firstEvaluated
          exact (achieves.toStmt represents).mono fun _ _ represents =>
            evaluateLast_performs scene (next :: rest) part.right within othersLowered
              othersEvaluated represents

end

end Expressions

end TreeBackend
