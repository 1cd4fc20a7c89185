import TreeBackend.Proofs.Frame.Completeness
import TreeBackend.Proofs.Lowering.Inversion

/-!
# Levels in lowering and in the table

Lowering counts how many functions it has gone into.  The table of a program has the level
of each function as well, so lowering could look it up there: the result is the same, and so
is the error if there is one.
-/

namespace TreeBackend.Lowering

open Source
open IR (Chunk)

/-! ### Lowering by the table -/

/-- The level of the function in which code stands, as a table has it; outside all functions
it is zero. -/
def levelIn (frames : FrameTable) : Option NodeId → Nat
  | some function => ((frames.frame? function).map (·.level)).getD 0
  | none => 0

mutual

/-- Lowers an expression that stands in a function, at the level of that function. -/
def ofExprIn (context : LoweringContext) (enclosing : Option NodeId) :
    Source.Expr → Lowering Lowered
  | .literal _ value => do
      return .expr (← ofLiteral value)
  | .name node name => do
      return .expr (← ofName context (levelIn context.frames enclosing) node name)
  | .unary _ operator operand => do
      let value ← asExpr "unary operand" operand (← ofExprIn context enclosing operand)
      return .expr (unary operator value)
  | .binary node operator left right => do
      let leftValue ← asExpr "left operand" left (← ofExprIn context enclosing left)
      let rightValue ← asExpr "right operand" right (← ofExprIn context enclosing right)
      return .expr (← ofBinary context node operator leftValue rightValue)
  | .call node name arguments => do
      let callee ← findCallee context node name
      let values ← ofArgumentsIn context enclosing arguments
      return .expr (call (levelIn context.frames enclosing) callee values)
  | .block node items => do
      let lowered ← ofExprsIn context enclosing items
      return .expr (← ofItems node items lowered)
  | .ifThen _ condition thenBranch => do
      let test ← asExpr "if condition" condition (← ofExprIn context enclosing condition)
      let thenCode ← ofExprIn context enclosing thenBranch
      return .stmt (ifThen (← drawLabels) test thenCode.toStmt)
  | .ifThenElse _ condition thenBranch elseBranch => do
      let test ← asExpr "if condition" condition (← ofExprIn context enclosing condition)
      let thenCode ← ofExprIn context enclosing thenBranch
      let elseCode ← ofExprIn context enclosing elseBranch
      return .stmt (ifThenElse (← drawLabels) test thenCode.toStmt elseCode.toStmt)
  | .whileLoop _ condition body => do
      let test ← asExpr "while condition" condition (← ofExprIn context enclosing condition)
      let bodyCode ← ofExprIn context enclosing body
      return .stmt (whileLoop (← drawLabels) test bodyCode.toStmt)
  | .forLoop _ counter low high step body => do
      checkCounter counter
      let cell ← asExpr "for counter" counter (← ofExprIn context enclosing counter)
      let lowValue ← asExpr "for lower bound" low (← ofExprIn context enclosing low)
      let highValue ← asExpr "for upper bound" high (← ofExprIn context enclosing high)
      let stepValue ← asExpr "for step" step (← ofExprIn context enclosing step)
      let bodyCode ← ofExprIn context enclosing body
      let labels ← drawLabels
      let bound ← drawTemp
      let stride ← drawTemp
      return .stmt
        (forLoop labels bound stride cell lowValue highValue stepValue bodyCode.toStmt)
  | .whereIn _ definitions inner => do
      ofDefsIn context definitions
      return .expr (← asExpr "where expression" inner (← ofExprIn context enclosing inner))

def ofExprsIn (context : LoweringContext) (enclosing : Option NodeId) :
    List Source.Expr → Lowering (List Lowered)
  | [] => pure []
  | expression :: rest => do
      let lowered ← ofExprIn context enclosing expression
      return lowered :: (← ofExprsIn context enclosing rest)

def ofArgumentsIn (context : LoweringContext) (enclosing : Option NodeId) :
    List Source.Expr → Lowering (List IR.Expr)
  | [] => pure []
  | argument :: rest => do
      let value ← asExpr "call argument" argument (← ofExprIn context enclosing argument)
      return value :: (← ofArgumentsIn context enclosing rest)

def ofDefIn (context : LoweringContext) : Def → Lowering Unit
  | .function node name _ body => do
      let result ← asExpr "function body" body (← ofExprIn context (some node.id) body)
      finishFunction context node name result
  | .var node name => ofVariable context node name
  | .typeAlias .. => pure ()

def ofDefsIn (context : LoweringContext) : List Def → Lowering Unit
  | [] => pure ()
  | definition :: rest => do
      ofDefIn context definition
      ofDefsIn context rest

end

/-! ### Both are the same -/

/-- The functions in a part of a program have the levels at which they are nested. -/
def LevelsMatch (frames : FrameTable) (contents : Contents) : Prop :=
  ∀ function ∈ contents.functions, levelIn frames (some function.node.id) = function.depth

theorem LevelsMatch.append {frames : FrameTable} {first second : Contents} :
    LevelsMatch frames (first ++ second) ↔ LevelsMatch frames first ∧ LevelsMatch frames second :=
  List.forall_mem_append

section Same

variable {context : LoweringContext}

mutual

theorem ofExprIn_eq : (expression : Source.Expr) → {enclosing : Option NodeId} →
    {around : List NodeId} → LevelsMatch context.frames (expression.contents around) →
    levelIn context.frames enclosing = around.length →
    ofExprIn context enclosing expression = ofExpr context around.length expression
  | .literal .., _, _, _, _ => by rw [ofExprIn, ofExpr]
  | .name .., _, _, _, here => by rw [ofExprIn, ofExpr, here]
  | .unary _ _ operand, _, _, levels, here => by
      rw [ofExprIn, ofExpr, ofExprIn_eq operand levels here]
  | .binary _ _ left right, _, _, levels, here => by
      obtain ⟨lefts, rights⟩ := LevelsMatch.append.mp levels
      rw [ofExprIn, ofExpr, ofExprIn_eq left lefts here, ofExprIn_eq right rights here]
  | .call _ _ arguments, _, _, levels, here => by
      rw [ofExprIn, ofExpr, here,
        ofArgumentsIn_eq arguments (LevelsMatch.append.mp levels).2 here]
  | .block _ items, _, _, levels, here => by
      rw [ofExprIn, ofExpr, ofExprsIn_eq items levels here]
  | .ifThen _ condition thenBranch, _, _, levels, here => by
      obtain ⟨tests, branches⟩ := LevelsMatch.append.mp levels
      rw [ofExprIn, ofExpr, ofExprIn_eq condition tests here, ofExprIn_eq thenBranch branches here]
  | .ifThenElse _ condition thenBranch elseBranch, _, _, levels, here => by
      obtain ⟨levels, others⟩ := LevelsMatch.append.mp levels
      obtain ⟨tests, branches⟩ := LevelsMatch.append.mp levels
      rw [ofExprIn, ofExpr, ofExprIn_eq condition tests here, ofExprIn_eq thenBranch branches here,
        ofExprIn_eq elseBranch others here]
  | .whileLoop _ condition body, _, _, levels, here => by
      obtain ⟨tests, bodies⟩ := LevelsMatch.append.mp levels
      rw [ofExprIn, ofExpr, ofExprIn_eq condition tests here, ofExprIn_eq body bodies here]
  | .forLoop _ counter low high step body, _, _, levels, here => by
      obtain ⟨levels, bodies⟩ := LevelsMatch.append.mp levels
      obtain ⟨levels, steps⟩ := LevelsMatch.append.mp levels
      obtain ⟨levels, highs⟩ := LevelsMatch.append.mp levels
      obtain ⟨counters, lows⟩ := LevelsMatch.append.mp levels
      rw [ofExprIn, ofExpr, ofExprIn_eq counter counters here, ofExprIn_eq low lows here,
        ofExprIn_eq high highs here, ofExprIn_eq step steps here, ofExprIn_eq body bodies here]
  | .whereIn _ definitions inner, _, _, levels, here => by
      obtain ⟨outers, inners⟩ := LevelsMatch.append.mp levels
      rw [ofExprIn, ofExpr, ofDefsIn_eq definitions outers, ofExprIn_eq inner inners here]

theorem ofExprsIn_eq : (expressions : List Source.Expr) → {enclosing : Option NodeId} →
    {around : List NodeId} →
    LevelsMatch context.frames (Source.Expr.contentsOfList around expressions) →
    levelIn context.frames enclosing = around.length →
    ofExprsIn context enclosing expressions = ofExprs context around.length expressions
  | [], _, _, _, _ => by rw [ofExprsIn, ofExprs]
  | expression :: others, _, _, levels, here => by
      obtain ⟨first, rest⟩ := LevelsMatch.append.mp levels
      rw [ofExprsIn, ofExprs, ofExprIn_eq expression first here, ofExprsIn_eq others rest here]

theorem ofArgumentsIn_eq : (expressions : List Source.Expr) → {enclosing : Option NodeId} →
    {around : List NodeId} →
    LevelsMatch context.frames (Source.Expr.contentsOfList around expressions) →
    levelIn context.frames enclosing = around.length →
    ofArgumentsIn context enclosing expressions = ofArguments context around.length expressions
  | [], _, _, _, _ => by rw [ofArgumentsIn, ofArguments]
  | expression :: others, _, _, levels, here => by
      obtain ⟨first, rest⟩ := LevelsMatch.append.mp levels
      rw [ofArgumentsIn, ofArguments, ofExprIn_eq expression first here,
        ofArgumentsIn_eq others rest here]

theorem ofDefIn_eq : (definition : Def) → {around : List NodeId} →
    LevelsMatch context.frames (definition.contents around) →
    ofDefIn context definition = ofDef context around.length definition
  | .function node _ _ body, around, levels => by
      obtain ⟨own, inners⟩ := List.forall_mem_cons.mp levels
      rw [ofDefIn, ofDef, @ofExprIn_eq body (some node.id) (node.id :: around) inners own,
        List.length_cons]
  | .var .., _, _ => by rw [ofDefIn, ofDef]
  | .typeAlias .., _, _ => by rw [ofDefIn, ofDef]

theorem ofDefsIn_eq : (definitions : List Def) → {around : List NodeId} →
    LevelsMatch context.frames (Def.contentsOfList around definitions) →
    ofDefsIn context definitions = ofDefs context around.length definitions
  | [], _, _ => by rw [ofDefsIn, ofDefs]
  | definition :: others, _, levels => by
      obtain ⟨first, rest⟩ := LevelsMatch.append.mp levels
      rw [ofDefsIn, ofDefs, ofDefIn_eq definition first, ofDefsIn_eq others rest]

end

end Same

/-! ### References -/

section References

variable {context : LoweringContext} {level : Nat}

def Reaches (context : LoweringContext) (level : Nat) (reference : Node × String) : Prop :=
  ∃ definition storage value, context.resolution.definitionOf? reference.1.id = some definition ∧
    context.frames.storage? definition = some storage ∧ cell? level storage = some value

mutual

theorem reaches_of_ofExpr : (expression : Source.Expr) → {state final : LoweringState} →
    {code : Lowered} → ofExpr context level expression state = .ok code final →
    ∀ reference ∈ expression.references, Reaches context level reference
  | .literal .., _, _, _, _ => by simp [Source.Expr.references]
  | .name .., _, _, _, lowered => by
      obtain ⟨definition, storage, value, bound, found, cell, -⟩ := ofExpr_name_eq_ok.mp lowered
      exact List.forall_mem_singleton.mpr ⟨definition, storage, value, bound, found, cell⟩
  | .unary _ _ operand, _, _, _, lowered => by
      obtain ⟨_, operandLowered, -⟩ := ofExpr_unary_eq_ok.mp lowered
      exact reaches_of_ofExpr operand operandLowered
  | .binary _ _ left right, _, _, _, lowered => by
      obtain ⟨_, _, _, _, _, lefts, rights, -⟩ := ofExpr_binary_eq_ok.mp lowered
      exact List.forall_mem_append.mpr ⟨reaches_of_ofExpr left lefts, reaches_of_ofExpr right rights⟩
  | .call _ _ arguments, _, _, _, lowered => by
      obtain ⟨_, _, -, argumentsLowered, -⟩ := ofExpr_call_eq_ok.mp lowered
      exact reaches_of_ofArguments arguments argumentsLowered
  | .block _ items, _, _, _, lowered => by
      obtain ⟨_, _, itemsLowered, -⟩ := ofExpr_block_eq_ok.mp lowered
      exact reaches_of_ofExprs items itemsLowered
  | .ifThen _ condition thenBranch, _, _, _, lowered => by
      obtain ⟨_, _, _, _, tests, branches, -⟩ := ofExpr_ifThen_eq_ok.mp lowered
      exact List.forall_mem_append.mpr
        ⟨reaches_of_ofExpr condition tests, reaches_of_ofExpr thenBranch branches⟩
  | .ifThenElse _ condition thenBranch elseBranch, _, _, _, lowered => by
      obtain ⟨_, _, _, _, _, _, tests, branches, others, -⟩ := ofExpr_ifThenElse_eq_ok.mp lowered
      exact List.forall_mem_append.mpr ⟨List.forall_mem_append.mpr
        ⟨reaches_of_ofExpr condition tests, reaches_of_ofExpr thenBranch branches⟩,
        reaches_of_ofExpr elseBranch others⟩
  | .whileLoop _ condition body, _, _, _, lowered => by
      obtain ⟨_, _, _, _, tests, bodied, -⟩ := ofExpr_whileLoop_eq_ok.mp lowered
      exact List.forall_mem_append.mpr
        ⟨reaches_of_ofExpr condition tests, reaches_of_ofExpr body bodied⟩
  | .forLoop _ counter low high step body, _, _, _, lowered => by
      obtain ⟨_, _, _, _, _, _, _, _, _, _, _, rfl, counted, lows, highs, steps, bodied, -⟩ :=
        ofExpr_forLoop_eq_ok.mp lowered
      obtain ⟨definition, storage, bound, found, cell, -⟩ := ofName_eq_ok.mp counted
      simp only [Source.Expr.references, List.forall_mem_append, List.forall_mem_singleton]
      exact ⟨⟨⟨⟨⟨definition, storage, _, bound, found, cell⟩, reaches_of_ofExpr low lows⟩,
        reaches_of_ofExpr high highs⟩, reaches_of_ofExpr step steps⟩,
        reaches_of_ofExpr body bodied⟩
  | .whereIn _ _ inner, _, _, _, lowered => by
      obtain ⟨_, _, -, innerLowered, -⟩ := ofExpr_whereIn_eq_ok.mp lowered
      exact reaches_of_ofExpr inner innerLowered

theorem reaches_of_ofExprs : (expressions : List Source.Expr) → {state final : LoweringState} →
    {parts : List Lowered} → ofExprs context level expressions state = .ok parts final →
    ∀ reference ∈ Source.Expr.referencesOfList expressions, Reaches context level reference
  | [], _, _, _, _ => by simp [Source.Expr.referencesOfList]
  | expression :: others, _, _, _, lowered => by
      obtain ⟨_, _, _, first, rest, -⟩ := ofExprs_cons_eq_ok.mp lowered
      exact List.forall_mem_append.mpr
        ⟨reaches_of_ofExpr expression first, reaches_of_ofExprs others rest⟩

theorem reaches_of_ofArguments : (expressions : List Source.Expr) →
    {state final : LoweringState} → {values : List IR.Expr} →
    ofArguments context level expressions state = .ok values final →
    ∀ reference ∈ Source.Expr.referencesOfList expressions, Reaches context level reference
  | [], _, _, _, _ => by simp [Source.Expr.referencesOfList]
  | expression :: others, _, _, _, lowered => by
      obtain ⟨_, _, _, first, rest, -⟩ := ofArguments_cons_eq_ok.mp lowered
      exact List.forall_mem_append.mpr
        ⟨reaches_of_ofExpr expression first, reaches_of_ofArguments others rest⟩

end

/-- The frame of an enclosing function is as many loads away as it is levels further out. -/
theorem enclosingFrame_eq_iterate (hops : Nat) :
    enclosingFrame hops = Nat.iterate IR.Expr.mem hops .framePointer := by
  induction hops with
  | zero => rfl
  | succ hops ih => rw [enclosingFrame, ih, Function.iterate_succ_apply']

theorem ofName_stack {node : Node} {name : String} {definition : NodeId} {slot : StackSlot}
    (bound : context.resolution.definitionOf? node.id = some definition)
    (stored : context.frames.storage? definition = some (.localVar slot) ∨
      context.frames.storage? definition = some (.parameter slot)) :
    ofName context level node name =
      require (.unexpectedDefinition name) node.span (stackCell? level slot) := by
  rw [ofName, bound]
  change (do
    let storage ← require (.missingAccess name) node.span (context.frames.storage? definition)
    require (.unexpectedDefinition name) node.span (cell? level storage) : Lowering IR.Expr) = _
  rcases stored with stored | stored <;>
  · rw [stored]
    rfl

end References

section LaidOut

variable {program : Program} {table : FrameTable} {labels : LabelSupply}
  {function owner : Function} {id : NodeId}

theorem levelIn_eq_depth (laid : program.LaidOut table labels)
    (member : function ∈ program.functions) :
    levelIn table (some function.node.id) = function.depth := by
  obtain ⟨label, -, found⟩ := (laid.functions.each function member).frame
  simp only [levelIn, found, Option.map_some, Option.getD_some]
  exact level_of_frame? laid member found

/-- What a function owns is reached from within by following static links. -/
theorem ofExprIn_owned (laid : program.LaidOut table labels)
    (member : function ∈ program.functions) {slot : StackSlot} (level : slot.level = owner.depth)
    (stored : table.storage? id = some (.localVar slot) ∨ table.storage? id = some (.parameter slot))
    {node : Node} {name : String} (bound : program.resolution.definitionOf? node.id = some id)
    (state : LoweringState) :
    ofExprIn ⟨program.resolution, table⟩ (some function.node.id) (.name node name) state =
      if owner.depth ≤ function.depth then
        .ok (.expr (.mem (.binop .add
          (Nat.iterate .mem (function.depth - owner.depth) .framePointer)
          (.const slot.offset)))) state
      else .error (.located (.unexpectedDefinition name) node.span) state := by
  rw [ofExprIn, levelIn_eq_depth laid member, ofName_stack bound stored, stackCell?, level]
  by_cases inReach : owner.depth ≤ function.depth
  · rw [if_pos inReach, if_pos inReach, enclosingFrame_eq_iterate]
    rfl
  · rw [if_neg inReach, if_neg inReach]
    rfl

end LaidOut

end TreeBackend.Lowering
