import TreeBackend.Lowering.Program
import TreeBackend.Proofs.Outcome

/-!
# What a successful lowering consists of

Lowering a construct succeeds exactly if its parts can be lowered one after the
other and have values where values are asked for.  Each lemma says this for one
construct, so that no other module opens the definition of lowering.
-/

namespace TreeBackend

open IR (Chunk)

namespace LoweringState

/-- What is left after one more temporary is drawn. -/
def afterTemp (state : LoweringState) : LoweringState := { state with temps := state.temps.rest }

/-- What is left after one more label is drawn. -/
def afterLabel (state : LoweringState) : LoweringState := { state with labels := state.labels.rest }

/-- What there is after one more chunk is finished. -/
def withChunk (state : LoweringState) (chunk : Chunk) : LoweringState :=
  { state with chunks := state.chunks ++ [chunk] }

def nextLabels (state : LoweringState) : Lowering.Labels :=
  ⟨state.labels.next, state.afterLabel.labels.next, state.afterLabel.afterLabel.labels.next⟩

/-- What is left after three more labels are drawn. -/
def afterLabels (state : LoweringState) : LoweringState := state.afterLabel.afterLabel.afterLabel

end LoweringState

namespace Lowering

open Source Outcome

variable {context : LoweringContext} {level : Nat} {state final : LoweringState}
  {lowered : Lowered} {value : IR.Expr}

theorem require_eq_ok {α : Type} {cause : Cause} {span : Span} {found : Option α} {result : α} :
    require cause span found state = .ok result final ↔ found = some result ∧ final = state := by
  cases found with
  | none =>
      simp only [require, fail, reduceCtorEq, false_and, iff_false]
      exact throw_ne_ok
  | some present => simp [require, pure_eq_ok, eq_comm]

theorem asExpr_eq_ok {part : String} {expression : Source.Expr} :
    asExpr part expression lowered state = .ok value final ↔
      lowered = .expr value ∧ final = state := by
  cases lowered with
  | expr present => simp [asExpr, pure_eq_ok, eq_comm]
  | stmt _ =>
      simp only [asExpr, fail, reduceCtorEq, false_and, iff_false]
      exact throw_ne_ok

theorem drawLabels_eq_ok {labels : Labels} :
    drawLabels state = .ok labels final ↔ labels = state.nextLabels ∧ final = state.afterLabels := by
  change EStateM.Result.ok state.nextLabels state.afterLabels = _ ↔ _
  simp [eq_comm]

theorem drawTemp_eq_ok {temp : IR.Temp} :
    drawTemp state = .ok temp final ↔ temp = state.temps.next ∧ final = state.afterTemp := by
  simp [drawTemp, LoweringState.afterTemp, eq_comm]

theorem emit_eq_ok {chunk : Chunk} {result : Unit} :
    emit chunk state = .ok result final ↔ final = state.withChunk chunk := by
  simp [emit, LoweringState.withChunk, eq_comm]

/-! ### Leaves -/

theorem ofName_eq_ok {node : Node} {name : String} :
    ofName context level node name state = .ok value final ↔
      ∃ definition storage, context.resolution.definitionOf? node.id = some definition ∧
        context.frames.storage? definition = some storage ∧ cell? level storage = some value ∧
        final = state := by
  simp only [ofName, bind_eq_ok, require_eq_ok]
  constructor
  · rintro ⟨definition, _, ⟨bound, rfl⟩, storage, _, ⟨found, rfl⟩, cell, rfl⟩
    exact ⟨definition, storage, bound, found, cell, rfl⟩
  · rintro ⟨definition, storage, bound, found, cell, rfl⟩
    exact ⟨definition, _, ⟨bound, rfl⟩, storage, _, ⟨found, rfl⟩, cell, rfl⟩

theorem ofLiteral_str_eq_ok {text : String} :
    ofLiteral (.str text) state = .ok value final ↔
      value = .name state.labels.next ∧
        final = state.afterLabel.withChunk (.data ⟨Word.size, state.labels.next⟩ text) := by
  change EStateM.Result.ok (IR.Expr.name state.labels.next)
    (state.afterLabel.withChunk (.data ⟨Word.size, state.labels.next⟩ text)) = _ ↔ _
  simp [eq_comm]

theorem findCallee_eq_ok {node : Node} {name : String} {callee : Callee} :
    findCallee context node name state = .ok callee final ↔
      ((∃ builtin, Builtin.ofName? name = some builtin ∧
          callee = ⟨.named builtin.name, 1, none⟩) ∨
        Builtin.ofName? name = none ∧ ∃ definition frame,
          context.resolution.definitionOf? node.id = some definition ∧
          context.frames.frame? definition = some frame ∧
          callee = ⟨frame.label, frame.level, some frame.savedPointerOffset⟩) ∧
      final = state := by
  unfold findCallee
  cases Builtin.ofName? name with
  | some builtin => simp [pure_eq_ok]
  | none =>
      simp only [bind_eq_ok, require_eq_ok, pure_eq_ok, reduceCtorEq, false_and, exists_false,
        false_or, true_and]
      constructor
      · rintro ⟨definition, _, ⟨bound, rfl⟩, frame, _, ⟨found, rfl⟩, rfl, rfl⟩
        exact ⟨⟨definition, frame, bound, found, rfl⟩, rfl⟩
      · rintro ⟨⟨definition, frame, bound, found, rfl⟩, rfl⟩
        exact ⟨definition, _, ⟨bound, rfl⟩, frame, _, ⟨found, rfl⟩, rfl, rfl⟩

theorem ofBinary_index_eq_ok {node : Node} {left right : IR.Expr} :
    ofBinary context node .index left right state = .ok value final ↔
      ∃ ty, context.resolution.typeOf? node.id = some ty ∧
        value = elementCell left right ty.storageSize ∧ final = state := by
  simp only [ofBinary, bind_eq_ok, require_eq_ok, pure_eq_ok]
  constructor
  · rintro ⟨ty, _, ⟨known, rfl⟩, rfl, rfl⟩
    exact ⟨ty, known, rfl, rfl⟩
  · rintro ⟨ty, known, rfl, rfl⟩
    exact ⟨ty, _, ⟨known, rfl⟩, rfl, rfl⟩

/-- An assignment to a cell computes the address twice or keeps it in a temporary. -/
theorem ofBinary_assign_mem_eq_ok {node : Node} {address right : IR.Expr} :
    ofBinary context node .assign (.mem address) right state = .ok value final ↔
      if isRepeatable address then value = assignment (.mem address) right ∧ final = state
      else value = assignmentOnce address right state.temps.next ∧ final = state.afterTemp := by
  simp only [ofBinary]
  split
  · rw [pure_eq_ok]
  · simp only [bind_eq_ok, drawTemp_eq_ok, pure_eq_ok]
    constructor
    · rintro ⟨_, _, ⟨rfl, rfl⟩, rfl, rfl⟩
      exact ⟨rfl, rfl⟩
    · rintro ⟨rfl, rfl⟩
      exact ⟨_, _, ⟨rfl, rfl⟩, rfl, rfl⟩

theorem ofItems_eq_ok {node : Node} {items : List Source.Expr} {parts : List Lowered} :
    ofItems node items parts state = .ok value final ↔
      (∃ front last, parts = front ++ [.expr last] ∧
        value = .eseq (.seq (front.map Lowered.toStmt)) last) ∧ final = state := by
  unfold ofItems
  rcases List.eq_nil_or_concat parts with rfl | ⟨front, last, rfl⟩
  · simp only [List.getLast?_nil, List.nil_eq_append_iff, List.cons_ne_self, and_false, false_and,
      exists_false, iff_false]
    exact throw_ne_ok
  · rw [List.concat_eq_append, List.getLast?_append, List.getLast?_singleton, Option.some_or]
    cases last with
    | expr last =>
        rw [pure_eq_ok, List.dropLast_concat]
        constructor
        · rintro ⟨rfl, rfl⟩
          exact ⟨⟨front, last, rfl, rfl⟩, rfl⟩
        · rintro ⟨⟨other, otherLast, same, rfl⟩, rfl⟩
          obtain ⟨rfl, sameLast⟩ := List.append_inj' same rfl
          obtain ⟨rfl⟩ := Lowered.expr.inj (List.head_eq_of_cons_eq sameLast)
          exact ⟨rfl, rfl⟩
    | stmt last =>
        refine ⟨fun failed => (throw_ne_ok failed).elim, ?_⟩
        rintro ⟨⟨other, otherLast, same, -⟩, -⟩
        obtain ⟨-, sameLast⟩ := List.append_inj' same rfl
        cases List.head_eq_of_cons_eq sameLast

/-! ### Expressions -/

attribute [local simp] ofExpr ofExprs ofArguments ofDef ofDefs

variable {code : Lowered}

theorem ofExpr_int_eq_ok {node : Node} {number : Int} :
    ofExpr context level (.literal node (.int number)) state = .ok code final ↔
      code = .expr (.const number) ∧ final = state := by
  simp [ofLiteral, pure_eq_ok]

theorem ofExpr_log_eq_ok {node : Node} {truth : Bool} :
    ofExpr context level (.literal node (.log truth)) state = .ok code final ↔
      code = .expr (.const (Word.ofBool truth)) ∧ final = state := by
  simp [ofLiteral, pure_eq_ok]

theorem ofExpr_str_eq_ok {node : Node} {text : String} :
    ofExpr context level (.literal node (.str text)) state = .ok code final ↔
      code = .expr (.name state.labels.next) ∧
        final = state.afterLabel.withChunk (.data ⟨Word.size, state.labels.next⟩ text) := by
  simp only [ofExpr, bind_eq_ok, ofLiteral_str_eq_ok, pure_eq_ok]
  grind

theorem ofExpr_name_eq_ok {node : Node} {name : String} :
    ofExpr context level (.name node name) state = .ok code final ↔
      ∃ definition storage value, context.resolution.definitionOf? node.id = some definition ∧
        context.frames.storage? definition = some storage ∧ cell? level storage = some value ∧
        code = .expr value ∧ final = state := by
  simp only [ofExpr, bind_eq_ok, ofName_eq_ok, pure_eq_ok]
  grind

theorem ofExpr_unary_eq_ok {node : Node} {operator : UnaryOperator} {operand : Source.Expr} :
    ofExpr context level (.unary node operator operand) state = .ok code final ↔
      ∃ value, ofExpr context level operand state = .ok (.expr value) final ∧
        code = .expr (unary operator value) := by
  simp only [ofExpr, bind_eq_ok, asExpr_eq_ok, pure_eq_ok]
  grind

theorem ofExpr_binary_eq_ok {node : Node} {operator : BinaryOperator} {left right : Source.Expr} :
    ofExpr context level (.binary node operator left right) state = .ok code final ↔
      ∃ first middle second last value,
        ofExpr context level left state = .ok (.expr first) middle ∧
        ofExpr context level right middle = .ok (.expr second) last ∧
        ofBinary context node operator first second last = .ok value final ∧
        code = .expr value := by
  simp only [ofExpr, bind_eq_ok, asExpr_eq_ok, pure_eq_ok]
  grind

theorem ofExpr_compute_eq_ok {node : Node} {operator : Operator} {left right : Source.Expr} :
    ofExpr context level (.binary node (.compute operator) left right) state = .ok code final ↔
      ∃ first middle second, ofExpr context level left state = .ok (.expr first) middle ∧
        ofExpr context level right middle = .ok (.expr second) final ∧
        code = .expr (.binop operator first second) := by
  simp only [ofExpr_binary_eq_ok, ofBinary, pure_eq_ok]
  grind

theorem ofExpr_call_eq_ok {node : Node} {name : String} {arguments : List Source.Expr} :
    ofExpr context level (.call node name arguments) state = .ok code final ↔
      ∃ callee values, findCallee context node name state = .ok callee state ∧
        ofArguments context level arguments state = .ok values final ∧
        code = .expr (call level callee values) := by
  simp only [ofExpr, bind_eq_ok, pure_eq_ok]
  constructor
  · rintro ⟨callee, _, found, values, _, lowered, rfl, rfl⟩
    obtain rfl := (findCallee_eq_ok.mp found).2
    exact ⟨callee, values, found, lowered, rfl⟩
  · rintro ⟨callee, values, found, lowered, rfl⟩
    exact ⟨callee, _, found, values, _, lowered, rfl, rfl⟩

theorem ofExpr_block_eq_ok {node : Node} {items : List Source.Expr} :
    ofExpr context level (.block node items) state = .ok code final ↔
      ∃ front last, ofExprs context level items state = .ok (front ++ [.expr last]) final ∧
        code = .expr (.eseq (.seq (front.map Lowered.toStmt)) last) := by
  simp only [ofExpr, bind_eq_ok, ofItems_eq_ok, pure_eq_ok]
  grind

theorem ofExpr_ifThen_eq_ok {node : Node} {condition thenBranch : Source.Expr} :
    ofExpr context level (.ifThen node condition thenBranch) state = .ok code final ↔
      ∃ test middle branch last,
        ofExpr context level condition state = .ok (.expr test) middle ∧
        ofExpr context level thenBranch middle = .ok branch last ∧
        final = last.afterLabels ∧
        code = .stmt (ifThen last.nextLabels test branch.toStmt) := by
  simp only [ofExpr, bind_eq_ok, asExpr_eq_ok, drawLabels_eq_ok, pure_eq_ok]
  grind

theorem ofExpr_ifThenElse_eq_ok {node : Node} {condition thenBranch elseBranch : Source.Expr} :
    ofExpr context level (.ifThenElse node condition thenBranch elseBranch) state =
        .ok code final ↔
      ∃ test middle branch between other last,
        ofExpr context level condition state = .ok (.expr test) middle ∧
        ofExpr context level thenBranch middle = .ok branch between ∧
        ofExpr context level elseBranch between = .ok other last ∧
        final = last.afterLabels ∧
        code = .stmt (ifThenElse last.nextLabels test branch.toStmt other.toStmt) := by
  simp only [ofExpr, bind_eq_ok, asExpr_eq_ok, drawLabels_eq_ok, pure_eq_ok]
  grind

theorem ofExpr_whileLoop_eq_ok {node : Node} {condition body : Source.Expr} :
    ofExpr context level (.whileLoop node condition body) state = .ok code final ↔
      ∃ test middle inner last,
        ofExpr context level condition state = .ok (.expr test) middle ∧
        ofExpr context level body middle = .ok inner last ∧
        final = last.afterLabels ∧
        code = .stmt (whileLoop last.nextLabels test inner.toStmt) := by
  simp only [ofExpr, bind_eq_ok, asExpr_eq_ok, drawLabels_eq_ok, pure_eq_ok]
  grind

theorem ofExpr_forLoop_eq_ok {node : Node} {counter low high step body : Source.Expr} :
    ofExpr context level (.forLoop node counter low high step body) state = .ok code final ↔
      ∃ counterNode counterName cell lowValue afterLow highValue afterHigh stepValue afterStep
          inner last,
        counter = .name counterNode counterName ∧
        ofName context level counterNode counterName state = .ok cell state ∧
        ofExpr context level low state = .ok (.expr lowValue) afterLow ∧
        ofExpr context level high afterLow = .ok (.expr highValue) afterHigh ∧
        ofExpr context level step afterHigh = .ok (.expr stepValue) afterStep ∧
        ofExpr context level body afterStep = .ok inner last ∧
        final = last.afterLabels.afterTemp.afterTemp ∧
        code = .stmt (forLoop last.nextLabels last.temps.next last.temps.rest.next cell lowValue
          highValue stepValue inner.toStmt) := by
  simp only [ofExpr, bind_eq_ok, asExpr_eq_ok, drawLabels_eq_ok, drawTemp_eq_ok, pure_eq_ok]
  constructor
  · rintro ⟨⟨⟩, _, isName, _, _, cell, _, _, ⟨rfl, rfl⟩, _, _, lowered, _, _, ⟨rfl, rfl⟩,
      _, _, highered, _, _, ⟨rfl, rfl⟩, _, _, stepped, _, _, ⟨rfl, rfl⟩, inner, last, bodied,
      _, _, ⟨rfl, rfl⟩, _, _, ⟨rfl, rfl⟩, _, _, ⟨rfl, rfl⟩, rfl, rfl⟩
    cases counter with
    | name counterNode counterName =>
        obtain ⟨-, rfl⟩ := pure_eq_ok.mp isName
        obtain ⟨definition, storage, _, bound, found, reached, same, rfl⟩ :=
          ofExpr_name_eq_ok.mp cell
        obtain rfl := Lowered.expr.inj same
        exact ⟨counterNode, counterName, _, _, _, _, _, _, _, inner, last, rfl,
          ofName_eq_ok.mpr ⟨definition, storage, bound, found, reached, rfl⟩, lowered, highered,
          stepped, bodied, rfl, rfl⟩
    | literal | unary | binary | call | block | ifThen | ifThenElse | whileLoop | forLoop
    | whereIn => exact (throw_ne_ok isName).elim
  · rintro ⟨counterNode, counterName, cell, _, _, _, _, _, _, inner, last, rfl, counted, lowered,
      highered, stepped, bodied, rfl, rfl⟩
    obtain ⟨definition, storage, bound, found, reached, -⟩ := ofName_eq_ok.mp counted
    have cells := (@ofExpr_name_eq_ok _ level state _ _ counterNode counterName).mpr
      ⟨definition, storage, _, bound, found, reached, rfl, rfl⟩
    exact ⟨(), state, rfl, _, _, cells, _, _, ⟨rfl, rfl⟩, _, _, lowered, _, _, ⟨rfl, rfl⟩,
      _, _, highered, _, _, ⟨rfl, rfl⟩, _, _, stepped, _, _, ⟨rfl, rfl⟩, inner, last, bodied,
      _, _, ⟨rfl, rfl⟩, _, _, ⟨rfl, rfl⟩, _, _, ⟨rfl, rfl⟩, rfl, rfl⟩

theorem ofExpr_whereIn_eq_ok {node : Node} {definitions : List Def} {inner : Source.Expr} :
    ofExpr context level (.whereIn node definitions inner) state = .ok code final ↔
      ∃ middle value, ofDefs context level definitions state = .ok () middle ∧
        ofExpr context level inner middle = .ok (.expr value) final ∧ code = .expr value := by
  simp only [ofExpr, bind_eq_ok, asExpr_eq_ok, pure_eq_ok]
  grind

theorem ofExprs_nil_eq_ok {parts : List Lowered} :
    ofExprs context level [] state = .ok parts final ↔ parts = [] ∧ final = state := by
  simp [pure_eq_ok]

theorem ofExprs_cons_eq_ok {expression : Source.Expr} {others : List Source.Expr}
    {parts : List Lowered} :
    ofExprs context level (expression :: others) state = .ok parts final ↔
      ∃ first middle rest, ofExpr context level expression state = .ok first middle ∧
        ofExprs context level others middle = .ok rest final ∧ parts = first :: rest := by
  simp only [ofExprs, bind_eq_ok, pure_eq_ok]
  grind

theorem ofArguments_nil_eq_ok {values : List IR.Expr} :
    ofArguments context level [] state = .ok values final ↔ values = [] ∧ final = state := by
  simp [pure_eq_ok]

theorem ofArguments_cons_eq_ok {argument : Source.Expr} {others : List Source.Expr}
    {values : List IR.Expr} :
    ofArguments context level (argument :: others) state = .ok values final ↔
      ∃ first middle rest, ofExpr context level argument state = .ok (.expr first) middle ∧
        ofArguments context level others middle = .ok rest final ∧ values = first :: rest := by
  simp only [ofArguments, bind_eq_ok, asExpr_eq_ok, pure_eq_ok]
  grind

theorem ofArguments_length {arguments : List Source.Expr} {values : List IR.Expr}
    (lowered : ofArguments context level arguments state = .ok values final) :
    values.length = arguments.length := by
  induction arguments generalizing state values with
  | nil =>
      obtain ⟨rfl, -⟩ := ofArguments_nil_eq_ok.mp lowered
      rfl
  | cons argument others ih =>
      obtain ⟨_, _, rest, -, restLowered, rfl⟩ := ofArguments_cons_eq_ok.mp lowered
      rw [List.length_cons, List.length_cons, ih restLowered]

/-- The last argument is lowered behind the others. -/
theorem ofArguments_snoc_eq_ok {arguments : List Source.Expr} {argument : Source.Expr}
    {values : List IR.Expr} :
    ofArguments context level (arguments ++ [argument]) state = .ok values final ↔
      ∃ front middle last, ofArguments context level arguments state = .ok front middle ∧
        ofExpr context level argument middle = .ok (.expr last) final ∧
        values = front ++ [last] := by
  induction arguments generalizing state values with
  | nil =>
      simp only [List.nil_append, ofArguments_cons_eq_ok, ofArguments_nil_eq_ok]
      grind
  | cons first others ih =>
      simp only [List.cons_append, ofArguments_cons_eq_ok, ih]
      grind

/-! ### Definitions -/

variable {result : Unit}

theorem ofDef_function_eq_ok {node : Node} {name : String} {parameters : List Parameter}
    {body : Source.Expr} :
    ofDef context level (.function node name parameters body) state = .ok result final ↔
      ∃ value middle frame, ofExpr context (level + 1) body state = .ok (.expr value) middle ∧
        context.frames.frame? node.id = some frame ∧
        final = middle.withChunk (.code frame (functionBody value)) := by
  simp only [ofDef, finishFunction, bind_eq_ok, asExpr_eq_ok, require_eq_ok, emit_eq_ok]
  grind

theorem ofDef_var_eq_ok {node : Node} {name : String} :
    ofDef context level (.var node name) state = .ok result final ↔
      ∃ storage, context.frames.storage? node.id = some storage ∧
        final = match storage with
          | .global slot => state.withChunk (.global slot)
          | .localVar _ | .parameter _ => state := by
  simp only [ofDef, ofVariable, bind_eq_ok, require_eq_ok]
  constructor
  · rintro ⟨storage, _, ⟨found, rfl⟩, emits⟩
    cases storage with
    | global slot => exact ⟨_, found, emit_eq_ok.mp emits⟩
    | localVar _ | parameter _ => exact ⟨_, found, (pure_eq_ok.mp emits).2⟩
  · rintro ⟨storage, found, rfl⟩
    refine ⟨storage, _, ⟨found, rfl⟩, ?_⟩
    cases storage with
    | global slot => exact emit_eq_ok.mpr rfl
    | localVar _ | parameter _ => exact pure_eq_ok.mpr ⟨rfl, rfl⟩

theorem ofDef_typeAlias_eq_ok {node : Node} {name : String} :
    ofDef context level (.typeAlias node name) state = .ok result final ↔ final = state := by
  simp [pure_eq_ok]

theorem ofDefs_nil_eq_ok :
    ofDefs context level [] state = .ok result final ↔ final = state := by
  simp [pure_eq_ok]

theorem ofDefs_cons_eq_ok {definition : Def} {others : List Def} :
    ofDefs context level (definition :: others) state = .ok result final ↔
      ∃ middle, ofDef context level definition state = .ok () middle ∧
        ofDefs context level others middle = .ok result final := by
  simp only [ofDefs, bind_eq_ok]
  grind

theorem ofProgram_eq_ok {program : Program} {table : FrameTable} {labels : LabelSupply}
    {temps : IR.TempSupply} :
    ofProgram program table labels temps = .ok final ↔
      ofDefs ⟨program.resolution, table⟩ 0 program.definitions { labels, temps } =
        .ok () final := by
  unfold ofProgram EStateM.run
  cases ofDefs ⟨program.resolution, table⟩ 0 program.definitions { labels, temps } with
  | ok result state => simp
  | error problem state => simp

end Lowering

end TreeBackend
