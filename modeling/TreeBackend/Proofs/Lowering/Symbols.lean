import TreeBackend.Proofs.Lowering.Supply

/-!
# Labels and temporaries of a part that may fail

Whether the lowering of a part succeeds or gives up on the way, its supplies only move forward,
the chunks finished before remain, and what it brings into the code, or into chunks that it
finishes, was drawn for it.  The only other numbered labels in the code are those that the
frame table gives to functions and global variables.
-/

namespace TreeBackend

open Source (Node NodeId UnaryOperator BinaryOperator Def Literal)

/-- What occurs in intermediate code under a number: a label or a temporary. -/
inductive IR.Symbol where
  | label (number : Nat)
  | temp (number : Nat)
  deriving DecidableEq, Repr

open IR (Stmt Temp Chunk Symbol)

def Label.symbols : Label → List Symbol
  | .named _ => []
  | .anonymous number => [.label number]

mutual

def IR.Expr.symbols : IR.Expr → List Symbol
  | .const _ => []
  | .name label => label.symbols
  | .temp temp => [.temp temp.number]
  | .mem address => address.symbols
  | .binop _ left right => left.symbols ++ right.symbols
  | .call label arguments => label.symbols ++ Expr.symbolsOfList arguments
  | .eseq effect value => effect.symbols ++ value.symbols

def IR.Expr.symbolsOfList : List IR.Expr → List Symbol
  | [] => []
  | expression :: rest => expression.symbols ++ Expr.symbolsOfList rest

/-- The numbered labels and the temporaries that occur in a statement. -/
def IR.Stmt.symbols : Stmt → List Symbol
  | .seq items => Stmt.symbolsOfList items
  | .label label => label.symbols
  | .jump target => target.symbols
  | .cjump condition whenTrue whenFalse =>
      condition.symbols ++ whenTrue.symbols ++ whenFalse.symbols
  | .exp value => value.symbols
  | .move target source => target.symbols ++ source.symbols

def IR.Stmt.symbolsOfList : List Stmt → List Symbol
  | [] => []
  | statement :: rest => statement.symbols ++ Stmt.symbolsOfList rest

end

attribute [local simp] IR.Expr.symbols IR.Expr.symbolsOfList IR.Stmt.symbols
  IR.Stmt.symbolsOfList

/-- The numbered labels and the temporaries that occur in a chunk. -/
def IR.Chunk.symbols : Chunk → List Symbol
  | .code frame body => frame.label.symbols ++ body.symbols
  | .data slot _ | .global slot => slot.label.symbols

/-- The numbered labels and the temporaries in the code of an expression of the source. -/
def Lowered.symbols : Lowered → List Symbol
  | .expr value => value.symbols
  | .stmt statement => statement.symbols

def FrameTable.Lists (table : FrameTable) : Symbol → Prop
  | .label number =>
      (∃ id frame, table.frame? id = some frame ∧ frame.label = .anonymous number) ∨
        ∃ id slot, table.storage? id = some (.global slot) ∧ slot.label = .anonymous number
  | .temp _ => False

def LoweringState.HasDrawn (start state : LoweringState) : Symbol → Prop
  | .label number => start.labels.issued ≤ number ∧ number < state.labels.issued
  | .temp number => start.temps.issued ≤ number ∧ number < state.temps.issued

/-- All labels and temporaries of some code were drawn between two states, or are labels of a
frame table. -/
def LoweringState.Accounts (table : FrameTable) (start state : LoweringState)
    (symbols : List Symbol) : Prop :=
  ∀ symbol ∈ symbols, start.HasDrawn state symbol ∨ table.Lists symbol

/-- One state comes before another one, and what the chunks mention that are finished between
them is accounted for. -/
structure LoweringState.Extends (table : FrameTable) (start state : LoweringState) : Prop where
  precedes : start.Precedes state
  pushed : ∀ pushed, state.chunks = start.chunks ++ pushed → ∀ chunk ∈ pushed,
    LoweringState.Accounts table start state chunk.symbols

namespace LoweringState

variable {table : FrameTable} {start state final : LoweringState} {symbols : List Symbol}

theorem HasDrawn.mono {symbol : Symbol} (drawn : start.HasDrawn state symbol)
    (precedes : state.Precedes final) : start.HasDrawn final symbol := by
  cases symbol with
  | label number => exact ⟨drawn.1, drawn.2.trans_le precedes.labels⟩
  | temp number => exact ⟨drawn.1, drawn.2.trans_le precedes.temps⟩

theorem Accounts.mono (accounts : Accounts table start state symbols)
    (precedes : state.Precedes final) : Accounts table start final symbols :=
  fun symbol member => (accounts symbol member).imp_left (·.mono precedes)

theorem Accounts.append {others : List Symbol} (first : Accounts table start state symbols)
    (second : Accounts table start state others) :
    Accounts table start state (symbols ++ others) :=
  List.forall_mem_append.mpr ⟨first, second⟩

theorem Extends.refl (state : LoweringState) : Extends table state state where
  precedes := .refl state
  pushed pushed same := by
    obtain rfl := List.self_eq_append_right.mp same
    simp

theorem Extends.draw (extended : Extends table start state) (precedes : state.Precedes final)
    (same : final.chunks = state.chunks) : Extends table start final where
  precedes := extended.precedes.trans precedes
  pushed pushed isPushed chunk member :=
    (extended.pushed pushed (same ▸ isPushed) chunk member).mono precedes

/-- A chunk is finished all of whose labels and temporaries are accounted for. -/
theorem Extends.withChunk (extended : Extends table start state) {chunk : Chunk}
    (accounts : Accounts table start state chunk.symbols) :
    Extends table start (state.withChunk chunk) where
  precedes := extended.precedes.trans ⟨Nat.le_refl _, Nat.le_refl _, List.prefix_append _ _⟩
  pushed pushed isPushed other member := by
    obtain ⟨before, isBefore⟩ := extended.precedes.chunks
    have split : start.chunks ++ (before ++ [chunk]) = start.chunks ++ pushed := by
      rw [← isPushed, LoweringState.withChunk, ← isBefore, List.append_assoc]
    obtain rfl := List.append_cancel_left split
    rcases List.mem_append.mp member with member | member
    · exact extended.pushed before isBefore.symm other member
    · obtain rfl := List.mem_singleton.mp member
      exact accounts

end LoweringState

open LoweringState (Accounts Extends)

namespace Lowering

/-- What lowering has reached, with or without success, comes after a state, and everything in
finished chunks and in the resulting code is accounted for. -/
def EndsWith {α : Type} (table : FrameTable) (start state : LoweringState)
    (code : α → List Symbol) : EStateM.Result CompileError LoweringState α → Prop
  | .ok value final =>
      state.Precedes final ∧ Extends table start final ∧ Accounts table start final (code value)
  | .error _ final => state.Precedes final ∧ Extends table start final

theorem EndsWith.after {α : Type} {table : FrameTable} {start state middle : LoweringState}
    {code : α → List Symbol} {result : EStateM.Result CompileError LoweringState α}
    (endsWith : EndsWith table start middle code result) (precedes : state.Precedes middle) :
    EndsWith table start state code result := by
  cases result with
  | ok value final => exact ⟨precedes.trans endsWith.1, endsWith.2⟩
  | error problem final => exact ⟨precedes.trans endsWith.1, endsWith.2⟩

/-- A part of lowering that is given code of which everything is accounted for, and does the same
for what it finishes and for the code that it results in. -/
def DrawsItsOwn {α : Type} (table : FrameTable) (given : List Symbol) (part : Lowering α)
    (code : α → List Symbol) : Prop :=
  ∀ start state, Extends table start state → Accounts table start state given →
    EndsWith table start state code (part state)

namespace DrawsItsOwn

variable {α β : Type} {table : FrameTable} {given : List Symbol} {code : α → List Symbol}

/-- A result may mention what was given and the labels of the table. -/
theorem pureKnown {value : α}
    (known : ∀ symbol ∈ code value, symbol ∈ given ∨ table.Lists symbol) :
    DrawsItsOwn table given (pure value) code := fun _ state extended accounts =>
  ⟨.refl state, extended, fun symbol member => (known symbol member).elim (accounts symbol) .inr⟩

theorem pure {value : α} (known : code value ⊆ given) : DrawsItsOwn table given (pure value) code :=
  pureKnown fun _ member => .inl (known member)

theorem bind {part : Lowering α} {next : α → Lowering β} {nextCode : β → List Symbol}
    (first : DrawsItsOwn table given part code)
    (second : ∀ value, DrawsItsOwn table (given ++ code value) (next value) nextCode) :
    DrawsItsOwn table given (part >>= next) nextCode := by
  intro start state extended accounts
  have reaches := first start state extended accounts
  change EndsWith table start state nextCode (EStateM.bind part next state)
  unfold EStateM.bind
  cases outcome : part state with
  | error problem final =>
      rw [outcome] at reaches
      exact reaches
  | ok value middle =>
      rw [outcome] at reaches
      obtain ⟨precedes, extendedFirst, accountsFirst⟩ := reaches
      have given := (accounts.mono precedes).append accountsFirst
      exact (second value start middle extendedFirst given).after precedes

theorem fail (cause : Cause) (span : Source.Span) :
    DrawsItsOwn table given (fail cause span) code := fun _ state extended _ =>
  ⟨.refl state, extended⟩

/-- What is looked up belongs to the table, or has no labels. -/
theorem require {cause : Cause} {span : Source.Span} {found : Option α}
    (known : ∀ value, found = some value → ∀ symbol ∈ code value, table.Lists symbol) :
    DrawsItsOwn table given (require cause span found) code := by
  cases found with
  | none => exact fail cause span
  | some value => exact pureKnown fun symbol member => .inr (known value rfl symbol member)

/-- What is looked up brings nothing into the code, and was found. -/
theorem requireThen {cause : Cause} {span : Source.Span} {found : Option α} {next : α → Lowering β}
    {nextCode : β → List Symbol}
    (second : ∀ value, found = some value → DrawsItsOwn table given (next value) nextCode) :
    DrawsItsOwn table given (Lowering.require cause span found >>= next) nextCode := by
  cases found with
  | none => exact fail cause span
  | some value => exact second value rfl

theorem drawTemp :
    DrawsItsOwn table given drawTemp fun temp => [.temp temp.number] := by
  intro start state extended _
  have precedes : state.Precedes state.afterTemp :=
    ⟨Nat.le_refl _, Nat.le_succ _, List.prefix_refl _⟩
  refine ⟨precedes, extended.draw precedes rfl, fun symbol member => .inl ?_⟩
  obtain rfl := List.mem_singleton.mp member
  exact ⟨extended.precedes.temps, Nat.lt_succ_self _⟩

theorem drawLabel : DrawsItsOwn table given drawLabel Label.symbols := by
  intro start state extended _
  have precedes : state.Precedes state.afterLabel :=
    ⟨Nat.le_succ _, Nat.le_refl _, List.prefix_refl _⟩
  refine ⟨precedes, extended.draw precedes rfl, fun symbol member => .inl ?_⟩
  obtain rfl := List.mem_singleton.mp member
  exact ⟨extended.precedes.labels, Nat.lt_succ_self _⟩

theorem drawLabels : DrawsItsOwn table given drawLabels fun labels =>
    labels.first.symbols ++ labels.second.symbols ++ labels.third.symbols := by
  refine drawLabel.bind fun first => drawLabel.bind fun second => drawLabel.bind fun third => ?_
  refine pure ?_
  simp only [List.append_assoc]
  exact List.subset_append_right _ _

/-- A finished chunk may mention what was given and the labels of the table. -/
theorem emit {chunk : Chunk}
    (known : ∀ symbol ∈ chunk.symbols, symbol ∈ given ∨ table.Lists symbol) :
    DrawsItsOwn table given (emit chunk) fun _ => [] := by
  intro start state extended accounts
  have precedes : state.Precedes (state.withChunk chunk) :=
    ⟨Nat.le_refl _, Nat.le_refl _, List.prefix_append _ _⟩
  have accounted : Accounts table start state chunk.symbols :=
    fun symbol member => (known symbol member).elim (accounts symbol) .inr
  exact ⟨precedes, extended.withChunk accounted, fun symbol member => by simp at member⟩

theorem asExpr {part : String} {expression : Source.Expr} {lowered : Lowered}
    (known : lowered.symbols ⊆ given) :
    DrawsItsOwn table given (asExpr part expression lowered) IR.Expr.symbols := by
  cases lowered with
  | expr value => exact pure known
  | stmt statement => exact fail _ _

theorem mono {more : List Symbol} {part : Lowering α} (draws : DrawsItsOwn table given part code)
    (includes : given ⊆ more) : DrawsItsOwn table more part code :=
  fun start state extended accounts =>
    draws start state extended fun symbol member => accounts symbol (includes member)

/-- What a part results in is needed as a value. -/
theorem bindValue {part : Lowering Lowered} {use : String} {expression : Source.Expr}
    {next : IR.Expr → Lowering β} {nextCode : β → List Symbol}
    (first : DrawsItsOwn table given part Lowered.symbols)
    (second : ∀ value, DrawsItsOwn table (given ++ value.symbols) (next value) nextCode) :
    DrawsItsOwn table given
      (part >>= fun lowered => Lowering.asExpr use expression lowered >>= next) nextCode := by
  refine first.bind fun lowered => (asExpr (List.subset_append_right _ _)).bind fun value => ?_
  refine (second value).mono (List.append_subset.mpr ⟨?_, List.subset_append_right _ _⟩)
  exact List.subset_append_of_subset_left _ (List.subset_append_left _ _)

end DrawsItsOwn

/-! ### What occurs in the code of each construct -/

theorem enclosingFrame_symbols (hops : Nat) : (enclosingFrame hops).symbols = [] := by
  induction hops with
  | zero => rfl
  | succ hops ih => exact ih

theorem staticLink_symbols (level calleeLevel : Nat) :
    (staticLink level calleeLevel).symbols = [] := by
  unfold staticLink
  split
  · rfl
  · split
    · rfl
    · exact enclosingFrame_symbols _

theorem stackCell?_symbols {level : Nat} {slot : StackSlot} {value : IR.Expr}
    (found : stackCell? level slot = some value) : value.symbols = [] := by
  unfold stackCell? at found
  split at found
  · obtain rfl := Option.some_inj.mp found
    simp [enclosingFrame_symbols]
  · cases found

/-- The cell of a variable mentions no label except that of a global variable. -/
theorem cell?_symbols {table : FrameTable} {definition : NodeId} {storage : Storage} {level : Nat}
    {value : IR.Expr} (isStorage : table.storage? definition = some storage)
    (found : cell? level storage = some value) : ∀ symbol ∈ value.symbols, table.Lists symbol := by
  cases storage with
  | global slot =>
      obtain rfl := Option.some_inj.mp found
      intro symbol member
      cases isLabel : slot.label with
      | named name => simp [isLabel, Label.symbols] at member
      | anonymous number =>
          obtain rfl : symbol = .label number := by
            simpa [isLabel, Label.symbols] using member
          exact .inr ⟨definition, slot, isStorage, isLabel⟩
  | localVar slot | parameter slot =>
      intro symbol member
      rw [stackCell?_symbols found] at member
      simp at member

theorem label_symbols_of_frame? {table : FrameTable} {definition : NodeId} {frame : Frame}
    (found : table.frame? definition = some frame) :
    ∀ symbol ∈ frame.label.symbols, table.Lists symbol := by
  intro symbol member
  cases isLabel : frame.label with
  | named name => simp [isLabel, Label.symbols] at member
  | anonymous number =>
      obtain rfl : symbol = .label number := by simpa [isLabel, Label.symbols] using member
      exact .inl ⟨definition, frame, found, isLabel⟩

theorem baseAddress_symbols (value : IR.Expr) : (baseAddress value).symbols = value.symbols := by
  cases value <;> rfl

theorem unary_symbols (operator : UnaryOperator) (operand : IR.Expr) :
    (unary operator operand).symbols = operand.symbols := by
  cases operator <;> simp [unary]

theorem call_symbols (level : Nat) (callee : Callee) (arguments : List IR.Expr) :
    (call level callee arguments).symbols =
      callee.label.symbols ++ IR.Expr.symbolsOfList arguments := by
  have saves : (savePointer callee.savedPointerOffset).symbols = [] := by
    cases callee.savedPointerOffset <;> rfl
  simp [call, saves, staticLink_symbols]

@[simp] theorem toStmt_symbols (lowered : Lowered) : lowered.toStmt.symbols = lowered.symbols := by
  cases lowered <;> simp [Lowered.toStmt, Lowered.symbols]

theorem symbolsOfList_map_toStmt (parts : List Lowered) :
    Stmt.symbolsOfList (parts.map Lowered.toStmt) = parts.flatMap Lowered.symbols := by
  induction parts with
  | nil => rfl
  | cons part rest ih => simp [ih]

/-- The labels and temporaries of a conditional or a loop that is given its labels. -/
def Labels.symbols (labels : Labels) : List Symbol :=
  labels.first.symbols ++ labels.second.symbols ++ labels.third.symbols

theorem ifThen_symbols (labels : Labels) (condition : IR.Expr) (thenBranch : Stmt) :
    (ifThen labels condition thenBranch).symbols ⊆
      condition.symbols ++ thenBranch.symbols ++ labels.symbols := by
  intro symbol
  simp only [ifThen, Stmt.symbols, Stmt.symbolsOfList, Labels.symbols, List.mem_append]
  grind

theorem ifThenElse_symbols (labels : Labels) (condition : IR.Expr)
    (thenBranch elseBranch : Stmt) :
    (ifThenElse labels condition thenBranch elseBranch).symbols ⊆
      condition.symbols ++ thenBranch.symbols ++ elseBranch.symbols ++ labels.symbols := by
  intro symbol
  simp only [ifThenElse, Stmt.symbols, Stmt.symbolsOfList, Labels.symbols, List.mem_append]
  grind

theorem whileLoop_symbols (labels : Labels) (condition : IR.Expr) (body : Stmt) :
    (whileLoop labels condition body).symbols ⊆
      condition.symbols ++ body.symbols ++ labels.symbols := by
  intro symbol
  simp only [whileLoop, Stmt.symbols, Stmt.symbolsOfList, Labels.symbols, List.mem_append]
  grind

theorem forLoop_symbols (labels : Labels) (bound stride : Temp)
    (counter low high step : IR.Expr) (body : Stmt) :
    (forLoop labels bound stride counter low high step body).symbols ⊆
      counter.symbols ++ low.symbols ++ high.symbols ++ step.symbols ++ body.symbols ++
        labels.symbols ++ [.temp bound.number] ++ [.temp stride.number] := by
  intro symbol
  simp only [forLoop, Stmt.symbols, Stmt.symbolsOfList, IR.Expr.symbols, Labels.symbols,
    List.mem_append]
  grind

/-! ### Leaves -/

section Leaves

variable {context : LoweringContext} {given : List Symbol}

theorem ofLiteral_drawsItsOwn (value : Literal) :
    DrawsItsOwn context.frames given (ofLiteral value) IR.Expr.symbols := by
  cases value with
  | int value => exact .pure (List.nil_subset _)
  | log truth => exact .pure (List.nil_subset _)
  | str text =>
      refine DrawsItsOwn.drawLabel.bind fun label => ?_
      refine (DrawsItsOwn.emit fun symbol member => ?_).bind fun _ => .pure ?_
      · exact .inl (List.mem_append_right _ member)
      · exact List.subset_append_of_subset_left _ (List.subset_append_right _ _)

theorem ofName_drawsItsOwn (level : Nat) (node : Node) (name : String) :
    DrawsItsOwn context.frames given (ofName context level node name) IR.Expr.symbols := by
  refine .requireThen fun definition _ => ?_
  refine .requireThen fun storage found => ?_
  exact .require fun value isCell => cell?_symbols found isCell

/-- The result of an operator mentions what its operands mention, and the temporary in which the
address of an assignment is kept. -/
theorem ofBinary_drawsItsOwn (node : Node) (operator : BinaryOperator) {left right : IR.Expr}
    (known : left.symbols ++ right.symbols ⊆ given) :
    DrawsItsOwn context.frames given (ofBinary context node operator left right)
      IR.Expr.symbols := by
  have repeated : (assignment left right).symbols ⊆ given := by
    simp only [assignment, IR.Expr.symbols, Stmt.symbols, List.append_subset] at known ⊢
    exact ⟨known, known.1⟩
  cases operator with
  | compute operator => exact .pure known
  | index =>
      refine .requireThen fun ty _ => .pure ?_
      simpa [elementCell, baseAddress_symbols] using known
  | assign =>
      cases left with
      | mem address =>
          cases repeatable : isRepeatable address with
          | true => simpa [ofBinary, repeatable] using DrawsItsOwn.pure repeated
          | false =>
              simp only [ofBinary, repeatable, Bool.false_eq_true, if_false]
              refine DrawsItsOwn.drawTemp.bind fun temp => .pure ?_
              rw [List.append_subset] at known
              simp only [assignmentOnce, IR.Expr.symbols, Stmt.symbols, Stmt.symbolsOfList,
                List.append_subset, List.append_nil]
              have isTemp : [Symbol.temp temp.number] ⊆ given ++ [.temp temp.number] :=
                List.subset_append_right _ _
              exact ⟨⟨⟨isTemp, List.subset_append_of_subset_left _ known.1⟩, isTemp,
                List.subset_append_of_subset_left _ known.2⟩, isTemp⟩
      | const | name | temp | binop | call | eseq => exact .pure repeated

theorem findCallee_drawsItsOwn (node : Node) (name : String) :
    DrawsItsOwn context.frames given (findCallee context node name) (·.label.symbols) := by
  unfold findCallee
  split
  · exact .pure (List.nil_subset _)
  · refine .requireThen fun definition _ => ?_
    refine .requireThen fun frame found => .pureKnown fun symbol member => ?_
    exact .inr (label_symbols_of_frame? found symbol member)

theorem checkCounter_drawsItsOwn (counter : Source.Expr) :
    DrawsItsOwn context.frames given (checkCounter counter) fun _ => [] := by
  unfold checkCounter
  split
  · exact .pure (List.nil_subset _)
  · exact .fail _ _

theorem ofItems_drawsItsOwn (node : Node) (items : List Source.Expr) {parts : List Lowered}
    (known : parts.flatMap Lowered.symbols ⊆ given) :
    DrawsItsOwn context.frames given (ofItems node items parts) IR.Expr.symbols := by
  unfold ofItems
  split
  · exact .fail _ _
  · next value isLast =>
    refine .pure ?_
    have same : parts = parts.dropLast ++ [.expr value] :=
      (List.dropLast_append_getLast? _ isLast).symm
    rw [same, List.flatMap_append, List.flatMap_singleton] at known
    rwa [IR.Expr.symbols, Stmt.symbols, symbolsOfList_map_toStmt]
  · exact .fail _ _

theorem ofVariable_drawsItsOwn (node : Node) (name : String) :
    DrawsItsOwn context.frames given (ofVariable context node name) fun _ => [] := by
  refine .requireThen fun storage found => ?_
  cases storage with
  | global slot =>
      refine .emit fun symbol member => .inr ?_
      exact cell?_symbols found (rfl : cell? 0 (.global slot) = some _) symbol member
  | localVar slot | parameter slot => exact .pure (List.nil_subset _)

theorem finishFunction_drawsItsOwn (node : Node) (name : String) {result : IR.Expr}
    (known : result.symbols ⊆ given) :
    DrawsItsOwn context.frames given (finishFunction context node name result) fun _ => [] := by
  refine .requireThen fun frame found => .emit fun symbol member => ?_
  rcases List.mem_append.mp member with isLabel | isInner
  · exact .inr (label_symbols_of_frame? found symbol isLabel)
  · exact .inl (known isInner)

end Leaves

variable {context : LoweringContext}

mutual

/-- Lowering an expression draws what it brings into the code, whether it succeeds or not. -/
theorem ofExpr_drawsItsOwn : (expression : Source.Expr) → (level : Nat) → (given : List Symbol) →
    DrawsItsOwn context.frames given (ofExpr context level expression) Lowered.symbols
  | .literal _ value, _, _ =>
      (ofLiteral_drawsItsOwn value).bind fun _ => .pure (List.subset_append_right _ _)
  | .name node name, level, _ =>
      (ofName_drawsItsOwn level node name).bind fun _ => .pure (List.subset_append_right _ _)
  | .unary _ operator operand, level, given => by
      refine (ofExpr_drawsItsOwn operand level given).bindValue fun value => .pure ?_
      rw [Lowered.symbols, unary_symbols]
      exact List.subset_append_right _ _
  | .binary node operator left right, level, given => by
      refine (ofExpr_drawsItsOwn left level given).bindValue fun leftValue => ?_
      refine (ofExpr_drawsItsOwn right level _).bindValue fun rightValue => ?_
      refine (ofBinary_drawsItsOwn node operator ?_).bind fun value =>
        .pure (List.subset_append_right _ _)
      rw [List.append_assoc]
      exact List.subset_append_right _ _
  | .call node name arguments, level, given => by
      refine (findCallee_drawsItsOwn node name).bind fun callee => ?_
      refine (ofArguments_drawsItsOwn arguments level _).bind fun values => .pure ?_
      rw [Lowered.symbols, call_symbols, List.append_assoc]
      exact List.subset_append_right _ _
  | .block node items, level, given => by
      refine (ofExprs_drawsItsOwn items level given).bind fun parts => ?_
      exact (ofItems_drawsItsOwn node items (List.subset_append_right _ _)).bind fun value =>
        .pure (List.subset_append_right _ _)
  | .ifThen _ condition thenBranch, level, given => by
      refine (ofExpr_drawsItsOwn condition level given).bindValue fun test => ?_
      refine (ofExpr_drawsItsOwn thenBranch level _).bind fun thenCode => ?_
      refine DrawsItsOwn.drawLabels.bind fun labels => .pure ?_
      refine List.Subset.trans (ifThen_symbols labels test thenCode.toStmt) ?_
      simp only [toStmt_symbols, Labels.symbols, List.append_assoc]
      exact List.subset_append_right _ _
  | .ifThenElse _ condition thenBranch elseBranch, level, given => by
      refine (ofExpr_drawsItsOwn condition level given).bindValue fun test => ?_
      refine (ofExpr_drawsItsOwn thenBranch level _).bind fun thenCode => ?_
      refine (ofExpr_drawsItsOwn elseBranch level _).bind fun elseCode => ?_
      refine DrawsItsOwn.drawLabels.bind fun labels => .pure ?_
      refine List.Subset.trans (ifThenElse_symbols labels test thenCode.toStmt elseCode.toStmt) ?_
      simp only [toStmt_symbols, Labels.symbols, List.append_assoc]
      exact List.subset_append_right _ _
  | .whileLoop _ condition body, level, given => by
      refine (ofExpr_drawsItsOwn condition level given).bindValue fun test => ?_
      refine (ofExpr_drawsItsOwn body level _).bind fun bodyCode => ?_
      refine DrawsItsOwn.drawLabels.bind fun labels => .pure ?_
      refine List.Subset.trans (whileLoop_symbols labels test bodyCode.toStmt) ?_
      simp only [toStmt_symbols, Labels.symbols, List.append_assoc]
      exact List.subset_append_right _ _
  | .forLoop _ counter low high step body, level, given => by
      refine (checkCounter_drawsItsOwn counter).bind fun _ => ?_
      refine (ofExpr_drawsItsOwn counter level _).bindValue fun cell => ?_
      refine (ofExpr_drawsItsOwn low level _).bindValue fun lowValue => ?_
      refine (ofExpr_drawsItsOwn high level _).bindValue fun highValue => ?_
      refine (ofExpr_drawsItsOwn step level _).bindValue fun stepValue => ?_
      refine (ofExpr_drawsItsOwn body level _).bind fun bodyCode => ?_
      refine DrawsItsOwn.drawLabels.bind fun labels => ?_
      refine DrawsItsOwn.drawTemp.bind fun bound => DrawsItsOwn.drawTemp.bind fun stride => ?_
      refine .pure (List.Subset.trans (forLoop_symbols ..) ?_)
      simp only [toStmt_symbols, Labels.symbols, List.append_assoc, List.nil_append]
      exact List.subset_append_right _ _
  | .whereIn _ definitions inner, level, given => by
      refine (ofDefs_drawsItsOwn definitions level given).bind fun _ => ?_
      exact (ofExpr_drawsItsOwn inner level _).bindValue fun value =>
        .pure (List.subset_append_right _ _)

theorem ofExprs_drawsItsOwn : (expressions : List Source.Expr) → (level : Nat) →
    (given : List Symbol) → DrawsItsOwn context.frames given (ofExprs context level expressions)
      (·.flatMap Lowered.symbols)
  | [], _, _ => .pure (List.nil_subset _)
  | expression :: rest, level, given => by
      refine (ofExpr_drawsItsOwn expression level given).bind fun lowered => ?_
      refine (ofExprs_drawsItsOwn rest level _).bind fun parts => .pure ?_
      rw [List.flatMap_cons, List.append_assoc]
      exact List.subset_append_right _ _

/-- Lowering arguments draws what they bring into the code. -/
theorem ofArguments_drawsItsOwn : (arguments : List Source.Expr) → (level : Nat) →
    (given : List Symbol) → DrawsItsOwn context.frames given (ofArguments context level arguments)
      IR.Expr.symbolsOfList
  | [], _, _ => .pure (List.nil_subset _)
  | argument :: rest, level, given => by
      refine (ofExpr_drawsItsOwn argument level given).bindValue fun value => ?_
      refine (ofArguments_drawsItsOwn rest level _).bind fun values => .pure ?_
      rw [IR.Expr.symbolsOfList, List.append_assoc]
      exact List.subset_append_right _ _

/-- Lowering a definition draws what occurs in the chunks that it finishes. -/
theorem ofDef_drawsItsOwn : (definition : Def) → (level : Nat) → (given : List Symbol) →
    DrawsItsOwn context.frames given (ofDef context level definition) fun _ => []
  | .function node name _ body, level, given =>
      (ofExpr_drawsItsOwn body (level + 1) given).bindValue fun _ =>
        finishFunction_drawsItsOwn node name (List.subset_append_right _ _)
  | .var node name, _, _ => ofVariable_drawsItsOwn node name
  | .typeAlias .., _, _ => .pure (List.nil_subset _)

/-- Lowering definitions draws what occurs in the chunks that they finish. -/
theorem ofDefs_drawsItsOwn : (definitions : List Def) → (level : Nat) → (given : List Symbol) →
    DrawsItsOwn context.frames given (ofDefs context level definitions) fun _ => []
  | [], _, _ => .pure (List.nil_subset _)
  | definition :: rest, level, given => by
      refine (ofDef_drawsItsOwn definition level given).bind fun _ => ?_
      exact ofDefs_drawsItsOwn rest level _

end

end Lowering

end TreeBackend
