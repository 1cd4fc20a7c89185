import TreeBackend.Proofs.Frame.Entries
import TreeBackend.Proofs.Source.Objections

/-!
# Why lowering gives up

By induction on the tree, lowering gives up only with an objection to one of the expressions that
it goes through, whatever the program is like.  Where it does not give up, and all assignments go
to places, its code can be flattened.
-/

namespace TreeBackend.Lowering

open Source Outcome
open IR (Chunk)

/-- What an expression has become can be flattened if all assignments in it go to places. -/
def Becomes (expression : Source.Expr) (standing : List (Nat × Source.Expr)) (lowered : Lowered)
    (new : List Chunk) : Prop :=
  Matches expression lowered ∧
    (AssignToPlaces standing → lowered.isFlattenable = true ∧ AreFlattenable new)

def BecomesValue (expression : Source.Expr) (standing : List (Nat × Source.Expr)) (value : IR.Expr)
    (new : List Chunk) : Prop :=
  value.isTarget = expression.isPlace ∧
    (AssignToPlaces standing → value.isFlattenable = true ∧ AreFlattenable new)

theorem mem_partsAtOfList {depth : Nat} {expression : Source.Expr} :
    {expressions : List Source.Expr} → expression ∈ expressions →
      (depth, expression) ∈ Source.Expr.partsAtOfList depth expressions
  | _ :: _, .head _ => List.mem_append_left _ (expression.mem_partsAt depth)
  | _ :: _, .tail _ member => List.mem_append_right _ (mem_partsAtOfList member)

section Leaves

variable {program : Program} {table : FrameTable} {depth : Nat}

/-- A cell cannot be had for a variable of a function that is nested more deeply. -/
theorem level?_of_cell?_eq_none {level : Nat} {storage : Storage}
    (hidden : cell? level storage = none) :
    ∃ inner, storage.level? = some inner ∧ level < inner := by
  have stack (slot : StackSlot) (hidden : stackCell? level slot = none) : level < slot.level := by
    by_contra reaches
    rw [stackCell?, if_pos (Nat.le_of_not_lt reaches)] at hidden
    cases hidden
  cases storage with
  | global slot => cases hidden
  | localVar slot | parameter slot => exact ⟨slot.level, rfl, stack slot hidden⟩

theorem objects_ofName (entered : program.EnteredIn table) (node : Node) (called : String) :
    Decides (ofName ⟨program.resolution, table⟩ depth node called)
      (Objection program depth (.name node called)) fun value new =>
        value.isFlattenable = true ∧ value.isTarget = true ∧ new = [] := by
  unfold ofName
  refine .bind_require (fun unbound => .unboundName unbound) fun definition bound => ?_
  refine .bind_require (fun missing => .absentVariable bound fun isOwned => ?_)
    fun storage found => ?_
  · have present := entered.covers.storages definition isOwned
    rw [missing] at present
    cases present
  refine .require (fun hidden => ?_) fun value cell => ?_
  · obtain ⟨inner, lies, deeper⟩ := level?_of_cell?_eq_none hidden
    rcases entered.levels definition storage inner found lies with
      ⟨-, outermost⟩ | ⟨owner, member, isOwned, same⟩
    · exact absurd (outermost ▸ deeper) (Nat.not_lt_zero depth)
    · exact .outOfScope bound member isOwned (same ▸ deeper)
  · obtain ⟨flattenable, target⟩ := cell?_eq_some cell
    exact ⟨flattenable, target, rfl⟩

theorem objects_findCallee (entered : program.EnteredIn table) (node : Node) (called : String)
    (arguments : List Source.Expr) :
    Decides (findCallee ⟨program.resolution, table⟩ node called)
      (Objection program depth (.call node called arguments)) fun _ new => new = [] := by
  unfold findCallee
  cases builtin : Builtin.ofName? called with
  | some builtin => exact .pure rfl
  | none =>
      refine .bind_require (fun unbound => .unboundCall builtin unbound) fun definition bound => ?_
      refine .bind_require (fun missing => .absentFunction bound fun isFunction => ?_)
        fun frame found => .pure rfl
      rw [← program.map_functions] at isFunction
      obtain ⟨function, member, rfl⟩ := List.mem_map.mp isFunction
      have present := entered.covers.functions function member
      rw [missing] at present
      cases present

theorem objects_ofBinary (node : Node) (operator : BinaryOperator) {left right : Source.Expr}
    {leftValue rightValue : IR.Expr} (target : leftValue.isTarget = left.isPlace) :
    Decides (ofBinary ⟨program.resolution, table⟩ node operator leftValue rightValue)
      (Objection program depth (.binary node operator left right)) fun value new =>
        new = [] ∧ value.isTarget = (Source.Expr.binary node operator left right).isPlace ∧
        (leftValue.isFlattenable = true → rightValue.isFlattenable = true →
          (operator = .assign → left.isPlace = true) → value.isFlattenable = true) := by
  unfold ofBinary
  cases operator with
  | compute operator =>
      refine .pure ⟨rfl, rfl, fun leftFlat rightFlat _ => ?_⟩
      rw [IR.Expr.isFlattenable, leftFlat, rightFlat, Bool.and_self]
  | index =>
      refine .bind_require (fun untyped => .untypedElement untyped)
        fun ty _ => .pure ⟨rfl, rfl, fun leftFlat rightFlat _ => ?_⟩
      rw [isFlattenable_elementCell, leftFlat, rightFlat, Bool.and_self]
  | assign =>
      have direct : ∀ value, value = assignment leftValue rightValue →
          value.isTarget = left.isPlace ∧ (leftValue.isFlattenable = true →
            rightValue.isFlattenable = true →
              (BinaryOperator.assign = .assign → left.isPlace = true) →
                value.isFlattenable = true) := by
        rintro _ rfl
        refine ⟨target, fun leftFlat rightFlat places => ?_⟩
        rw [isFlattenable_assignment, leftFlat, rightFlat, target, places rfl]
        rfl
      cases leftValue with
      | mem address =>
          dsimp only
          by_cases repeatable : isRepeatable address = true
          · rw [if_pos repeatable]
            exact .pure ⟨rfl, direct _ rfl⟩
          · rw [if_neg repeatable]
            refine decides_drawTemp.bind fun temp _ none => .pure ?_
            refine ⟨by rw [none]; rfl, target, fun leftFlat rightFlat _ => ?_⟩
            rw [isFlattenable_assignmentOnce, rightFlat, Bool.and_true]
            exact leftFlat
      | const _ | name _ | temp _ | binop _ _ _ | call _ _ | eseq _ _ =>
          exact .pure ⟨rfl, direct _ rfl⟩

theorem objects_ofItems (node : Node) {items : List Source.Expr} {lowered : List Lowered}
    (all : List.Forall₂ Matches items lowered) :
    Decides (ofItems node items lowered)
      (ObjectedIn program ((depth, .block node items) :: Source.Expr.partsAtOfList depth items))
      fun value new => new = [] ∧ value.isTarget = Source.Expr.endInPlace items ∧
        ((∀ part ∈ lowered, part.isFlattenable = true) → value.isFlattenable = true) := by
  unfold ofItems
  rcases last_of_forall₂_matches all with
    ⟨rfl, rfl⟩ | ⟨front, last, becomes, lastBecomes, rfl, rfl, matched⟩
  · exact .fail ⟨_, List.mem_cons_self .., .emptyBlock⟩
  · simp only [List.getLast?_append, List.getLast?_singleton, Option.some_or, Option.map_some,
      Option.getD_some, List.dropLast_concat]
    cases lastBecomes with
    | expr value =>
        refine .pure ⟨rfl, ?_, fun flattenable => ?_⟩
        · rw [endInPlace_append_singleton]
          exact matched.2
        · simpa [IR.Expr.isFlattenable, IR.Stmt.isFlattenable, areFlattenable_eq_all,
            Lowered.isFlattenable, or_imp, forall_and] using flattenable
    | stmt statement =>
        refine .fail ⟨(depth, last), List.mem_cons_of_mem _ ?_, .noValue matched⟩
        exact mem_partsAtOfList (by simp)

theorem objects_checkCounter {node : Node} {counter low high step body : Source.Expr} :
    Decides (checkCounter counter)
      (Objection program depth (.forLoop node counter low high step body))
      fun _ new => new = [] ∧ counter.isName = true := by
  cases counter with
  | name _ _ => exact .pure ⟨rfl, rfl⟩
  | literal _ _ | unary _ _ _ | binary _ _ _ _ | call _ _ _ | block _ _ | ifThen _ _ _
  | ifThenElse _ _ _ _ | whileLoop _ _ _ | forLoop _ _ _ _ _ _ | whereIn _ _ _ =>
      exact .fail (.invalidCounter rfl)

end Leaves

/-! ### Expressions and definitions -/

section Objecting

variable (program : Program) (table : FrameTable) (depth : Nat)

/-- Lowering objects to something in an expression or reaches its end. -/
abbrev ObjectsExpr (expression : Source.Expr) : Prop :=
  Decides (ofExpr ⟨program.resolution, table⟩ depth expression)
    (ObjectedIn program (expression.partsAt depth))
    (Becomes expression (expression.partsAt depth))

abbrev ObjectsExprs (expressions : List Source.Expr) : Prop :=
  Decides (ofExprs ⟨program.resolution, table⟩ depth expressions)
    (ObjectedIn program (Source.Expr.partsAtOfList depth expressions))
    fun lowered new => List.Forall₂ Matches expressions lowered ∧
      (AssignToPlaces (Source.Expr.partsAtOfList depth expressions) →
        (∀ part ∈ lowered, part.isFlattenable = true) ∧ AreFlattenable new)

abbrev ObjectsArguments (arguments : List Source.Expr) : Prop :=
  Decides (ofArguments ⟨program.resolution, table⟩ depth arguments)
    (ObjectedIn program (Source.Expr.partsAtOfList depth arguments))
    fun values new => AssignToPlaces (Source.Expr.partsAtOfList depth arguments) →
      IR.Expr.areFlattenable values = true ∧ AreFlattenable new

abbrev ObjectsDefs (definitions : List Def) : Prop :=
  Decides (ofDefs ⟨program.resolution, table⟩ depth definitions)
    (ObjectedIn program (Def.partsAtOfList depth definitions))
    fun _ new => AssignToPlaces (Def.partsAtOfList depth definitions) → AreFlattenable new

end Objecting

section Trees

variable {program : Program} {table : FrameTable} {depth : Nat}

/-- An expression that is used for its value, and what comes after it. -/
theorem Decides.bind_operand {β : Type} {part : String} {expression : Source.Expr}
    {next : IR.Expr → Lowering β} {standing : List (Nat × Source.Expr)}
    {returns : β → List Chunk → Prop}
    (objects : ObjectsExpr program table depth expression)
    (within : expression.partsAt depth ⊆ standing)
    (continues : ∀ value new, BecomesValue expression standing value new →
      Decides (next value) (ObjectedIn program standing)
        fun result more => returns result (new ++ more)) :
    Decides (do next (← asExpr part expression (← ofExpr ⟨program.resolution, table⟩ depth
      expression))) (ObjectedIn program standing) returns := by
  refine (objects.weaken fun _ objected => objected.mono within).bind ?_
  rintro lowered new ⟨matched, becomes⟩
  cases lowered with
  | expr value =>
      exact continues value new ⟨matched.2, fun places => becomes (places.mono within)⟩
  | stmt statement =>
      exact fun state => .inr ⟨_, state, rfl, (depth, expression),
        within (expression.mem_partsAt depth), .noValue matched⟩

/-- An expression whose value may be dropped, and what comes after it. -/
theorem Decides.bind_item {β : Type} {expression : Source.Expr} {next : Lowered → Lowering β}
    {standing : List (Nat × Source.Expr)} {returns : β → List Chunk → Prop}
    (objects : ObjectsExpr program table depth expression)
    (within : expression.partsAt depth ⊆ standing)
    (continues : ∀ lowered new, Becomes expression standing lowered new →
      Decides (next lowered) (ObjectedIn program standing)
        fun result more => returns result (new ++ more)) :
    Decides (do next (← ofExpr ⟨program.resolution, table⟩ depth expression))
      (ObjectedIn program standing) returns :=
  (objects.weaken fun _ objected => objected.mono within).bind fun lowered new becomes =>
    continues lowered new ⟨becomes.1, fun places => becomes.2 (places.mono within)⟩

section Constructs

variable {node : Node} {condition body : Source.Expr}

theorem objects_unary {operator : UnaryOperator} {operand : Source.Expr}
    (objects : ObjectsExpr program table depth operand) :
    ObjectsExpr program table depth (.unary node operator operand) := by
  refine .bind_operand objects (List.subset_cons_self ..) ?_
  rintro value new ⟨target, becomes⟩
  refine .pure ⟨⟨rfl, ?_⟩, fun places => ?_⟩
  · cases operator with
    | plus => exact target
    | minus | not => rfl
  · simpa [Lowered.isFlattenable] using becomes places

theorem objects_binary {operator : BinaryOperator} {left right : Source.Expr}
    (leftObjects : ObjectsExpr program table depth left)
    (rightObjects : ObjectsExpr program table depth right) :
    ObjectsExpr program table depth (.binary node operator left right) := by
  refine .bind_operand leftObjects (fun part member => by simp [Source.Expr.partsAt, member]) ?_
  rintro leftValue leftNew ⟨target, leftBecomes⟩
  refine .bind_operand rightObjects (fun part member => by simp [Source.Expr.partsAt, member]) ?_
  rintro rightValue rightNew ⟨-, rightBecomes⟩
  refine ((objects_ofBinary node operator target).weaken fun _ objection =>
    ⟨_, List.mem_cons_self .., objection⟩).bind ?_
  rintro value _ ⟨rfl, isPlace, flattenable⟩
  refine .pure ⟨⟨rfl, isPlace⟩, fun places => ?_⟩
  obtain ⟨leftFlat, leftChunks⟩ := leftBecomes places
  obtain ⟨rightFlat, rightChunks⟩ := rightBecomes places
  refine ⟨flattenable leftFlat rightFlat fun isAssign => ?_, by simp [leftChunks, rightChunks]⟩
  subst isAssign
  exact places _ node left right (List.mem_cons_self ..)

theorem objects_call (entered : program.EnteredIn table) {called : String}
    {arguments : List Source.Expr} (objects : ObjectsArguments program table depth arguments) :
    ObjectsExpr program table depth (.call node called arguments) := by
  refine ((objects_findCallee entered node called arguments).weaken fun _ objection =>
    ⟨_, List.mem_cons_self .., objection⟩).bind ?_
  rintro callee _ rfl
  refine (objects.weaken
    fun _ objected => objected.mono (List.subset_cons_self ..)).bind ?_
  rintro values new becomes
  refine .pure ⟨⟨rfl, rfl⟩, fun places => ?_⟩
  simpa [Lowered.isFlattenable, isFlattenable_call] using
    becomes (places.mono (List.subset_cons_self ..))

theorem objects_block {items : List Source.Expr}
    (objects : ObjectsExprs program table depth items) :
    ObjectsExpr program table depth (.block node items) := by
  refine (objects.weaken
    fun _ objected => objected.mono (List.subset_cons_self ..)).bind ?_
  rintro lowered new ⟨matched, becomes⟩
  refine (objects_ofItems node matched).bind ?_
  rintro value _ ⟨rfl, isPlace, flattenable⟩
  refine .pure ⟨⟨rfl, isPlace⟩, fun places => ?_⟩
  obtain ⟨flat, chunks⟩ := becomes (places.mono (List.subset_cons_self ..))
  exact ⟨flattenable flat, by simpa using chunks⟩

theorem objects_ifThen {thenBranch : Source.Expr}
    (conditionObjects : ObjectsExpr program table depth condition)
    (thenObjects : ObjectsExpr program table depth thenBranch) :
    ObjectsExpr program table depth (.ifThen node condition thenBranch) := by
  refine .bind_operand conditionObjects
    (fun part member => by simp [Source.Expr.partsAt, member]) ?_
  rintro test testNew ⟨-, testBecomes⟩
  refine .bind_item thenObjects (fun part member => by simp [Source.Expr.partsAt, member]) ?_
  rintro thenCode thenNew ⟨-, thenBecomes⟩
  refine decides_drawLabels.bind fun drawn _ none => .pure ⟨rfl, fun places => ?_⟩
  obtain ⟨testFlat, testChunks⟩ := testBecomes places
  obtain ⟨thenFlat, thenChunks⟩ := thenBecomes places
  refine ⟨?_, by simp [testChunks, thenChunks, none]⟩
  rw [Lowered.isFlattenable, isFlattenable_ifThen, isFlattenable_toStmt, testFlat, thenFlat,
    Bool.and_self]

theorem objects_ifThenElse {thenBranch elseBranch : Source.Expr}
    (conditionObjects : ObjectsExpr program table depth condition)
    (thenObjects : ObjectsExpr program table depth thenBranch)
    (elseObjects : ObjectsExpr program table depth elseBranch) :
    ObjectsExpr program table depth (.ifThenElse node condition thenBranch elseBranch) := by
  refine .bind_operand conditionObjects
    (fun part member => by simp [Source.Expr.partsAt, member]) ?_
  rintro test testNew ⟨-, testBecomes⟩
  refine .bind_item thenObjects (fun part member => by simp [Source.Expr.partsAt, member]) ?_
  rintro thenCode thenNew ⟨-, thenBecomes⟩
  refine .bind_item elseObjects (fun part member => by simp [Source.Expr.partsAt, member]) ?_
  rintro elseCode elseNew ⟨-, elseBecomes⟩
  refine decides_drawLabels.bind fun drawn _ none => .pure ⟨rfl, fun places => ?_⟩
  obtain ⟨testFlat, testChunks⟩ := testBecomes places
  obtain ⟨thenFlat, thenChunks⟩ := thenBecomes places
  obtain ⟨elseFlat, elseChunks⟩ := elseBecomes places
  refine ⟨?_, by simp [testChunks, thenChunks, elseChunks, none]⟩
  rw [Lowered.isFlattenable, isFlattenable_ifThenElse, isFlattenable_toStmt,
    isFlattenable_toStmt, testFlat, thenFlat, elseFlat, Bool.and_self, Bool.and_self]

theorem objects_whileLoop (conditionObjects : ObjectsExpr program table depth condition)
    (bodyObjects : ObjectsExpr program table depth body) :
    ObjectsExpr program table depth (.whileLoop node condition body) := by
  refine .bind_operand conditionObjects
    (fun part member => by simp [Source.Expr.partsAt, member]) ?_
  rintro test testNew ⟨-, testBecomes⟩
  refine .bind_item bodyObjects (fun part member => by simp [Source.Expr.partsAt, member]) ?_
  rintro bodyCode bodyNew ⟨-, bodyBecomes⟩
  refine decides_drawLabels.bind fun drawn _ none => .pure ⟨rfl, fun places => ?_⟩
  obtain ⟨testFlat, testChunks⟩ := testBecomes places
  obtain ⟨bodyFlat, bodyChunks⟩ := bodyBecomes places
  refine ⟨?_, by simp [testChunks, bodyChunks, none]⟩
  rw [Lowered.isFlattenable, isFlattenable_whileLoop, isFlattenable_toStmt, testFlat,
    bodyFlat, Bool.and_self]

theorem objects_forLoop {counter low high step : Source.Expr}
    (counterObjects : ObjectsExpr program table depth counter)
    (lowObjects : ObjectsExpr program table depth low)
    (highObjects : ObjectsExpr program table depth high)
    (stepObjects : ObjectsExpr program table depth step)
    (bodyObjects : ObjectsExpr program table depth body) :
    ObjectsExpr program table depth (.forLoop node counter low high step body) := by
  refine (objects_checkCounter.weaken fun _ objection =>
    ⟨_, List.mem_cons_self .., objection⟩).bind ?_
  rintro ⟨⟩ _ ⟨rfl, isName⟩
  refine .bind_operand counterObjects (fun part member => by simp [Source.Expr.partsAt, member]) ?_
  rintro cell cellNew ⟨target, cellBecomes⟩
  refine .bind_operand lowObjects (fun part member => by simp [Source.Expr.partsAt, member]) ?_
  rintro lowValue lowNew ⟨-, lowBecomes⟩
  refine .bind_operand highObjects (fun part member => by simp [Source.Expr.partsAt, member]) ?_
  rintro highValue highNew ⟨-, highBecomes⟩
  refine .bind_operand stepObjects (fun part member => by simp [Source.Expr.partsAt, member]) ?_
  rintro stepValue stepNew ⟨-, stepBecomes⟩
  refine .bind_item bodyObjects (fun part member => by simp [Source.Expr.partsAt, member]) ?_
  rintro bodyCode bodyNew ⟨-, bodyBecomes⟩
  refine decides_drawLabels.bind fun drawn _ none => decides_drawTemp.bind
    fun bound _ noneAgain => decides_drawTemp.bind fun stride _ noneAtLast =>
      .pure ⟨rfl, fun places => ?_⟩
  obtain ⟨cellFlat, cellChunks⟩ := cellBecomes places
  obtain ⟨lowFlat, lowChunks⟩ := lowBecomes places
  obtain ⟨highFlat, highChunks⟩ := highBecomes places
  obtain ⟨stepFlat, stepChunks⟩ := stepBecomes places
  obtain ⟨bodyFlat, bodyChunks⟩ := bodyBecomes places
  refine ⟨?_, by simp [cellChunks, lowChunks, highChunks, stepChunks, bodyChunks, none,
    noneAgain, noneAtLast]⟩
  rw [Lowered.isFlattenable, isFlattenable_forLoop, isFlattenable_toStmt, target,
    isPlace_of_isName isName, cellFlat, lowFlat, highFlat, stepFlat, bodyFlat]
  rfl

theorem objects_whereIn {definitions : List Def} {inner : Source.Expr}
    (definitionsObject : ObjectsDefs program table depth definitions)
    (innerObjects : ObjectsExpr program table depth inner) :
    ObjectsExpr program table depth (.whereIn node definitions inner) := by
  refine (definitionsObject.weaken
    fun _ objected => objected.mono fun part member => by
      simp [Source.Expr.partsAt, member]).bind ?_
  rintro ⟨⟩ new definitionsBecome
  refine .bind_operand innerObjects (fun part member => by simp [Source.Expr.partsAt, member]) ?_
  rintro value valueNew ⟨target, becomes⟩
  refine .pure ⟨⟨rfl, target⟩, fun places => ?_⟩
  obtain ⟨flat, chunks⟩ := becomes places
  have before := definitionsBecome (places.mono fun part member => by
    simp [Source.Expr.partsAt, member])
  exact ⟨flat, by simp [before, chunks]⟩

end Constructs

mutual

/-- Lowering objects to something in any expression or reaches its end. -/
theorem objects_ofExpr (entered : program.EnteredIn table) : (expression : Source.Expr) →
    (around : List NodeId) → Covers table (expression.contents around) →
    ObjectsExpr program table around.length expression
  | .literal _ value, _, _ => by
      refine (decides_ofLiteral value).bind fun value new ⟨flattenable, target, chunks⟩ => .pure ?_
      exact ⟨⟨rfl, target⟩, fun _ => ⟨flattenable, by simpa using chunks⟩⟩
  | .name node called, _, _ => by
      refine ((objects_ofName entered node called).weaken fun _ objection =>
        ⟨_, List.mem_cons_self .., objection⟩).bind ?_
      rintro value _ ⟨flattenable, target, rfl⟩
      exact .pure ⟨⟨rfl, target⟩, fun _ => ⟨flattenable, by simp⟩⟩
  | .unary _ _ operand, around, covers => objects_unary (objects_ofExpr entered operand around covers)
  | .binary _ _ left right, around, covers => by
      obtain ⟨leftCovers, rightCovers⟩ := Covers.append.mp covers
      exact objects_binary (objects_ofExpr entered left around leftCovers)
        (objects_ofExpr entered right around rightCovers)
  | .call _ _ arguments, around, covers => by
      obtain ⟨-, argumentsCover⟩ := Covers.append.mp covers
      exact objects_call entered (objects_ofArguments entered arguments around argumentsCover)
  | .block _ items, around, covers => objects_block (objects_ofExprs entered items around covers)
  | .ifThen _ condition thenBranch, around, covers => by
      obtain ⟨conditionCovers, thenCovers⟩ := Covers.append.mp covers
      exact objects_ifThen (objects_ofExpr entered condition around conditionCovers)
        (objects_ofExpr entered thenBranch around thenCovers)
  | .ifThenElse _ condition thenBranch elseBranch, around, covers => by
      obtain ⟨othersCover, elseCovers⟩ := Covers.append.mp covers
      obtain ⟨conditionCovers, thenCovers⟩ := Covers.append.mp othersCover
      exact objects_ifThenElse (objects_ofExpr entered condition around conditionCovers)
        (objects_ofExpr entered thenBranch around thenCovers)
        (objects_ofExpr entered elseBranch around elseCovers)
  | .whileLoop _ condition body, around, covers => by
      obtain ⟨conditionCovers, bodyCovers⟩ := Covers.append.mp covers
      exact objects_whileLoop (objects_ofExpr entered condition around conditionCovers)
        (objects_ofExpr entered body around bodyCovers)
  | .forLoop _ counter low high step body, around, covers => by
      obtain ⟨upToStep, bodyCovers⟩ := Covers.append.mp covers
      obtain ⟨upToHigh, stepCovers⟩ := Covers.append.mp upToStep
      obtain ⟨upToLow, highCovers⟩ := Covers.append.mp upToHigh
      obtain ⟨counterCovers, lowCovers⟩ := Covers.append.mp upToLow
      exact objects_forLoop (objects_ofExpr entered counter around counterCovers)
        (objects_ofExpr entered low around lowCovers)
        (objects_ofExpr entered high around highCovers)
        (objects_ofExpr entered step around stepCovers)
        (objects_ofExpr entered body around bodyCovers)
  | .whereIn _ definitions inner, around, covers => by
      obtain ⟨definitionsCover, innerCovers⟩ := Covers.append.mp covers
      exact objects_whereIn (objects_ofDefs entered definitions around definitionsCover)
        (objects_ofExpr entered inner around innerCovers)

theorem objects_ofExprs (entered : program.EnteredIn table) : (expressions : List Source.Expr) →
    (around : List NodeId) → Covers table (Source.Expr.contentsOfList around expressions) →
    ObjectsExprs program table around.length expressions
  | [], _, _ => .pure ⟨.nil, fun _ => by simp⟩
  | expression :: rest, around, covers => by
      obtain ⟨headCovers, restCovers⟩ := Covers.append.mp covers
      refine .bind_item (objects_ofExpr entered expression around headCovers)
        (List.subset_append_left ..) ?_
      rintro head headNew ⟨headMatches, headBecomes⟩
      refine ((objects_ofExprs entered rest around restCovers).weaken
        fun _ objected => objected.mono (List.subset_append_right ..)).bind ?_
      rintro others othersNew ⟨othersMatch, othersBecome⟩
      refine .pure ⟨.cons headMatches othersMatch, fun places => ?_⟩
      obtain ⟨headFlat, headChunks⟩ := headBecomes places
      obtain ⟨othersFlat, othersChunks⟩ :=
        othersBecome (places.mono (List.subset_append_right ..))
      exact ⟨List.forall_mem_cons.mpr ⟨headFlat, othersFlat⟩, by simp [headChunks, othersChunks]⟩

theorem objects_ofArguments (entered : program.EnteredIn table) :
    (expressions : List Source.Expr) → (around : List NodeId) →
    Covers table (Source.Expr.contentsOfList around expressions) →
    ObjectsArguments program table around.length expressions
  | [], _, _ => .pure fun _ => ⟨rfl, by simp⟩
  | expression :: rest, around, covers => by
      obtain ⟨headCovers, restCovers⟩ := Covers.append.mp covers
      refine .bind_operand (objects_ofExpr entered expression around headCovers)
        (List.subset_append_left ..) ?_
      rintro head headNew ⟨-, headBecomes⟩
      refine ((objects_ofArguments entered rest around restCovers).weaken
        fun _ objected => objected.mono (List.subset_append_right ..)).bind ?_
      rintro others othersNew othersBecome
      refine .pure fun places => ?_
      obtain ⟨headFlat, headChunks⟩ := headBecomes places
      obtain ⟨othersFlat, othersChunks⟩ :=
        othersBecome (places.mono (List.subset_append_right ..))
      exact ⟨by rw [IR.Expr.areFlattenable, headFlat, othersFlat, Bool.and_self],
        by simp [headChunks, othersChunks]⟩

theorem objects_ofDef (entered : program.EnteredIn table) : (definition : Def) →
    (around : List NodeId) → Covers table (definition.contents around) →
    Decides (ofDef ⟨program.resolution, table⟩ around.length definition)
      (ObjectedIn program (definition.partsAt around.length))
      fun _ new => AssignToPlaces (definition.partsAt around.length) → AreFlattenable new
  | .function node name parameters body, around, covers => by
      have found := covers.functions ⟨node, name, parameters, body, around⟩ (List.mem_cons_self ..)
      refine .bind_operand (objects_ofExpr entered body (node.id :: around) covers.inside)
        (List.Subset.refl _) ?_
      rintro result new ⟨-, becomes⟩
      refine .bind_require (fun missing => ?_) fun frame _ => ?_
      · rw [missing] at found
        cases found
      refine (decides_emit _).mono (fun _ => id) ?_
      rintro _ _ rfl places
      obtain ⟨flat, chunks⟩ := becomes places
      simpa [AreFlattenable, Flattening.isFlattenable, isFlattenable_functionBody, or_imp,
        forall_and, flat] using chunks
  | .var node name, around, covers => by
      have found := covers.storages node.id (by simp [Contents.ownedIds, Def.contents])
      refine .bind_require (fun missing => ?_) fun storage _ => ?_
      · rw [missing] at found
        cases found
      cases storage with
      | global slot =>
          refine (decides_emit _).mono (fun _ => id) ?_
          rintro _ _ rfl -
          simp [AreFlattenable, Flattening.isFlattenable]
      | localVar _ | parameter _ => exact .pure fun _ => by simp
  | .typeAlias .., _, _ => .pure fun _ => by simp

theorem objects_ofDefs (entered : program.EnteredIn table) : (definitions : List Def) →
    (around : List NodeId) → Covers table (Def.contentsOfList around definitions) →
    ObjectsDefs program table around.length definitions
  | [], _, _ => .pure fun _ => by simp
  | definition :: rest, around, covers => by
      obtain ⟨headCovers, restCovers⟩ := Covers.append.mp covers
      refine ((objects_ofDef entered definition around headCovers).weaken
        fun _ objected => objected.mono (List.subset_append_left ..)).bind ?_
      rintro ⟨⟩ headNew headBecomes
      refine (objects_ofDefs entered rest around restCovers).mono
        (fun _ objected => objected.mono (List.subset_append_right ..)) ?_
      rintro _ othersNew othersBecome places
      exact areFlattenable_append.mpr ⟨headBecomes (places.mono (List.subset_append_left ..)),
        othersBecome (places.mono (List.subset_append_right ..))⟩

end

end Trees

end TreeBackend.Lowering
