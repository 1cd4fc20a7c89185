import Mathlib.Tactic.Tauto
import TreeBackend.Proofs.Lowering.Verdict

/-!
# Which programs can be lowered

By induction on the tree, lowering reaches its end on every well-formed part of a
program that is laid out, with code that can be flattened.  Of a part that is not
well-formed it either rejects something or leaves code that cannot be flattened.
-/

namespace TreeBackend.Lowering

open Source Outcome
open IR (Chunk)

/-- A table has an entry for everything that a part of a program defines. -/
structure Covers (table : FrameTable) (contents : Contents) : Prop where
  functions : ∀ function ∈ contents.functions, (table.frame? function.node.id).isSome = true
  storages : ∀ id ∈ contents.ownedIds, (table.storage? id).isSome = true

namespace Covers

variable {table : FrameTable} {first second : Contents}

theorem append : Covers table (first ++ second) ↔ Covers table first ∧ Covers table second := by
  constructor
  · intro covers
    refine ⟨⟨fun function member => ?_, fun id isOwned => ?_⟩,
      ⟨fun function member => ?_, fun id isOwned => ?_⟩⟩
    · exact covers.functions function (List.mem_append_left _ member)
    · exact covers.storages id (Contents.mem_ownedIds_append.mpr (.inl isOwned))
    · exact covers.functions function (List.mem_append_right _ member)
    · exact covers.storages id (Contents.mem_ownedIds_append.mpr (.inr isOwned))
  · rintro ⟨left, right⟩
    refine ⟨fun function member => ?_, fun id isOwned => ?_⟩
    · exact (List.mem_append.mp member).elim (left.functions function) (right.functions function)
    · exact (Contents.mem_ownedIds_append.mp isOwned).elim (left.storages id) (right.storages id)

theorem inside {function : Function} (covers : Covers table (.ofFunction function)) :
    Covers table function.contents where
  functions other member := covers.functions other (List.mem_cons_of_mem _ member)
  storages id isOwned := covers.storages id (by
    rw [Contents.ownedIds_ofFunction]
    exact List.mem_append_right _ isOwned)

end Covers

section LaidOut

variable {program : Program} {table : FrameTable} {labels : LabelSupply}

theorem storage?_of_mem_ownedIds (laid : program.LaidOut table labels) {function : Function}
    (member : function ∈ program.functions) {id : NodeId} (isOwned : id ∈ function.ownedIds) :
    ∃ slot : StackSlot, slot.level = function.depth ∧
      (table.storage? id = some (.localVar slot) ∨ table.storage? id = some (.parameter slot)) := by
  have described := laid.functions.each function member
  rcases List.mem_append.mp isOwned with isParameter | isLocal
  · obtain ⟨parameter, member, rfl⟩ := List.mem_map.mp isParameter
    obtain ⟨slot, found, same⟩ := described.parameters.storage member
    exact ⟨slot, same, .inr found⟩
  · obtain ⟨owned, member, rfl⟩ := List.mem_map.mp isLocal
    obtain ⟨slot, found, same⟩ := described.locals.storage member
    exact ⟨slot, same, .inl found⟩

/-- Only what lies outside all functions is global. -/
theorem exists_global (laid : program.LaidOut table labels) {definition : NodeId}
    {slot : GlobalSlot} (found : table.storage? definition = some (.global slot)) :
    ∃ owned ∈ program.globals, owned.node.id = definition ∧ slot.label = .named owned.name := by
  have isOwned := laid.storages definition (by rw [found]; rfl)
  rcases List.mem_append.mp isOwned with isGlobal | isInner
  · obtain ⟨owned, member, rfl⟩ := List.mem_map.mp isGlobal
    obtain rfl :=
      Storage.global.inj (Option.some_inj.mp (found.symm.trans (laid.globals owned member)))
    exact ⟨owned, member, rfl, rfl⟩
  · obtain ⟨function, member, isOwned⟩ := List.mem_flatMap.mp isInner
    obtain ⟨_, -, stored | stored⟩ := storage?_of_mem_ownedIds laid member isOwned <;>
      cases found.symm.trans stored

theorem covers_contents (laid : program.LaidOut table labels) : Covers table program.contents where
  functions function member := by
    rw [laid.frames, ← program.map_functions]
    exact List.mem_map.mpr ⟨function, member, rfl⟩
  storages id isOwned := by
    rcases List.mem_append.mp isOwned with isGlobal | isInner
    · obtain ⟨owned, member, rfl⟩ := List.mem_map.mp isGlobal
      rw [laid.globals owned member]
      rfl
    · obtain ⟨function, member, isOwned⟩ := List.mem_flatMap.mp isInner
      obtain ⟨slot, -, found | found⟩ := storage?_of_mem_ownedIds laid member isOwned <;>
        rw [found] <;> rfl

/-- A cell can be had for a definition exactly if it is a variable within reach. -/
theorem hasVariable_iff (laid : program.LaidOut table labels) {level : Nat} {node : Node} :
    program.hasVariable level node = true ↔
      ∃ definition storage value, program.resolution.definitionOf? node.id = some definition ∧
        table.storage? definition = some storage ∧ cell? level storage = some value := by
  unfold Program.hasVariable
  rw [Option.any_eq_true]
  simp only [Bool.or_eq_true, List.any_eq_true, Bool.and_eq_true, decide_eq_true_eq,
    List.contains_iff_mem]
  constructor
  · rintro ⟨definition, bound, ⟨owned, member, rfl⟩ | ⟨function, member, reach, isOwned⟩⟩
    · exact ⟨_, _, _, bound, laid.globals owned member, rfl⟩
    · obtain ⟨slot, same, found⟩ := storage?_of_mem_ownedIds laid member isOwned
      have reaches : slot.level ≤ level := same ▸ reach
      rcases found with found | found <;>
        exact ⟨_, _, _, bound, found, if_pos reaches⟩
  · rintro ⟨definition, storage, value, bound, found, cell⟩
    refine ⟨definition, bound, ?_⟩
    have isOwned := laid.storages definition (by rw [found]; rfl)
    rcases List.mem_append.mp isOwned with isGlobal | isInner
    · obtain ⟨owned, member, rfl⟩ := List.mem_map.mp isGlobal
      exact .inl ⟨owned, member, rfl⟩
    · obtain ⟨function, member, isOwned⟩ := List.mem_flatMap.mp isInner
      obtain ⟨slot, same, stored⟩ := storage?_of_mem_ownedIds laid member isOwned
      refine .inr ⟨function, member, ?_, isOwned⟩
      by_contra outside
      have hidden : ¬slot.level ≤ level := same ▸ outside
      rcases stored with stored | stored
      · obtain rfl := Option.some_inj.mp (found.symm.trans stored)
        rw [cell?, stackCell?, if_neg hidden] at cell
        cases cell
      · obtain rfl := Option.some_inj.mp (found.symm.trans stored)
        rw [cell?, stackCell?, if_neg hidden] at cell
        cases cell

end LaidOut

section Leaves

variable {program : Program} {table : FrameTable} {labels : LabelSupply} {level : Nat}

theorem decides_ofName (laid : program.LaidOut table labels) (node : Node) (name : String) :
    Decides (ofName ⟨program.resolution, table⟩ level node name)
      (Rejects program level (.name node name)) (AcceptsValue program level (.name node name)) := by
  have iff := @hasVariable_iff _ _ _ laid level node
  have unreachable : (¬∃ definition storage value,
      program.resolution.definitionOf? node.id = some definition ∧
        table.storage? definition = some storage ∧ cell? level storage = some value) →
      (Source.Expr.name node name).isWellFormed program level = false :=
    fun none => Bool.eq_false_iff.mpr fun holds => none (iff.mp holds)
  unfold ofName
  refine .bind_require (fun unbound => ⟨unreachable (by simp [unbound]), trivial⟩)
    fun definition bound => ?_
  refine .bind_require (fun missing => ⟨unreachable ?_, node, by simp [Source.Expr.parts], rfl⟩)
    fun storage found => ?_
  · rintro ⟨other, storage, _, otherBound, found, -⟩
    obtain rfl := Option.some_inj.mp (bound.symm.trans otherBound)
    cases missing.symm.trans found
  refine .require (fun hidden => ⟨unreachable ?_, trivial⟩) fun value cell => ?_
  · rintro ⟨other, otherStorage, value, otherBound, otherFound, cell⟩
    obtain rfl := Option.some_inj.mp (bound.symm.trans otherBound)
    obtain rfl := Option.some_inj.mp (found.symm.trans otherFound)
    cases hidden.symm.trans cell
  · obtain ⟨flattenable, target⟩ := cell?_eq_some cell
    refine ⟨rfl, target, ?_⟩
    simp only [Source.Expr.isWellFormed, iff, flattenable, areFlattenable_nil,
      and_self, iff_true]
    exact ⟨_, _, _, bound, found, cell⟩

theorem decides_ofLiteral {fails : CompileError → Prop} (literal : Literal) :
    Decides (ofLiteral literal) fails fun value new =>
      value.isFlattenable = true ∧ value.isTarget = false ∧ AreFlattenable new := by
  cases literal with
  | int value => exact .pure ⟨rfl, rfl, areFlattenable_nil⟩
  | log truth => exact .pure ⟨rfl, rfl, areFlattenable_nil⟩
  | str text =>
      intro state
      refine .inl ⟨_, _, [.data ⟨Word.size, state.labels.next⟩ text], rfl, rfl, rfl, rfl, ?_⟩
      simp [AreFlattenable, Flattening.isFlattenable]

theorem decides_findCallee (laid : program.LaidOut table labels) (node : Node) (name : String)
    (arguments : List Source.Expr) :
    Decides (findCallee ⟨program.resolution, table⟩ node name)
      (fun problem => program.hasCallee node name = false ∧
        Explained (Source.Expr.call node name arguments).parts problem)
      fun _ new => program.hasCallee node name = true ∧ new = [] := by
  unfold findCallee
  cases builtin : Builtin.ofName? name with
  | some builtin => exact .pure ⟨by simp [Program.hasCallee, *], rfl⟩
  | none =>
      refine .bind_require (fun unbound => ⟨by simp [Program.hasCallee, *], trivial⟩)
        fun definition bound => ?_
      have callee : program.hasCallee node name = program.functionIds.contains definition := by
        simp [Program.hasCallee, *]
      refine .bind_require (fun missing => ⟨?_, node, arguments, Source.Expr.mem_parts _, rfl⟩)
        fun frame found => .pure ⟨?_, rfl⟩
      · rw [callee, ← Bool.not_eq_true, List.contains_iff_mem, ← laid.frames definition, missing]
        simp
      · rw [callee, List.contains_iff_mem, ← laid.frames definition, found]
        rfl

abbrev ExplainedAnywhere (problem : CompileError) : Prop := ∀ parts, Explained parts problem

theorem decides_ofBinary (node : Node) (operator : BinaryOperator) {left : Source.Expr}
    (right : Source.Expr) {leftValue rightValue : IR.Expr}
    (target : leftValue.isTarget = left.isPlace) :
    Decides (ofBinary ⟨program.resolution, table⟩ node operator leftValue rightValue)
      (fun problem => program.allows node left operator = false ∧ ExplainedAnywhere problem)
      fun value new => new = [] ∧
        value.isTarget = (Source.Expr.binary node operator left right).isPlace ∧
        (value.isFlattenable = true ↔ leftValue.isFlattenable = true ∧
          rightValue.isFlattenable = true ∧ program.allows node left operator = true) := by
  unfold ofBinary
  cases operator with
  | compute operator =>
      exact .pure ⟨rfl, rfl, by simp [IR.Expr.isFlattenable, Program.allows]⟩
  | index =>
      refine .bind_require (fun untyped => ⟨by simp [Program.allows, *], fun _ => trivial⟩)
        fun ty typed => .pure ⟨rfl, rfl, ?_⟩
      simp [isFlattenable_elementCell, Program.allows, *]
  | assign =>
      have direct : ∀ value, value = assignment leftValue rightValue →
          value.isTarget = left.isPlace ∧ (value.isFlattenable = true ↔
            leftValue.isFlattenable = true ∧ rightValue.isFlattenable = true ∧
              left.isPlace = true) := by
        rintro _ rfl
        rw [isFlattenable_assignment, target]
        simp only [assignment, IR.Expr.isTarget, target, Bool.and_eq_true, true_and]
        tauto
      cases leftValue with
      | mem address =>
          dsimp only
          by_cases repeatable : isRepeatable address = true
          · rw [if_pos repeatable]
            exact .pure ⟨rfl, direct _ rfl⟩
          · rw [if_neg repeatable]
            refine decides_drawTemp.bind fun temp _ none => .pure ?_
            have isPlace : left.isPlace = true := target.symm
            refine ⟨by rw [none]; rfl, isPlace.symm, ?_⟩
            simp [isFlattenable_assignmentOnce, IR.Expr.isFlattenable, Program.allows, isPlace]
      | const _ | name _ | temp _ | binop _ _ _ | call _ _ | eseq _ _ =>
          exact .pure ⟨rfl, direct _ rfl⟩

theorem endInPlace_append_singleton (items : List Source.Expr) (last : Source.Expr) :
    Source.Expr.endInPlace (items ++ [last]) = last.isPlace := by
  induction items with
  | nil => rfl
  | cons item rest ih =>
      cases rest with
      | nil => rfl
      | cons _ _ => exact ih

theorem last_of_forall₂_matches {items : List Source.Expr} {lowered : List Lowered}
    (all : List.Forall₂ Matches items lowered) :
    (items = [] ∧ lowered = []) ∨ ∃ front last becomes lastBecomes,
      items = front ++ [last] ∧ lowered = becomes ++ [lastBecomes] ∧ Matches last lastBecomes := by
  induction all with
  | nil => exact .inl ⟨rfl, rfl⟩
  | @cons item lowered items rest head _ ih =>
      rcases ih with ⟨rfl, rfl⟩ | ⟨front, last, becomes, lastBecomes, rfl, rfl, matched⟩
      · exact .inr ⟨[], item, [], lowered, rfl, rfl, head⟩
      · exact .inr ⟨item :: front, last, lowered :: becomes, lastBecomes, rfl, rfl, matched⟩

theorem decides_ofItems (node : Node) {items : List Source.Expr} {lowered : List Lowered}
    (all : List.Forall₂ Matches items lowered) :
    Decides (ofItems node items lowered)
      (fun problem => items.getLast?.any Source.Expr.isValue = false ∧ ExplainedAnywhere problem)
      fun value new => new = [] ∧ items.getLast?.any Source.Expr.isValue = true ∧
        value.isTarget = Source.Expr.endInPlace items ∧
        (value.isFlattenable = true ↔ ∀ part ∈ lowered, part.isFlattenable = true) := by
  unfold ofItems
  rcases last_of_forall₂_matches all with
    ⟨rfl, rfl⟩ | ⟨front, last, becomes, lastBecomes, rfl, rfl, matched⟩
  · exact .fail ⟨rfl, fun _ => trivial⟩
  · simp only [List.getLast?_append, List.getLast?_singleton, Option.some_or, Option.any_some,
      List.dropLast_concat]
    cases lastBecomes with
    | expr value =>
        refine .pure ⟨rfl, matched.1, ?_, ?_⟩
        · rw [endInPlace_append_singleton]
          exact matched.2
        · simp [IR.Expr.isFlattenable, IR.Stmt.isFlattenable, areFlattenable_eq_all,
            Lowered.isFlattenable, or_imp, forall_and]
    | stmt statement => exact .fail ⟨matched, fun _ => trivial⟩

theorem decides_checkCounter (counter : Source.Expr) :
    Decides (checkCounter counter)
      (fun problem => counter.isName = false ∧ ExplainedAnywhere problem)
      fun _ new => new = [] ∧ counter.isName = true := by
  cases counter with
  | name node name => exact .pure ⟨rfl, rfl⟩
  | literal _ _ | unary _ _ _ | binary _ _ _ _ | call _ _ _ | block _ _ | ifThen _ _ _
  | ifThenElse _ _ _ _ | whileLoop _ _ _ | forLoop _ _ _ _ _ _ | whereIn _ _ _ =>
      exact .fail ⟨rfl, fun _ => trivial⟩

theorem isValue_of_isName {counter : Source.Expr} (isName : counter.isName = true) :
    counter.isValue = true := by
  cases counter <;> simp_all [Source.Expr.isName, Source.Expr.isValue]

theorem isPlace_of_isName {counter : Source.Expr} (isName : counter.isName = true) :
    counter.isPlace = true := by
  cases counter <;> simp_all [Source.Expr.isName, Source.Expr.isPlace]

end Leaves

/-! ### Expressions and definitions -/

section Verdicts

variable (program : Program) (table : FrameTable) (level : Nat)

/-- Lowering decides whether an expression is well-formed, as far as flattening does not. -/
abbrev DecidesExpr (expression : Source.Expr) : Prop :=
  Decides (ofExpr ⟨program.resolution, table⟩ level expression)
    (Rejects program level expression) (Accepts program level expression)

abbrev DecidesExprs (expressions : List Source.Expr) : Prop :=
  Decides (ofExprs ⟨program.resolution, table⟩ level expressions)
    (fun problem => Source.Expr.areWellFormed program level expressions = false ∧
      Explained (Source.Expr.partsOfList expressions) problem)
    fun lowered new => List.Forall₂ Matches expressions lowered ∧
      (Source.Expr.areWellFormed program level expressions = true ↔
        (∀ part ∈ lowered, part.isFlattenable = true) ∧ AreFlattenable new)

abbrev DecidesArguments (arguments : List Source.Expr) : Prop :=
  Decides (ofArguments ⟨program.resolution, table⟩ level arguments)
    (fun problem => (arguments.all Source.Expr.isValue &&
        Source.Expr.areWellFormed program level arguments) = false ∧
      Explained (Source.Expr.partsOfList arguments) problem)
    fun values new => arguments.all Source.Expr.isValue = true ∧
      (Source.Expr.areWellFormed program level arguments = true ↔
        IR.Expr.areFlattenable values = true ∧ AreFlattenable new)

abbrev DecidesDefs (definitions : List Def) : Prop :=
  Decides (ofDefs ⟨program.resolution, table⟩ level definitions)
    (fun problem => Def.areWellFormed program level definitions = false ∧
      Explained (Def.partsOfList definitions) problem)
    fun _ new => (Def.areWellFormed program level definitions = true ↔ AreFlattenable new)

end Verdicts

section Trees

variable {program : Program} {table : FrameTable} {labels : LabelSupply} {level : Nat}
  {fails : CompileError → Prop}

/-- An expression that is used for its value, and what comes after it. -/
theorem Decides.bind_value {β : Type} {part : String} {expression : Source.Expr}
    {next : IR.Expr → Lowering β} {returns : β → List Chunk → Prop}
    (decides : DecidesExpr program table level expression)
    (rejects : ∀ problem,
      (expression.isValue && expression.isWellFormed program level) = false →
        Explained expression.parts problem → fails problem)
    (continues : ∀ value new, AcceptsValue program level expression value new →
      Decides (next value) fails fun result more => returns result (new ++ more)) :
    Decides (do next (← asExpr part expression (← ofExpr ⟨program.resolution, table⟩ level
      expression))) fails returns := by
  refine (decides.mono (fun problem rejected => rejects problem
    (by rw [rejected.1, Bool.and_false]) rejected.2) fun _ _ => id).bind ?_
  rintro lowered new ⟨matched, accepted⟩
  cases lowered with
  | expr value => exact continues value new ⟨matched.1, matched.2, accepted⟩
  | stmt statement =>
      have noValue : expression.isValue = false := matched
      refine fun state => .inr ⟨_, state, rfl, rejects _ ?_ trivial⟩
      rw [noValue, Bool.false_and]

/-- An expression whose value may be dropped, and what comes after it. -/
theorem Decides.bind_code {β : Type} {expression : Source.Expr}
    {next : Lowered → Lowering β} {returns : β → List Chunk → Prop}
    (decides : DecidesExpr program table level expression)
    (rejects : ∀ problem, expression.isWellFormed program level = false →
        Explained expression.parts problem → fails problem)
    (continues : ∀ lowered new, Accepts program level expression lowered new →
      Decides (next lowered) fails fun result more => returns result (new ++ more)) :
    Decides (do next (← ofExpr ⟨program.resolution, table⟩ level expression)) fails returns :=
  (decides.mono (fun problem rejected => rejects problem rejected.1 rejected.2)
    fun _ _ => id).bind continues

attribute [local simp] Source.Expr.isWellFormed Source.Expr.areWellFormed Def.isWellFormed
  Def.areWellFormed

section Constructs

variable {node : Node} {condition body : Source.Expr}

theorem decides_unary {operator : UnaryOperator} {operand : Source.Expr}
    (decides : DecidesExpr program table level operand) :
    DecidesExpr program table level (.unary node operator operand) := by
  refine .bind_value decides (fun problem no why => ?_) ?_
  · exact ⟨no, why.mono (List.subset_cons_self ..)⟩
  rintro value new ⟨isValue, target, accepted⟩
  refine .pure ⟨⟨rfl, ?_⟩, ?_⟩
  · cases operator with
    | plus => exact target
    | minus | not => rfl
  · simpa [Lowered.isFlattenable, isValue] using accepted

theorem decides_binary {operator : BinaryOperator} {left right : Source.Expr}
    (leftDecides : DecidesExpr program table level left)
    (rightDecides : DecidesExpr program table level right) :
    DecidesExpr program table level (.binary node operator left right) := by
  refine .bind_value leftDecides (fun problem no why => ?_) ?_
  · refine ⟨by simp [no], why.mono fun part member => ?_⟩
    simp [Source.Expr.parts, member]
  rintro leftValue leftNew ⟨leftIsValue, target, leftAccepted⟩
  refine .bind_value rightDecides (fun problem no why => ?_) ?_
  · refine ⟨by simp [no], why.mono fun part member => ?_⟩
    simp [Source.Expr.parts, member]
  rintro rightValue rightNew ⟨rightIsValue, -, rightAccepted⟩
  refine ((decides_ofBinary node operator right target).weaken fun problem no => ?_).bind ?_
  · exact ⟨by simp [no.1], no.2 _⟩
  rintro value _ ⟨rfl, isPlace, accepted⟩
  refine .pure ⟨⟨rfl, isPlace⟩, ?_⟩
  simp only [Source.Expr.isWellFormed, Lowered.isFlattenable, leftIsValue, rightIsValue,
    Bool.true_and, Bool.and_eq_true, leftAccepted, rightAccepted, accepted,
    areFlattenable_append, areFlattenable_nil, and_true]
  exact iff_of_eq (by ac_rfl)

theorem decides_call (laid : program.LaidOut table labels) {name : String}
    {arguments : List Source.Expr} (decides : DecidesArguments program table level arguments) :
    DecidesExpr program table level (.call node name arguments) := by
  refine ((decides_findCallee laid node name arguments).weaken fun problem no => ?_).bind ?_
  · exact ⟨by simp [no.1], no.2⟩
  rintro callee _ ⟨isCallee, rfl⟩
  refine (decides.weaken fun problem no => ?_).bind ?_
  · refine ⟨by simp [no.1], no.2.mono ?_⟩
    exact List.subset_cons_self ..
  rintro values new ⟨areValues, accepted⟩
  refine .pure ⟨⟨rfl, rfl⟩, ?_⟩
  simpa [Lowered.isFlattenable, isCallee, areValues, isFlattenable_call] using accepted

theorem decides_block {items : List Source.Expr}
    (decides : DecidesExprs program table level items) :
    DecidesExpr program table level (.block node items) := by
  refine (decides.weaken fun problem no => ?_).bind ?_
  · exact ⟨by simp [no.1], no.2.mono (List.subset_cons_self ..)⟩
  rintro lowered new ⟨matched, accepted⟩
  refine ((decides_ofItems node matched).weaken fun problem no => ?_).bind ?_
  · exact ⟨by simp [no.1], no.2 _⟩
  rintro value _ ⟨rfl, isValue, isPlace, flattenable⟩
  refine .pure ⟨⟨rfl, isPlace⟩, ?_⟩
  simp [Lowered.isFlattenable, isValue, accepted, flattenable]

theorem decides_ifThen {thenBranch : Source.Expr}
    (conditionDecides : DecidesExpr program table level condition)
    (thenDecides : DecidesExpr program table level thenBranch) :
    DecidesExpr program table level (.ifThen node condition thenBranch) := by
  refine .bind_value conditionDecides (fun problem no why => ?_) ?_
  · refine ⟨by simp [no], why.mono fun part member => ?_⟩
    simp [Source.Expr.parts, member]
  rintro test testNew ⟨isValue, -, testAccepted⟩
  refine .bind_code thenDecides (fun problem no why => ?_) ?_
  · refine ⟨by simp [no], why.mono fun part member => ?_⟩
    simp [Source.Expr.parts, member]
  rintro thenCode thenNew ⟨-, thenAccepted⟩
  refine decides_drawLabels.bind fun drawn _ none => .pure ⟨rfl, ?_⟩
  simp only [Source.Expr.isWellFormed, Lowered.isFlattenable, isValue, Bool.true_and,
    Bool.and_eq_true, testAccepted, thenAccepted, isFlattenable_ifThen, isFlattenable_toStmt,
    areFlattenable_append, areFlattenable_nil, none, and_true]
  exact iff_of_eq (by ac_rfl)

theorem decides_ifThenElse {thenBranch elseBranch : Source.Expr}
    (conditionDecides : DecidesExpr program table level condition)
    (thenDecides : DecidesExpr program table level thenBranch)
    (elseDecides : DecidesExpr program table level elseBranch) :
    DecidesExpr program table level (.ifThenElse node condition thenBranch elseBranch) := by
  refine .bind_value conditionDecides (fun problem no why => ?_) ?_
  · refine ⟨by simp [no], why.mono fun part member => ?_⟩
    simp [Source.Expr.parts, member]
  rintro test testNew ⟨isValue, -, testAccepted⟩
  refine .bind_code thenDecides (fun problem no why => ?_) ?_
  · refine ⟨by simp [no], why.mono fun part member => ?_⟩
    simp [Source.Expr.parts, member]
  rintro thenCode thenNew ⟨-, thenAccepted⟩
  refine .bind_code elseDecides (fun problem no why => ?_) ?_
  · refine ⟨by simp [no], why.mono fun part member => ?_⟩
    simp [Source.Expr.parts, member]
  rintro elseCode elseNew ⟨-, elseAccepted⟩
  refine decides_drawLabels.bind fun drawn _ none => .pure ⟨rfl, ?_⟩
  simp only [Source.Expr.isWellFormed, Lowered.isFlattenable, isValue, Bool.true_and,
    Bool.and_eq_true, testAccepted, thenAccepted, elseAccepted, isFlattenable_ifThenElse,
    isFlattenable_toStmt, areFlattenable_append, areFlattenable_nil, none, and_true]
  exact iff_of_eq (by ac_rfl)

theorem decides_whileLoop (conditionDecides : DecidesExpr program table level condition)
    (bodyDecides : DecidesExpr program table level body) :
    DecidesExpr program table level (.whileLoop node condition body) := by
  refine .bind_value conditionDecides (fun problem no why => ?_) ?_
  · refine ⟨by simp [no], why.mono fun part member => ?_⟩
    simp [Source.Expr.parts, member]
  rintro test testNew ⟨isValue, -, testAccepted⟩
  refine .bind_code bodyDecides (fun problem no why => ?_) ?_
  · refine ⟨by simp [no], why.mono fun part member => ?_⟩
    simp [Source.Expr.parts, member]
  rintro bodyCode bodyNew ⟨-, bodyAccepted⟩
  refine decides_drawLabels.bind fun drawn _ none => .pure ⟨rfl, ?_⟩
  simp only [Source.Expr.isWellFormed, Lowered.isFlattenable, isValue, Bool.true_and,
    Bool.and_eq_true, testAccepted, bodyAccepted, isFlattenable_whileLoop,
    isFlattenable_toStmt, areFlattenable_append, areFlattenable_nil, none, and_true]
  exact iff_of_eq (by ac_rfl)

theorem decides_forLoop {counter low high step : Source.Expr}
    (counterDecides : DecidesExpr program table level counter)
    (lowDecides : DecidesExpr program table level low)
    (highDecides : DecidesExpr program table level high)
    (stepDecides : DecidesExpr program table level step)
    (bodyDecides : DecidesExpr program table level body) :
    DecidesExpr program table level (.forLoop node counter low high step body) := by
  refine ((decides_checkCounter counter).weaken fun problem no => ?_).bind ?_
  · exact ⟨by simp [no.1], no.2 _⟩
  rintro ⟨⟩ _ ⟨rfl, isName⟩
  refine .bind_value counterDecides (fun problem no why => ?_) ?_
  · rw [isValue_of_isName isName, Bool.true_and] at no
    refine ⟨by simp [no], why.mono fun part member => ?_⟩
    simp [Source.Expr.parts, member]
  rintro cell cellNew ⟨-, target, cellAccepted⟩
  refine .bind_value lowDecides (fun problem no why => ?_) ?_
  · refine ⟨by simp [no], why.mono fun part member => ?_⟩
    simp [Source.Expr.parts, member]
  rintro lowValue lowNew ⟨lowIsValue, -, lowAccepted⟩
  refine .bind_value highDecides (fun problem no why => ?_) ?_
  · refine ⟨by simp [no], why.mono fun part member => ?_⟩
    simp [Source.Expr.parts, member]
  rintro highValue highNew ⟨highIsValue, -, highAccepted⟩
  refine .bind_value stepDecides (fun problem no why => ?_) ?_
  · refine ⟨by simp [no], why.mono fun part member => ?_⟩
    simp [Source.Expr.parts, member]
  rintro stepValue stepNew ⟨stepIsValue, -, stepAccepted⟩
  refine .bind_code bodyDecides (fun problem no why => ?_) ?_
  · refine ⟨by simp [no], why.mono fun part member => ?_⟩
    simp [Source.Expr.parts, member]
  rintro bodyCode bodyNew ⟨-, bodyAccepted⟩
  refine decides_drawLabels.bind fun drawn _ none => decides_drawTemp.bind
    fun bound _ noneAgain => decides_drawTemp.bind fun stride _ noneAtLast => .pure ⟨rfl, ?_⟩
  simp only [Source.Expr.isWellFormed, Lowered.isFlattenable, isName, lowIsValue, highIsValue,
    stepIsValue, Bool.true_and, Bool.and_eq_true, cellAccepted, lowAccepted, highAccepted,
    stepAccepted, bodyAccepted, isFlattenable_forLoop, target, isPlace_of_isName isName,
    isFlattenable_toStmt, areFlattenable_append, areFlattenable_nil, none, noneAgain,
    noneAtLast, and_true, true_and]
  exact iff_of_eq (by ac_rfl)

theorem decides_whereIn {definitions : List Def} {inner : Source.Expr}
    (definitionsDecide : DecidesDefs program table level definitions)
    (innerDecides : DecidesExpr program table level inner) :
    DecidesExpr program table level (.whereIn node definitions inner) := by
  refine (definitionsDecide.weaken fun problem no =>
    ?_).bind ?_
  · refine ⟨by simp [no.1], no.2.mono ?_⟩
    simp [Source.Expr.parts]
  rintro ⟨⟩ new definitionsAccepted
  refine .bind_value innerDecides (fun problem no why => ?_) ?_
  · refine ⟨by simp [no], why.mono fun part member => ?_⟩
    simp [Source.Expr.parts, member]
  rintro value valueNew ⟨isValue, target, accepted⟩
  refine .pure ⟨⟨rfl, target⟩, ?_⟩
  simp only [Source.Expr.isWellFormed, Lowered.isFlattenable, isValue, Bool.true_and,
    Bool.and_eq_true, definitionsAccepted, accepted, areFlattenable_append,
    areFlattenable_nil, and_true]
  exact iff_of_eq (by ac_rfl)

end Constructs

mutual

/-- Lowering decides whether any expression is well-formed. -/
theorem decides_ofExpr (laid : program.LaidOut table labels) : (expression : Source.Expr) →
    (around : List NodeId) → Covers table (expression.contents around) →
    DecidesExpr program table around.length expression
  | .literal _ value, _, _ => by
      refine (decides_ofLiteral value).bind fun value new ⟨flattenable, target, chunks⟩ => .pure ?_
      refine ⟨⟨rfl, target⟩, ?_⟩
      simp [Lowered.isFlattenable, flattenable, chunks]
  | .name node name, _, _ => by
      refine (decides_ofName laid node name).bind fun value new ⟨_, target, accepted⟩ => .pure ?_
      refine ⟨⟨rfl, target⟩, ?_⟩
      simpa [Lowered.isFlattenable] using accepted
  | .unary _ _ operand, around, covers => decides_unary (decides_ofExpr laid operand around covers)
  | .binary _ _ left right, around, covers => by
      obtain ⟨leftCovers, rightCovers⟩ := Covers.append.mp covers
      exact decides_binary (decides_ofExpr laid left around leftCovers)
        (decides_ofExpr laid right around rightCovers)
  | .call _ _ arguments, around, covers => by
      obtain ⟨-, argumentsCover⟩ := Covers.append.mp covers
      exact decides_call laid (decides_ofArguments laid arguments around argumentsCover)
  | .block _ items, around, covers => decides_block (decides_ofExprs laid items around covers)
  | .ifThen _ condition thenBranch, around, covers => by
      obtain ⟨conditionCovers, thenCovers⟩ := Covers.append.mp covers
      exact decides_ifThen (decides_ofExpr laid condition around conditionCovers)
        (decides_ofExpr laid thenBranch around thenCovers)
  | .ifThenElse _ condition thenBranch elseBranch, around, covers => by
      obtain ⟨othersCover, elseCovers⟩ := Covers.append.mp covers
      obtain ⟨conditionCovers, thenCovers⟩ := Covers.append.mp othersCover
      exact decides_ifThenElse (decides_ofExpr laid condition around conditionCovers)
        (decides_ofExpr laid thenBranch around thenCovers)
        (decides_ofExpr laid elseBranch around elseCovers)
  | .whileLoop _ condition body, around, covers => by
      obtain ⟨conditionCovers, bodyCovers⟩ := Covers.append.mp covers
      exact decides_whileLoop (decides_ofExpr laid condition around conditionCovers)
        (decides_ofExpr laid body around bodyCovers)
  | .forLoop _ counter low high step body, around, covers => by
      obtain ⟨upToStep, bodyCovers⟩ := Covers.append.mp covers
      obtain ⟨upToHigh, stepCovers⟩ := Covers.append.mp upToStep
      obtain ⟨upToLow, highCovers⟩ := Covers.append.mp upToHigh
      obtain ⟨counterCovers, lowCovers⟩ := Covers.append.mp upToLow
      exact decides_forLoop (decides_ofExpr laid counter around counterCovers)
        (decides_ofExpr laid low around lowCovers) (decides_ofExpr laid high around highCovers)
        (decides_ofExpr laid step around stepCovers) (decides_ofExpr laid body around bodyCovers)
  | .whereIn _ definitions inner, around, covers => by
      obtain ⟨definitionsCover, innerCovers⟩ := Covers.append.mp covers
      exact decides_whereIn (decides_ofDefs laid definitions around definitionsCover)
        (decides_ofExpr laid inner around innerCovers)

theorem decides_ofExprs (laid : program.LaidOut table labels) :
    (expressions : List Source.Expr) → (around : List NodeId) →
    Covers table (Source.Expr.contentsOfList around expressions) →
    DecidesExprs program table around.length expressions
  | [], _, _ => .pure ⟨.nil, by simp⟩
  | expression :: rest, around, covers => by
      obtain ⟨headCovers, restCovers⟩ := Covers.append.mp covers
      refine .bind_code (decides_ofExpr laid expression around headCovers)
        (fun problem no why => ?_) ?_
      · refine ⟨by simp [no], why.mono ?_⟩
        simp [Source.Expr.partsOfList]
      rintro head headNew ⟨headMatches, headAccepted⟩
      refine ((decides_ofExprs laid rest around restCovers).weaken fun problem no => ?_).bind ?_
      · refine ⟨by simp [no.1], no.2.mono ?_⟩
        simp [Source.Expr.partsOfList]
      rintro others othersNew ⟨othersMatch, othersAccepted⟩
      refine .pure ⟨.cons headMatches othersMatch, ?_⟩
      simp only [Source.Expr.areWellFormed, Bool.and_eq_true, headAccepted, othersAccepted,
        List.forall_mem_cons, areFlattenable_append, areFlattenable_nil, and_true]
      exact iff_of_eq (by ac_rfl)

theorem decides_ofArguments (laid : program.LaidOut table labels) :
    (expressions : List Source.Expr) → (around : List NodeId) →
    Covers table (Source.Expr.contentsOfList around expressions) →
    DecidesArguments program table around.length expressions
  | [], _, _ => .pure ⟨rfl, by simp [IR.Expr.areFlattenable]⟩
  | expression :: rest, around, covers => by
      obtain ⟨headCovers, restCovers⟩ := Covers.append.mp covers
      refine .bind_value (decides_ofExpr laid expression around headCovers)
        (fun problem no why => ?_) ?_
      · refine ⟨?_, why.mono (by simp [Source.Expr.partsOfList])⟩
        rw [Bool.and_eq_false_iff] at no
        rcases no with no | no <;> simp [no]
      rintro head headNew ⟨headIsValue, -, headAccepted⟩
      refine ((decides_ofArguments laid rest around restCovers).weaken fun problem no => ?_).bind ?_
      · refine ⟨?_, no.2.mono (by simp [Source.Expr.partsOfList])⟩
        have no := no.1
        rw [Bool.and_eq_false_iff] at no
        rcases no with no | no <;> simp [no]
      rintro others othersNew ⟨othersAreValues, othersAccepted⟩
      refine .pure ⟨by rw [List.all_cons, headIsValue, othersAreValues]; rfl, ?_⟩
      simp only [Source.Expr.areWellFormed, IR.Expr.areFlattenable, Bool.and_eq_true, headAccepted,
        othersAccepted, areFlattenable_append, areFlattenable_nil, and_true]
      exact iff_of_eq (by ac_rfl)

theorem decides_ofDef (laid : program.LaidOut table labels) : (definition : Def) →
    (around : List NodeId) → Covers table (definition.contents around) →
    Decides (ofDef ⟨program.resolution, table⟩ around.length definition)
      (fun problem => definition.isWellFormed program around.length = false ∧
        Explained definition.parts problem)
      fun _ new => (definition.isWellFormed program around.length = true ↔ AreFlattenable new)
  | .function node name parameters body, around, covers => by
      have found := covers.functions ⟨node, name, parameters, body, around⟩ (List.mem_cons_self ..)
      refine .bind_value (decides_ofExpr laid body (node.id :: around) covers.inside)
        (fun problem no why => ⟨no, why⟩) ?_
      rintro result new ⟨isValue, -, accepted⟩
      refine .bind_require (fun missing => ?_) fun frame _ => ?_
      · rw [missing] at found
        cases found
      refine (decides_emit _).mono (fun _ => id) ?_
      rintro _ _ rfl
      simpa [isValue, AreFlattenable, Flattening.isFlattenable, isFlattenable_functionBody, or_imp,
        forall_and, and_comm] using accepted
  | .var node name, around, covers => by
      have found := covers.storages node.id (by simp [Contents.ownedIds, Def.contents])
      refine .bind_require (fun missing => ?_) fun storage _ => ?_
      · rw [missing] at found
        cases found
      cases storage with
      | global slot =>
          refine (decides_emit _).mono (fun _ => id) ?_
          rintro _ _ rfl
          simp [AreFlattenable, Flattening.isFlattenable]
      | localVar _ | parameter _ => exact .pure (by simp)
  | .typeAlias .., _, _ => .pure (by simp)

theorem decides_ofDefs (laid : program.LaidOut table labels) : (definitions : List Def) →
    (around : List NodeId) → Covers table (Def.contentsOfList around definitions) →
    DecidesDefs program table around.length definitions
  | [], _, _ => .pure (by simp)
  | definition :: rest, around, covers => by
      obtain ⟨headCovers, restCovers⟩ := Covers.append.mp covers
      refine ((decides_ofDef laid definition around headCovers).weaken fun problem no => ?_).bind ?_
      · refine ⟨by simp [no.1], no.2.mono ?_⟩
        simp [Def.partsOfList]
      rintro ⟨⟩ headNew headAccepted
      refine (decides_ofDefs laid rest around restCovers).mono (fun problem no => ?_)
        fun _ othersNew othersAccepted => ?_
      · refine ⟨by simp [no.1], no.2.mono ?_⟩
        simp [Def.partsOfList]
      · simp only [Def.areWellFormed, Bool.and_eq_true, headAccepted, othersAccepted,
          areFlattenable_append]

end

end Trees

end TreeBackend.Lowering
