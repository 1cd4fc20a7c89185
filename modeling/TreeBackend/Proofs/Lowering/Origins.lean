import Mathlib.Order.Nat
import TreeBackend.Proofs.Lowering.Inversion
import TreeBackend.Proofs.Source.Origins

/-!
# What chunks are made of

Lowering finishes one chunk for each thing that the walk over a program finds, in the same
order, and no others.  The chunk of a function has its frame and its lowered body.  Among the
values in this body are the labels of string constants: those that stand in the function itself,
in their order.
-/

namespace TreeBackend

/-! ### Numbered labels as values -/

namespace IR

mutual

def Expr.numbers : Expr → List Nat
  | .name (.anonymous number) => [number]
  | .name (.named _) | .const _ | .temp _ => []
  | .mem address => address.numbers
  | .binop _ left right => left.numbers ++ right.numbers
  | .call _ arguments => Expr.numbersOfList arguments
  | .eseq effect value => effect.numbers ++ value.numbers

def Expr.numbersOfList : List Expr → List Nat
  | [] => []
  | expression :: rest => expression.numbers ++ Expr.numbersOfList rest

def Stmt.numbers : Stmt → List Nat
  | .seq items => Stmt.numbersOfList items
  | .label _ | .jump _ => []
  | .cjump condition _ _ => condition.numbers
  | .exp value => value.numbers
  | .move target source => target.numbers ++ source.numbers

def Stmt.numbersOfList : List Stmt → List Nat
  | [] => []
  | statement :: rest => statement.numbers ++ Stmt.numbersOfList rest

end

def Chunk.numbers : Chunk → List Nat
  | .code _ body => body.numbers
  | .data .. | .global _ => []

/-- The number of the label of a string constant. -/
def Chunk.textNumber? : Chunk → Option Nat
  | .data ⟨_, .anonymous number⟩ _ => some number
  | .data ⟨_, .named _⟩ _ | .code .. | .global _ => none

end IR

/-- What is new in a list is left if its beginning is cut off. -/
theorem eraseDups_append_of_disjoint {α : Type} [BEq α] [LawfulBEq α] {first second : List α}
    (disjoint : first.Disjoint second) :
    (first ++ second).eraseDups = first.eraseDups ++ second.eraseDups := by
  rw [List.eraseDups_append, List.removeAll, List.filter_eq_self.mpr]
  intro member isSecond
  simpa using fun isFirst => disjoint isFirst isSecond

theorem eraseDups_append_of_subset {α : Type} [BEq α] [LawfulBEq α] {first second : List α}
    (includes : second ⊆ first) : (first ++ second).eraseDups = first.eraseDups := by
  have nothing : second.removeAll first = [] := by
    rw [List.removeAll, List.filter_eq_nil_iff]
    intro member isSecond
    simpa using includes isSecond
  rw [List.eraseDups_append, nothing]
  simp

namespace Lowering

open Source
open IR (Chunk Stmt)

attribute [local simp] IR.Expr.numbers IR.Expr.numbersOfList Stmt.numbers Stmt.numbersOfList

section Constructs

theorem enclosingFrame_numbers (hops : Nat) : (enclosingFrame hops).numbers = [] := by
  induction hops with
  | zero => rfl
  | succ hops ih => exact ih

theorem staticLink_numbers (level calleeLevel : Nat) :
    (staticLink level calleeLevel).numbers = [] := by
  unfold staticLink
  split
  · rfl
  · split
    · rfl
    · exact enclosingFrame_numbers _

/-- Global variables go by their names. -/
def NamesGlobals (frames : FrameTable) : Prop :=
  ∀ definition slot, frames.storage? definition = some (.global slot) →
    ∃ name, slot.label = .named name

theorem cell?_numbers {frames : FrameTable} (named : NamesGlobals frames) {definition : NodeId}
    {storage : Storage} (found : frames.storage? definition = some storage) {level : Nat}
    {value : IR.Expr} (cell : cell? level storage = some value) : value.numbers = [] := by
  have stack : ∀ slot, stackCell? level slot = some value → value.numbers = [] := by
    intro slot cell
    unfold stackCell? at cell
    split at cell
    · obtain rfl := Option.some_inj.mp cell
      simp [enclosingFrame_numbers]
    · cases cell
  cases storage with
  | global slot =>
      obtain ⟨name, isNamed⟩ := named _ _ found
      obtain rfl := Option.some_inj.mp cell
      rw [isNamed]
      rfl
  | localVar slot | parameter slot => exact stack slot cell

theorem unary_numbers (operator : UnaryOperator) (operand : IR.Expr) :
    (unary operator operand).numbers = operand.numbers := by
  cases operator <;> simp [unary]

theorem baseAddress_numbers (value : IR.Expr) : (baseAddress value).numbers = value.numbers := by
  cases value <;> rfl

theorem savePointer_numbers (offset : Option Int) : (savePointer offset).numbers = [] := by
  cases offset <;> rfl

theorem call_numbers (level : Nat) (callee : Callee) (arguments : List IR.Expr) :
    (call level callee arguments).numbers = IR.Expr.numbersOfList arguments := by
  simp [call, savePointer_numbers, staticLink_numbers]

theorem toStmt_numbers (value : IR.Expr) :
    (Lowered.expr value).toStmt.numbers = value.numbers := by
  simp [Lowered.toStmt]

/-- The items of a block, the last one of which gives the value. -/
theorem block_numbers (front : List Lowered) (last : IR.Expr) :
    (IR.Expr.eseq (.seq (front.map Lowered.toStmt)) last).numbers =
      Stmt.numbersOfList ((front ++ [Lowered.expr last]).map Lowered.toStmt) := by
  simp only [IR.Expr.numbers, Stmt.numbers]
  induction front with
  | nil => simp [toStmt_numbers]
  | cons part rest ih => simp [ih]

/-- An operator mentions what its operands mention.  An assignment may mention its target twice. -/
theorem ofBinary_numbers {context : LoweringContext} {node : Node} {operator : BinaryOperator}
    {left right value : IR.Expr} {state final : LoweringState}
    (lowered : ofBinary context node operator left right state = .ok value final) :
    value.numbers.eraseDups = (left.numbers ++ right.numbers).eraseDups ∧
      final.chunks = state.chunks ∧ final.labels = state.labels := by
  have twice (target : IR.Expr) : (assignment target right).numbers.eraseDups =
      (target.numbers ++ right.numbers).eraseDups := by
    simp only [assignment, IR.Expr.numbers, Stmt.numbers]
    exact eraseDups_append_of_subset (List.subset_append_left ..)
  cases operator with
  | compute operator =>
      obtain ⟨rfl, rfl⟩ := Outcome.pure_eq_ok.mp lowered
      exact ⟨rfl, rfl, rfl⟩
  | index =>
      obtain ⟨_, -, rfl, rfl⟩ := ofBinary_index_eq_ok.mp lowered
      simp [elementCell, baseAddress_numbers]
  | assign =>
      cases left with
      | mem address =>
          rw [ofBinary_assign_mem_eq_ok] at lowered
          split at lowered
          · obtain ⟨rfl, rfl⟩ := lowered
            exact ⟨twice _, rfl, rfl⟩
          · obtain ⟨rfl, rfl⟩ := lowered
            simp [assignmentOnce, LoweringState.afterTemp]
      | const | name | temp | binop | call | eseq =>
          obtain ⟨rfl, rfl⟩ := Outcome.pure_eq_ok.mp lowered
          exact ⟨twice _, rfl, rfl⟩

end Constructs

/-! ### Origins and chunks -/

inductive Makes (context : LoweringContext) : Origin → Chunk → Prop where
  | function {function : Function} {start middle : LoweringState} {value : IR.Expr} {frame : Frame}
      (lowered : ofExpr context function.depth function.body start = .ok (.expr value) middle)
      (found : context.frames.frame? function.node.id = some frame) :
      Makes context (.function function) (.code frame (functionBody value))
  | text {around : List NodeId} {text : String} {number : Nat} :
      Makes context (.text around text) (.data ⟨Word.size, .anonymous number⟩ text)
  | global {owned : Variable} {slot : GlobalSlot}
      (found : context.frames.storage? owned.node.id = some (.global slot)) :
      Makes context (.global owned) (.global slot)

abbrev Made := List (Origin × Chunk)

namespace Made

/-- The numbers of the labels of all string constants. -/
def textNumbers (made : Made) : List Nat := made.filterMap (·.2.textNumber?)

/-- The numbers of the labels of the string constants that stand in certain functions. -/
def numbersIn (around : List NodeId) (made : Made) : List Nat :=
  textNumbers (made.filter (·.1.isTextIn around))

/-- A function comes after what chunks are made for within it, and among the values in its code
are the labels of its own string constants, in their order. -/
def Closes (made : Made) (function : Function) (chunk : Chunk) : Prop :=
  ∃ before inner after, made = before ++ inner ++ (.function function, chunk) :: after ∧
    inner.map Prod.fst = function.origins ∧
    chunk.numbers.eraseDups = numbersIn (function.node.id :: function.around) inner

section Numbers

variable {first second : Made} {around : List NodeId}

@[simp] theorem textNumbers_append :
    (first ++ second).textNumbers = first.textNumbers ++ second.textNumbers :=
  List.filterMap_append

@[simp] theorem numbersIn_append :
    (first ++ second).numbersIn around = first.numbersIn around ++ second.numbersIn around := by
  simp [numbersIn, List.filter_append]

theorem numbersIn_subset : first.numbersIn around ⊆ first.textNumbers := by
  intro number member
  obtain ⟨pair, isThere, found⟩ := List.mem_filterMap.mp member
  exact List.mem_filterMap.mpr ⟨pair, (List.mem_filter.mp isThere).1, found⟩

theorem Closes.append_left {function : Function} {chunk : Chunk}
    (closes : second.Closes function chunk) : (first ++ second).Closes function chunk := by
  obtain ⟨before, inner, after, rfl, same, mentions⟩ := closes
  exact ⟨first ++ before, inner, after, by simp, same, mentions⟩

theorem Closes.append_right {function : Function} {chunk : Chunk}
    (closes : first.Closes function chunk) : (first ++ second).Closes function chunk := by
  obtain ⟨before, inner, after, rfl, same, mentions⟩ := closes
  exact ⟨before, inner, after ++ second, by simp, same, mentions⟩

end Numbers

end Made

/-- Between two states the chunks for certain origins are finished, in a part of a program that
stands in certain functions.  Certain numbered labels are values in the code of the part. -/
structure Finishes (context : LoweringContext) (around : List NodeId)
    (state final : LoweringState) (origins : List Origin) (numbers : List Nat) (made : Made) :
    Prop where
  listed : made.map Prod.fst = origins
  chunks : final.chunks = state.chunks ++ made.map Prod.snd
  makes : ∀ pair ∈ made, Makes context pair.1 pair.2
  closes : ∀ function chunk, (.function function, chunk) ∈ made → made.Closes function chunk
  issued : state.labels.issued ≤ final.labels.issued
  drawn : ∀ number ∈ made.textNumbers,
    state.labels.issued ≤ number ∧ number < final.labels.issued
  once : made.textNumbers.Nodup
  mentions : numbers.eraseDups = made.numbersIn around

namespace Finishes

variable {context : LoweringContext} {around : List NodeId} {state middle final : LoweringState}
  {origins others : List Origin} {numbers moreNumbers : List Nat} {made more : Made}

/-- A part for which nothing is made may draw labels. -/
theorem none (issued : state.labels.issued ≤ final.labels.issued)
    (same : final.chunks = state.chunks) : Finishes context around state final [] [] [] where
  listed := rfl
  chunks := by simp [same]
  makes := by simp
  closes := by simp
  issued := issued
  drawn := by simp [Made.textNumbers]
  once := .nil
  mentions := rfl

theorem append (first : Finishes context around state middle origins numbers made)
    (second : Finishes context around middle final others moreNumbers more) :
    Finishes context around state final (origins ++ others) (numbers ++ moreNumbers)
      (made ++ more) where
  listed := by rw [List.map_append, first.listed, second.listed]
  chunks := by rw [second.chunks, first.chunks, List.map_append, List.append_assoc]
  makes := List.forall_mem_append.mpr ⟨first.makes, second.makes⟩
  closes function chunk member := by
    rcases List.mem_append.mp member with member | member
    · exact (first.closes function chunk member).append_right
    · exact (second.closes function chunk member).append_left
  issued := first.issued.trans second.issued
  drawn number member := by
    rw [Made.textNumbers_append, List.mem_append] at member
    rcases member with member | member
    · obtain ⟨above, below⟩ := first.drawn number member
      exact ⟨above, below.trans_le second.issued⟩
    · obtain ⟨above, below⟩ := second.drawn number member
      exact ⟨first.issued.trans above, below⟩
  once := by
    rw [Made.textNumbers_append]
    refine List.nodup_append'.mpr ⟨first.once, second.once, fun number isFirst isSecond => ?_⟩
    have below := (first.drawn number isFirst).2
    have above := (second.drawn number isSecond).1
    omega
  mentions := by
    have disjoint : numbers.Disjoint moreNumbers := by
      intro number isFirst isSecond
      rw [← List.mem_eraseDups, first.mentions] at isFirst
      rw [← List.mem_eraseDups, second.mentions] at isSecond
      have below := (first.drawn number (Made.numbersIn_subset isFirst)).2
      have above := (second.drawn number (Made.numbersIn_subset isSecond)).1
      omega
    rw [eraseDups_append_of_disjoint disjoint, first.mentions, second.mentions,
      Made.numbersIn_append]

/-- It does not matter how often a label is a value, nor whether more labels are drawn. -/
theorem behind (finishes : Finishes context around state middle origins numbers made)
    (issued : middle.labels.issued ≤ final.labels.issued) (same : final.chunks = middle.chunks)
    (mentions : moreNumbers.eraseDups = numbers.eraseDups) :
    Finishes context around state final origins moreNumbers made where
  listed := finishes.listed
  chunks := same.trans finishes.chunks
  makes := finishes.makes
  closes := finishes.closes
  issued := finishes.issued.trans issued
  drawn number member := by
    obtain ⟨above, below⟩ := finishes.drawn number member
    exact ⟨above, below.trans_le issued⟩
  once := finishes.once
  mentions := mentions.trans finishes.mentions

/-- The label of a string constant is its value. -/
theorem text (text : String) : Finishes context around state
    (state.afterLabel.withChunk (.data ⟨Word.size, state.labels.next⟩ text)) [.text around text]
    [state.labels.issued]
    [(.text around text, .data ⟨Word.size, state.labels.next⟩ text)] where
  listed := rfl
  chunks := rfl
  makes := by
    intro pair member
    obtain rfl := List.mem_singleton.mp member
    exact .text
  closes := by simp
  issued := Nat.le_succ _
  drawn number member := by
    obtain rfl : number = state.labels.issued := by
      simpa [Made.textNumbers, Chunk.textNumber?, LabelSupply.next] using member
    exact ⟨Nat.le_refl _, Nat.lt_succ_self _⟩
  once := List.nodup_singleton _
  mentions := by
    simp [Made.numbersIn, Made.textNumbers, Chunk.textNumber?, LabelSupply.next, Origin.isTextIn,
      List.eraseDups_cons]

theorem function {function : Function} {value : IR.Expr} {frame : Frame}
    (finishes : Finishes context (function.node.id :: function.around) state middle
      function.origins value.numbers made)
    (lowered : ofExpr context function.depth function.body state = .ok (.expr value) middle)
    (found : context.frames.frame? function.node.id = some frame) :
    Finishes context function.around state (middle.withChunk (.code frame (functionBody value)))
      (function.origins ++ [.function function]) []
      (made ++ [(.function function, .code frame (functionBody value))]) where
  listed := by simp [finishes.listed]
  chunks := by simp [LoweringState.withChunk, finishes.chunks]
  makes := by
    refine List.forall_mem_append.mpr ⟨finishes.makes, fun pair member => ?_⟩
    obtain rfl := List.mem_singleton.mp member
    exact .function lowered found
  closes other chunk member := by
    rcases List.mem_append.mp member with member | member
    · exact (finishes.closes other chunk member).append_right
    · obtain ⟨same, rfl⟩ := Prod.mk.inj (List.mem_singleton.mp member)
      obtain rfl := Origin.function.inj same
      exact ⟨[], made, [], rfl, finishes.listed, finishes.mentions⟩
  issued := finishes.issued
  drawn number member := by
    rw [Made.textNumbers_append, List.mem_append] at member
    rcases member with member | member
    · exact finishes.drawn number member
    · simp [Made.textNumbers, Chunk.textNumber?] at member
  once := by simpa [Made.textNumbers, Chunk.textNumber?] using finishes.once
  mentions := by
    -- What stands in the function does not stand directly around it.
    have nothing : ∀ pair ∈ made, pair.1.isTextIn function.around = false := by
      rintro ⟨origin, chunk⟩ member
      have inner : origin ∈ function.origins :=
        finishes.listed ▸ List.mem_map.mpr ⟨_, member, rfl⟩
      have deep := (Function.suffix_of_mem_origins inner).length_le
      cases origin with
      | function | global => rfl
      | text here text =>
          refine decide_eq_false fun same => ?_
          rw [Origin.around, same, List.length_cons] at deep
          omega
    rw [Made.numbersIn_append, Made.numbersIn,
      List.filter_eq_nil_iff.mpr fun pair member => by simp [nothing pair member]]
    rfl

theorem global {owned : Variable} {slot : GlobalSlot}
    (found : context.frames.storage? owned.node.id = some (.global slot)) :
    Finishes context around state (state.withChunk (.global slot)) [.global owned] []
      [(.global owned, .global slot)] where
  listed := rfl
  chunks := rfl
  makes := by
    intro pair member
    obtain rfl := List.mem_singleton.mp member
    exact .global found
  closes := by simp
  issued := Nat.le_refl _
  drawn := by simp [Made.textNumbers, Chunk.textNumber?]
  once := .nil
  mentions := rfl

end Finishes

/-! ### Trees -/

/-- In a part of a program that stands in certain functions, the variables outside all functions
are global, and no others. -/
structure GlobalsOutermost (frames : FrameTable) (around : List NodeId) (contents : Contents) :
    Prop where
  direct : ∀ owned ∈ contents.locals,
    around = [] ↔ ∃ slot, frames.storage? owned.node.id = some (.global slot)
  nested : ∀ function ∈ contents.functions, ∀ owned ∈ function.contents.locals, ∀ slot,
    frames.storage? owned.node.id ≠ some (.global slot)

namespace GlobalsOutermost

variable {frames : FrameTable} {around : List NodeId} {first second : Contents}

theorem left (outermost : GlobalsOutermost frames around (first ++ second)) :
    GlobalsOutermost frames around first where
  direct owned member := outermost.direct owned (List.mem_append_left _ member)
  nested function member := outermost.nested function (List.mem_append_left _ member)

theorem right (outermost : GlobalsOutermost frames around (first ++ second)) :
    GlobalsOutermost frames around second where
  direct owned member := outermost.direct owned (List.mem_append_right _ member)
  nested function member := outermost.nested function (List.mem_append_right _ member)

theorem body {node : Node} {name : String} {parameters : List Parameter} {body : Source.Expr}
    (outermost : GlobalsOutermost frames around
      ((Def.function node name parameters body).contents around)) :
    GlobalsOutermost frames (node.id :: around) (body.contents (node.id :: around)) where
  direct owned member := by
    have noGlobal := outermost.nested _ (List.mem_cons_self ..) owned member
    simpa using noGlobal
  nested function member := outermost.nested function (List.mem_cons_of_mem _ member)

end GlobalsOutermost

section Trees

variable {context : LoweringContext}

mutual

theorem ofExpr_finishes (named : NamesGlobals context.frames) : (expression : Source.Expr) →
    (around : List NodeId) → {state final : LoweringState} → {code : Lowered} →
    GlobalsOutermost context.frames around (expression.contents around) →
    ofExpr context around.length expression state = .ok code final →
    ∃ made, Finishes context around state final (expression.origins around) code.toStmt.numbers made
  | .literal _ (.int _), _, _, _, _, _, lowered => by
      obtain ⟨rfl, rfl⟩ := ofExpr_int_eq_ok.mp lowered
      exact ⟨_, .none (Nat.le_refl _) rfl⟩
  | .literal _ (.log _), _, _, _, _, _, lowered => by
      obtain ⟨rfl, rfl⟩ := ofExpr_log_eq_ok.mp lowered
      exact ⟨_, .none (Nat.le_refl _) rfl⟩
  | .literal _ (.str text), _, _, _, _, _, lowered => by
      obtain ⟨rfl, rfl⟩ := ofExpr_str_eq_ok.mp lowered
      exact ⟨_, .text text⟩
  | .name .., _, _, _, _, _, lowered => by
      obtain ⟨_, _, _, -, found, cell, rfl, rfl⟩ := ofExpr_name_eq_ok.mp lowered
      rw [toStmt_numbers, cell?_numbers named found cell]
      exact ⟨_, .none (Nat.le_refl _) rfl⟩
  | .unary _ operator operand, around, _, _, _, outermost, lowered => by
      obtain ⟨value, operandLowered, rfl⟩ := ofExpr_unary_eq_ok.mp lowered
      obtain ⟨made, finishes⟩ := ofExpr_finishes named operand around outermost operandLowered
      rw [toStmt_numbers] at finishes ⊢
      rw [unary_numbers]
      exact ⟨made, finishes⟩
  | .binary _ _ left right, around, _, _, _, outermost, lowered => by
      obtain ⟨_, _, _, last, _, leftLowered, rightLowered, built, rfl⟩ :=
        ofExpr_binary_eq_ok.mp lowered
      obtain ⟨_, first⟩ := ofExpr_finishes named left around outermost.left leftLowered
      obtain ⟨_, second⟩ := ofExpr_finishes named right around outermost.right rightLowered
      obtain ⟨mentions, sameChunks, sameLabels⟩ := ofBinary_numbers built
      rw [toStmt_numbers] at first second ⊢
      exact ⟨_, (first.append second).behind (by rw [sameLabels]) sameChunks mentions⟩
  | .call _ _ arguments, around, _, _, _, outermost, lowered => by
      obtain ⟨_, _, -, argumentsLowered, rfl⟩ := ofExpr_call_eq_ok.mp lowered
      rw [toStmt_numbers, call_numbers]
      exact ofArguments_finishes named arguments around outermost.right argumentsLowered
  | .block _ items, around, _, _, _, outermost, lowered => by
      obtain ⟨_, _, itemsLowered, rfl⟩ := ofExpr_block_eq_ok.mp lowered
      rw [toStmt_numbers, block_numbers]
      exact ofExprs_finishes named items around outermost itemsLowered
  | .ifThen _ condition thenBranch, around, _, _, _, outermost, lowered => by
      obtain ⟨_, _, _, last, tests, branches, rfl, rfl⟩ := ofExpr_ifThen_eq_ok.mp lowered
      obtain ⟨_, first⟩ := ofExpr_finishes named condition around outermost.left tests
      obtain ⟨_, second⟩ := ofExpr_finishes named thenBranch around outermost.right branches
      rw [toStmt_numbers] at first
      refine ⟨_, (first.append second).behind (Nat.le_add_right _ 3) rfl ?_⟩
      simp [Lowered.toStmt, ifThen]
  | .ifThenElse _ condition thenBranch elseBranch, around, _, _, _, outermost, lowered => by
      obtain ⟨_, _, _, _, _, last, tests, branches, others, rfl, rfl⟩ :=
        ofExpr_ifThenElse_eq_ok.mp lowered
      obtain ⟨_, first⟩ := ofExpr_finishes named condition around outermost.left.left tests
      obtain ⟨_, second⟩ := ofExpr_finishes named thenBranch around outermost.left.right branches
      obtain ⟨_, third⟩ := ofExpr_finishes named elseBranch around outermost.right others
      rw [toStmt_numbers] at first
      refine ⟨_, ((first.append second).append third).behind (Nat.le_add_right _ 3) rfl ?_⟩
      simp [Lowered.toStmt, ifThenElse]
  | .whileLoop _ condition body, around, _, _, _, outermost, lowered => by
      obtain ⟨_, _, _, last, tests, bodied, rfl, rfl⟩ := ofExpr_whileLoop_eq_ok.mp lowered
      obtain ⟨_, first⟩ := ofExpr_finishes named condition around outermost.left tests
      obtain ⟨_, second⟩ := ofExpr_finishes named body around outermost.right bodied
      rw [toStmt_numbers] at first
      refine ⟨_, (first.append second).behind (Nat.le_add_right _ 3) rfl ?_⟩
      simp [Lowered.toStmt, whileLoop]
  | .forLoop _ counter low high step body, around, _, _, _, outermost, lowered => by
      obtain ⟨_, _, cell, _, _, _, _, _, _, _, last, rfl, counted, lows, highs, steps, bodied, rfl,
        rfl⟩ := ofExpr_forLoop_eq_ok.mp lowered
      obtain ⟨_, _, -, found, reached, -⟩ := ofName_eq_ok.mp counted
      obtain ⟨_, first⟩ := ofExpr_finishes named low around outermost.left.left.left.right lows
      obtain ⟨_, second⟩ := ofExpr_finishes named high around outermost.left.left.right highs
      obtain ⟨_, third⟩ := ofExpr_finishes named step around outermost.left.right steps
      obtain ⟨_, fourth⟩ := ofExpr_finishes named body around outermost.right bodied
      rw [toStmt_numbers] at first second third
      refine ⟨_, (((first.append second).append third).append fourth).behind
        (Nat.le_add_right _ 3) rfl ?_⟩
      simp [Lowered.toStmt, forLoop, cell?_numbers named found reached]
  | .whereIn _ definitions inner, around, _, _, _, outermost, lowered => by
      obtain ⟨_, _, defined, innerLowered, rfl⟩ := ofExpr_whereIn_eq_ok.mp lowered
      obtain ⟨_, first⟩ := ofDefs_finishes named definitions around outermost.left defined
      obtain ⟨_, second⟩ := ofExpr_finishes named inner around outermost.right innerLowered
      exact ⟨_, first.append second⟩

theorem ofExprs_finishes (named : NamesGlobals context.frames) :
    (expressions : List Source.Expr) → (around : List NodeId) →
    {state final : LoweringState} → {parts : List Lowered} →
    GlobalsOutermost context.frames around (Source.Expr.contentsOfList around expressions) →
    ofExprs context around.length expressions state = .ok parts final →
    ∃ made, Finishes context around state final (Source.Expr.originsOfList around expressions)
      (Stmt.numbersOfList (parts.map Lowered.toStmt)) made
  | [], _, _, _, _, _, lowered => by
      obtain ⟨rfl, rfl⟩ := ofExprs_nil_eq_ok.mp lowered
      exact ⟨_, .none (Nat.le_refl _) rfl⟩
  | expression :: others, around, _, _, _, outermost, lowered => by
      obtain ⟨_, _, _, first, rest, rfl⟩ := ofExprs_cons_eq_ok.mp lowered
      obtain ⟨_, firstFinishes⟩ := ofExpr_finishes named expression around outermost.left first
      obtain ⟨_, restFinish⟩ := ofExprs_finishes named others around outermost.right rest
      exact ⟨_, firstFinishes.append restFinish⟩

theorem ofArguments_finishes (named : NamesGlobals context.frames) :
    (expressions : List Source.Expr) → (around : List NodeId) →
    {state final : LoweringState} → {values : List IR.Expr} →
    GlobalsOutermost context.frames around (Source.Expr.contentsOfList around expressions) →
    ofArguments context around.length expressions state = .ok values final →
    ∃ made, Finishes context around state final (Source.Expr.originsOfList around expressions)
      (IR.Expr.numbersOfList values) made
  | [], _, _, _, _, _, lowered => by
      obtain ⟨rfl, rfl⟩ := ofArguments_nil_eq_ok.mp lowered
      exact ⟨_, .none (Nat.le_refl _) rfl⟩
  | expression :: others, around, _, _, _, outermost, lowered => by
      obtain ⟨_, _, _, first, rest, rfl⟩ := ofArguments_cons_eq_ok.mp lowered
      obtain ⟨_, firstFinishes⟩ := ofExpr_finishes named expression around outermost.left first
      obtain ⟨_, restFinish⟩ := ofArguments_finishes named others around outermost.right rest
      rw [toStmt_numbers] at firstFinishes
      exact ⟨_, firstFinishes.append restFinish⟩

theorem ofDef_finishes (named : NamesGlobals context.frames) : (definition : Def) →
    (around : List NodeId) → {state final : LoweringState} →
    GlobalsOutermost context.frames around (definition.contents around) →
    ofDef context around.length definition state = .ok () final →
    ∃ made, Finishes context around state final (definition.origins around) [] made
  | .function node name parameters body, around, _, _, outermost, lowered => by
      obtain ⟨value, _, _, bodyLowered, found, rfl⟩ := ofDef_function_eq_ok.mp lowered
      obtain ⟨_, finishes⟩ :=
        ofExpr_finishes named body (node.id :: around) outermost.body bodyLowered
      rw [toStmt_numbers] at finishes
      exact ⟨_, @Finishes.function _ _ _ _ ⟨node, name, parameters, body, around⟩ _ _ finishes
        bodyLowered found⟩
  | .var node name, around, _, _, outermost, lowered => by
      obtain ⟨storage, found, rfl⟩ := ofDef_var_eq_ok.mp lowered
      have isOutside := outermost.direct ⟨node, name⟩ (List.mem_singleton_self _)
      rw [Def.origins]
      cases storage with
      | global slot =>
          rw [if_pos (isOutside.mpr ⟨slot, found⟩)]
          exact ⟨_, .global found⟩
      | localVar _ | parameter _ =>
          rw [if_neg fun outside => by simpa [found] using isOutside.mp outside]
          exact ⟨_, .none (Nat.le_refl _) rfl⟩
  | .typeAlias .., _, _, _, _, lowered => by
      obtain rfl := ofDef_typeAlias_eq_ok.mp lowered
      exact ⟨_, .none (Nat.le_refl _) rfl⟩

theorem ofDefs_finishes (named : NamesGlobals context.frames) : (definitions : List Def) →
    (around : List NodeId) → {state final : LoweringState} →
    GlobalsOutermost context.frames around (Def.contentsOfList around definitions) →
    ofDefs context around.length definitions state = .ok () final →
    ∃ made, Finishes context around state final (Def.originsOfList around definitions) [] made
  | [], _, _, _, _, lowered => by
      obtain rfl := ofDefs_nil_eq_ok.mp lowered
      exact ⟨_, .none (Nat.le_refl _) rfl⟩
  | definition :: others, around, _, _, outermost, lowered => by
      obtain ⟨_, first, rest⟩ := ofDefs_cons_eq_ok.mp lowered
      obtain ⟨_, firstFinishes⟩ := ofDef_finishes named definition around outermost.left first
      obtain ⟨_, restFinish⟩ := ofDefs_finishes named others around outermost.right rest
      exact ⟨_, firstFinishes.append restFinish⟩

end

end Trees

end Lowering

end TreeBackend
