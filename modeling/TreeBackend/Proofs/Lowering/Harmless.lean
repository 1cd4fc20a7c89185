import TreeBackend.Proofs.Flattening.Harmless
import TreeBackend.Proofs.Lowering.Emission

/-!
# Lowered code is harmless

A machine that knows the two pointers, the global variables and the string
constants can run whatever lowering makes of a program whose assignments go to
references.  The only temporaries in lowered code are those of an assignment and
of a counting loop, and both are given their values first.
-/

namespace TreeBackend.Lowering

open Source
open Machine (Offer SafeExpr SafeStmt)
open IR (Stmt Chunk Temp)

/-- A machine knows the two pointers and the global variables of a program. -/
structure Serves (offer : Offer) (frames : FrameTable) : Prop where
  framePointer : .framePointer ∈ offer.known
  stackPointer : .stackPointer ∈ offer.known
  globals : ∀ definition slot, frames.storage? definition = some (.global slot) →
    slot.label ∈ offer.known

/-- A machine knows the string constants among some chunks. -/
def KnowsTexts (offer : Offer) (chunks : List Chunk) : Prop :=
  ∀ slot text, .data slot text ∈ chunks → slot.label ∈ offer.known

theorem KnowsTexts.before {offer : Offer} {state final : LoweringState}
    (knows : KnowsTexts offer final.chunks) (precedes : state.Precedes final) :
    KnowsTexts offer state.chunks :=
  fun slot text isThere => knows slot text (precedes.chunks.mem isThere)

/-- The code of an expression is harmless. -/
def IsSafe (offer : Offer) : Lowered → Prop
  | .expr value => SafeExpr offer ∅ value
  | .stmt statement => SafeStmt offer ∅ statement ∅

section Constructs

variable {offer : Offer} {needs : Set Temp}

theorem IsSafe.toStmt {code : Lowered} (safe : IsSafe offer code) :
    SafeStmt offer ∅ code.toStmt ∅ := by
  cases code with
  | expr value => exact SafeStmt.exp safe
  | stmt statement => exact safe

theorem safe_enclosingFrame (known : .framePointer ∈ offer.known) (hops : Nat) :
    SafeExpr offer needs (enclosingFrame hops) := by
  induction hops with
  | zero => exact .name known
  | succ hops ih => exact .mem ih

theorem safe_staticLink (known : .framePointer ∈ offer.known) (level calleeLevel : Nat) :
    SafeExpr offer needs (staticLink level calleeLevel) := by
  unfold staticLink
  split
  · exact .const 0
  · split
    · exact .name known
    · exact safe_enclosingFrame known _

variable {frames : FrameTable}

theorem safe_cell? (serves : Serves offer frames) {level : Nat} {definition : NodeId}
    {storage : Storage} {value : IR.Expr} (found : frames.storage? definition = some storage)
    (cell : cell? level storage = some value) :
    ∃ address, value = .mem address ∧ SafeExpr offer ∅ address := by
  have stack : ∀ slot, stackCell? level slot = some value →
      ∃ address, value = .mem address ∧ SafeExpr offer ∅ address := by
    intro slot cell
    unfold stackCell? at cell
    split at cell
    · have frame : SafeExpr offer ∅ (enclosingFrame (level - slot.level)) :=
        safe_enclosingFrame serves.framePointer _
      exact ⟨_, (Option.some_inj.mp cell).symm, frame.binop (.const slot.offset)⟩
    · cases cell
  cases storage with
  | global slot =>
      exact ⟨_, (Option.some_inj.mp cell).symm, .name (serves.globals definition slot found)⟩
  | localVar slot | parameter slot => exact stack slot cell

theorem safe_unary {operand : IR.Expr} (safe : SafeExpr offer needs operand)
    (operator : UnaryOperator) : SafeExpr offer needs (unary operator operand) := by
  cases operator with
  | plus => exact safe
  | minus => exact .binop (.const 0) safe
  | not => exact .binop (.binop safe (.const 1)) (.const (-1))

/-- An element of an array is safe, whatever the array is given by. -/
theorem safe_elementCell {base index : IR.Expr} (baseSafe : SafeExpr offer needs base)
    (indexSafe : SafeExpr offer needs index) (elementSize : Int) :
    SafeExpr offer needs (elementCell base index elementSize) := by
  have address : SafeExpr offer needs (baseAddress base) := by
    unfold baseAddress
    split
    · exact baseSafe.of_mem
    · exact baseSafe
  exact .mem (.binop address (.binop indexSafe (.const elementSize)))

theorem safe_assignment {address value : IR.Expr} (addressSafe : SafeExpr offer needs address)
    (safe : SafeExpr offer needs value) :
    SafeExpr offer needs (assignment (.mem address) value) :=
  .eseq (.moveMem addressSafe safe) (addressSafe.mem.mono Set.subset_union_left)

theorem safe_assignmentOnce {address value : IR.Expr} (addressSafe : SafeExpr offer needs address)
    (safe : SafeExpr offer needs value) (temp : Temp) :
    SafeExpr offer needs (assignmentOnce address value temp) := by
  have kept : SafeExpr offer (needs ∪ {temp}) (.temp temp) := .temp (by simp)
  have stores : SafeStmt offer (needs ∪ {temp}) (.seq [.move (.mem (.temp temp)) value]) ∅ := by
    have alone := (SafeStmt.moveMem kept (safe.mono Set.subset_union_left)).cons .nil
    rwa [Set.union_empty] at alone
  have both := (SafeStmt.moveTemp temp addressSafe).cons stores
  rw [Set.union_empty] at both
  exact .eseq both kept.mem

theorem safe_savePointer (serves : Serves offer frames) (offset : Option Int) :
    SafeStmt offer needs (savePointer offset) ∅ := by
  cases offset with
  | none => exact .nil
  | some offset =>
      exact .moveMem (.binop (.name serves.stackPointer) (.const offset))
        (.name serves.framePointer)

theorem safe_call (serves : Serves offer frames) (level : Nat) (callee : Callee)
    {arguments : List IR.Expr} (safe : ∀ argument ∈ arguments, SafeExpr offer needs argument) :
    SafeExpr offer needs (call level callee arguments) := by
  refine .eseq (safe_savePointer serves _) (.call ?_)
  rw [List.forall_mem_cons]
  exact ⟨safe_staticLink serves.framePointer level callee.level,
    fun argument member => (safe argument member).mono Set.subset_union_left⟩

/-- A block runs its items and ends in the value of the last one. -/
theorem safe_block {front : List Lowered} {last : IR.Expr}
    (safe : ∀ part ∈ front, IsSafe offer part) (lastSafe : SafeExpr offer ∅ last) :
    SafeExpr offer ∅ (.eseq (.seq (front.map Lowered.toStmt)) last) := by
  refine .eseq (.seq fun item member => ?_) (lastSafe.mono Set.subset_union_left)
  obtain ⟨part, isPart, rfl⟩ := List.mem_map.mp member
  exact (safe part isPart).toStmt

end Constructs

/-! ### Trees -/

section Trees

variable {offer : Offer} {context : LoweringContext}

theorem safe_ofBinary {node : Node} {operator : BinaryOperator} {left right value : IR.Expr}
    {state final : LoweringState} (isCell : operator = .assign → ∃ address, left = .mem address)
    (leftSafe : SafeExpr offer ∅ left) (rightSafe : SafeExpr offer ∅ right)
    (lowered : ofBinary context node operator left right state = .ok value final) :
    SafeExpr offer ∅ value := by
  cases operator with
  | compute operator =>
      obtain ⟨rfl, -⟩ := Outcome.pure_eq_ok.mp lowered
      exact leftSafe.binop rightSafe
  | index =>
      obtain ⟨ty, -, rfl, -⟩ := ofBinary_index_eq_ok.mp lowered
      exact safe_elementCell leftSafe rightSafe ty.storageSize
  | assign =>
      obtain ⟨address, rfl⟩ := isCell rfl
      rw [ofBinary_assign_mem_eq_ok] at lowered
      split at lowered
      · obtain ⟨rfl, -⟩ := lowered
        exact safe_assignment leftSafe.of_mem rightSafe
      · obtain ⟨rfl, -⟩ := lowered
        exact safe_assignmentOnce leftSafe.of_mem rightSafe _

mutual

theorem safe_ofExpr (serves : Serves offer context.frames) : (expression : Source.Expr) →
    {level : Nat} → {state final : LoweringState} → {code : Lowered} →
    AssignToReferences expression.parts → KnowsTexts offer final.chunks →
    ofExpr context level expression state = .ok code final → IsSafe offer code
  | .literal _ (.int value), _, _, _, _, _, _, lowered => by
      obtain ⟨rfl, -⟩ := ofExpr_int_eq_ok.mp lowered
      exact SafeExpr.const value
  | .literal _ (.log truth), _, _, _, _, _, _, lowered => by
      obtain ⟨rfl, -⟩ := ofExpr_log_eq_ok.mp lowered
      exact SafeExpr.const (Word.ofBool truth)
  | .literal _ (.str text), _, _, _, _, _, knows, lowered => by
      obtain ⟨rfl, rfl⟩ := ofExpr_str_eq_ok.mp lowered
      have known := knows _ text (List.mem_append_right _ (List.mem_singleton_self _))
      exact SafeExpr.name known
  | .name .., _, _, _, _, _, _, lowered => by
      obtain ⟨_, _, _, -, found, cell, rfl, -⟩ := ofExpr_name_eq_ok.mp lowered
      obtain ⟨address, rfl, safe⟩ := safe_cell? serves found cell
      exact safe.mem
  | .unary _ operator operand, _, _, _, _, assign, knows, lowered => by
      obtain ⟨value, operandLowered, rfl⟩ := ofExpr_unary_eq_ok.mp lowered
      have safe := safe_ofExpr serves operand assign.within knows operandLowered
      exact safe_unary safe operator
  | .binary node operator left right, _, _, _, _, assign, knows, lowered => by
      obtain ⟨first, _, second, _, value, leftLowered, rightLowered, built, rfl⟩ :=
        ofExpr_binary_eq_ok.mp lowered
      have rightAssign := assign.within.right
      have knowsRight := knows.before (ofBinary_quiet built).1
      have knowsLeft :=
        knowsRight.before (ofExpr_draws right rightAssign.toCells rightLowered).precedes
      have leftSafe := safe_ofExpr serves left assign.within.left knowsLeft leftLowered
      have rightSafe := safe_ofExpr serves right rightAssign knowsRight rightLowered
      refine safe_ofBinary (fun isAssign => ?_) leftSafe rightSafe built
      subst isAssign
      exact ofExpr_isCell (assign.toCells _ (Source.Expr.mem_parts _)) leftLowered
  | .call _ _ arguments, _, _, _, _, assign, knows, lowered => by
      obtain ⟨_, _, -, argumentsLowered, rfl⟩ := ofExpr_call_eq_ok.mp lowered
      have safe := safe_ofArguments serves arguments assign.within knows argumentsLowered
      exact safe_call serves _ _ safe
  | .block _ items, _, _, _, _, assign, knows, lowered => by
      obtain ⟨front, last, itemsLowered, rfl⟩ := ofExpr_block_eq_ok.mp lowered
      have safe := safe_ofExprs serves items assign.within knows itemsLowered
      exact safe_block (fun part member => safe part (List.mem_append_left _ member))
        (safe (.expr last) (List.mem_append_right _ (List.mem_singleton_self _)))
  | .ifThen _ condition thenBranch, _, _, _, _, assign, knows, lowered => by
      obtain ⟨_, _, _, last, tests, branches, rfl, rfl⟩ := ofExpr_ifThen_eq_ok.mp lowered
      have thenAssign := assign.within.right
      have knowsBranch := knows.before (afterLabels_quiet last).1
      have testSafe := safe_ofExpr serves condition assign.within.left
        (knowsBranch.before (ofExpr_draws thenBranch thenAssign.toCells branches).precedes) tests
      have thenSafe := safe_ofExpr serves thenBranch thenAssign knowsBranch branches
      exact SafeStmt.ifThen testSafe thenSafe.toStmt
  | .ifThenElse _ condition thenBranch elseBranch, _, _, _, _, assign, knows, lowered => by
      obtain ⟨_, _, _, _, _, last, tests, branches, others, rfl, rfl⟩ :=
        ofExpr_ifThenElse_eq_ok.mp lowered
      have thenAssign := assign.within.left.right
      have elseAssign := assign.within.right
      have knowsElse := knows.before (afterLabels_quiet last).1
      have knowsThen :=
        knowsElse.before (ofExpr_draws elseBranch elseAssign.toCells others).precedes
      have testSafe := safe_ofExpr serves condition assign.within.left.left
        (knowsThen.before (ofExpr_draws thenBranch thenAssign.toCells branches).precedes) tests
      have thenSafe := safe_ofExpr serves thenBranch thenAssign knowsThen branches
      have elseSafe := safe_ofExpr serves elseBranch elseAssign knowsElse others
      exact SafeStmt.ifThenElse testSafe thenSafe.toStmt elseSafe.toStmt
  | .whileLoop _ condition body, _, _, _, _, assign, knows, lowered => by
      obtain ⟨_, _, _, last, tests, bodied, rfl, rfl⟩ := ofExpr_whileLoop_eq_ok.mp lowered
      have bodyAssign := assign.within.right
      have knowsBody := knows.before (afterLabels_quiet last).1
      have testSafe := safe_ofExpr serves condition assign.within.left
        (knowsBody.before (ofExpr_draws body bodyAssign.toCells bodied).precedes) tests
      have bodySafe := safe_ofExpr serves body bodyAssign knowsBody bodied
      exact SafeStmt.whileLoop testSafe bodySafe.toStmt
  | .forLoop _ counter low high step body, _, _, _, _, assign, knows, lowered => by
      obtain ⟨_, _, cell, _, _, _, _, _, _, _, last, rfl, counted, lows, highs, steps, bodied, rfl,
        rfl⟩ := ofExpr_forLoop_eq_ok.mp lowered
      obtain ⟨_, _, -, found, reached, -⟩ := ofName_eq_ok.mp counted
      obtain ⟨address, rfl, counts⟩ := safe_cell? serves found reached
      have highAssign := assign.within.left.left.right
      have stepAssign := assign.within.left.right
      have bodyAssign := assign.within.right
      have knowsBody := knows.before (LoweringState.Draws.afterLoop last).precedes
      have knowsStep := knowsBody.before (ofExpr_draws body bodyAssign.toCells bodied).precedes
      have knowsHigh := knowsStep.before (ofExpr_draws step stepAssign.toCells steps).precedes
      have knowsLow := knowsHigh.before (ofExpr_draws high highAssign.toCells highs).precedes
      have lowSafe := safe_ofExpr serves low assign.within.left.left.left.right knowsLow lows
      have highSafe := safe_ofExpr serves high highAssign knowsHigh highs
      have stepSafe := safe_ofExpr serves step stepAssign knowsStep steps
      have bodySafe := safe_ofExpr serves body bodyAssign knowsBody bodied
      exact SafeStmt.forLoop counts lowSafe highSafe stepSafe bodySafe.toStmt
  | .whereIn _ definitions inner, _, _, _, _, assign, knows, lowered => by
      obtain ⟨_, _, -, innerLowered, rfl⟩ := ofExpr_whereIn_eq_ok.mp lowered
      exact safe_ofExpr serves inner assign.within.right knows innerLowered

theorem safe_ofExprs (serves : Serves offer context.frames) :
    (expressions : List Source.Expr) → {level : Nat} → {state final : LoweringState} →
    {parts : List Lowered} → AssignToReferences (Source.Expr.partsOfList expressions) →
    KnowsTexts offer final.chunks → ofExprs context level expressions state = .ok parts final →
    ∀ part ∈ parts, IsSafe offer part
  | [], _, _, _, _, _, _, lowered => by
      obtain ⟨rfl, -⟩ := ofExprs_nil_eq_ok.mp lowered
      simp
  | expression :: others, _, _, _, _, assign, knows, lowered => by
      obtain ⟨_, _, _, first, rest, rfl⟩ := ofExprs_cons_eq_ok.mp lowered
      rw [List.forall_mem_cons]
      exact ⟨safe_ofExpr serves expression assign.left
          (knows.before (ofExprs_draws others assign.right.toCells rest).precedes) first,
        safe_ofExprs serves others assign.right knows rest⟩

theorem safe_ofArguments (serves : Serves offer context.frames) :
    (expressions : List Source.Expr) → {level : Nat} → {state final : LoweringState} →
    {values : List IR.Expr} → AssignToReferences (Source.Expr.partsOfList expressions) →
    KnowsTexts offer final.chunks →
    ofArguments context level expressions state = .ok values final →
    ∀ value ∈ values, SafeExpr offer ∅ value
  | [], _, _, _, _, _, _, lowered => by
      obtain ⟨rfl, -⟩ := ofArguments_nil_eq_ok.mp lowered
      simp
  | expression :: others, _, _, _, _, assign, knows, lowered => by
      obtain ⟨_, _, _, first, rest, rfl⟩ := ofArguments_cons_eq_ok.mp lowered
      rw [List.forall_mem_cons]
      exact ⟨safe_ofExpr serves expression assign.left
          (knows.before (ofArguments_draws others assign.right.toCells rest).precedes) first,
        safe_ofArguments serves others assign.right knows rest⟩

end

end Trees

end TreeBackend.Lowering
