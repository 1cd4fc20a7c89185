import TreeBackend.Proofs.Flattening.Pieces
import TreeBackend.Proofs.Lowering.Emission

/-!
# The pieces of lowered code

Lowering is compositional.  The code of an assignment, of a conditional or of a loop is found in
the code of the function in which it stands, whatever is around it.
-/

namespace TreeBackend

/-! ### Code that is found in other code -/

/-- Whether code keeps its shape wherever it is used, as statements do and expressions that begin
with a statement. -/
def Lowered.isFirm : Lowered → Bool
  | .stmt _ | .expr (.eseq ..) => true
  | .expr _ => false

/-- Code is found in other code: among the expressions that are computed there, or as one of the
statements that stand in a row, perhaps in front of a value. -/
inductive Lowered.Contains (whole : Lowered) : Lowered → Prop
  | piece {effect : IR.Stmt} {result : IR.Expr} : .eseq effect result ∈ whole.toStmt.pieces →
      Contains whole (.expr (.eseq effect result))
  | row {outer inner : IR.Stmt} : whole = .stmt outer → inner.StandsIn outer →
      Contains whole (.stmt inner)
  | front {effect inner : IR.Stmt} {result : IR.Expr} :
      .eseq effect result ∈ whole.toStmt.pieces → inner.StandsIn effect →
      Contains whole (.stmt inner)

namespace Lowered.Contains

variable {child whole code : Lowered} {inner outer : IR.Stmt}

theorem of_standsIn (contains : whole.Contains (.stmt outer)) (stands : inner.StandsIn outer) :
    whole.Contains (.stmt inner) := by
  cases contains with
  | row isWhole isThere => exact .row isWhole (stands.trans isThere)
  | front isPiece isThere => exact .front isPiece (stands.trans isThere)

/-- Code is found in everything in which the code around it is found. -/
theorem mono (contains : child.Contains code)
    (pieces : ∀ effect result, .eseq effect result ∈ child.toStmt.pieces →
      .eseq effect result ∈ whole.toStmt.pieces)
    (rows : ∀ outer, child = .stmt outer → whole.Contains (.stmt outer)) :
    whole.Contains code := by
  cases contains with
  | piece inside => exact .piece (pieces _ _ inside)
  | row isChild stands => exact (rows _ isChild).of_standsIn stands
  | front inside stands => exact .front (pieces _ _ inside) stands

/-- An expression hands on nothing but what is computed in it. -/
theorem of_expr {value : IR.Expr} (contains : (Lowered.expr value).Contains code)
    (pieces : ∀ effect result, .eseq effect result ∈ value.pieces →
      .eseq effect result ∈ whole.toStmt.pieces) : whole.Contains code :=
  contains.mono pieces nofun

section Rows

variable {items : List IR.Stmt} {value : IR.Expr}

/-- What is found in a statement of a row is found in the row. -/
theorem of_item {item : IR.Stmt} (contains : child.Contains code) (member : item ∈ items)
    (pieces : ∀ effect result, .eseq effect result ∈ child.toStmt.pieces →
      .eseq effect result ∈ item.pieces)
    (rows : ∀ outer, child = .stmt outer → item = outer) :
    (Lowered.stmt (.seq items)).Contains code :=
  contains.mono
    (fun effect result inside =>
      IR.Stmt.pieces_subset_piecesOfList member (pieces effect result inside))
    fun outer isStmt => .row rfl (.row (rows outer isStmt ▸ member) .here)

theorem of_branch (contains : child.Contains code) (member : child.toStmt ∈ items) :
    (Lowered.stmt (.seq items)).Contains code :=
  contains.of_item member (fun _ _ => id) fun _ isStmt => isStmt ▸ rfl

theorem of_test {whenTrue whenFalse : Label} (contains : (Lowered.expr value).Contains code)
    (member : .cjump value whenTrue whenFalse ∈ items) :
    (Lowered.stmt (.seq items)).Contains code :=
  contains.of_item member (fun _ _ => id) nofun

theorem of_source {target : IR.Expr} (contains : (Lowered.expr value).Contains code)
    (member : .move target value ∈ items) : (Lowered.stmt (.seq items)).Contains code :=
  contains.of_item member (fun _ _ => List.mem_append_right _) nofun

end Rows

end Lowered.Contains

namespace Lowering

open Source

variable {context : LoweringContext} {level : Nat} {state middle last final : LoweringState}
  {part : Source.Expr}

/-- Between two states, an expression was lowered to code that is to be found somewhere, if it
keeps its shape. -/
structure Brings (context : LoweringContext) (level : Nat) (state final : LoweringState)
    (part : Source.Expr) (found : Lowered → Prop) : Prop where
  lowered : ∃ first last code, state.Precedes first ∧
    ofExpr context level part first = .ok code last ∧ last.Precedes final ∧
    (code.isFirm = true → found code)

theorem Brings.mono {found others : Lowered → Prop}
    (brings : Brings context level middle last part found) (before : state.Precedes middle)
    (behind : last.Precedes final) (includes : ∀ code, found code → others code) :
    Brings context level state final part others := by
  obtain ⟨first, done, code, precedes, lowered, follows, isFound⟩ := brings.lowered
  exact ⟨first, done, code, before.trans precedes, lowered, follows.trans behind,
    fun firm => includes code (isFound firm)⟩

theorem Brings.self {code : Lowered} (lowered : ofExpr context level part state = .ok code final) :
    Brings context level state final part code.Contains := by
  refine ⟨state, final, code, .refl _, lowered, .refl _, fun firm => ?_⟩
  match code with
  | .stmt _ => exact .row rfl .here
  | .expr (.eseq ..) => exact .piece (IR.Expr.mem_pieces _)
  | .expr (.const _) | .expr (.name _) | .expr (.temp _) | .expr (.mem _) | .expr (.binop ..)
  | .expr (.call ..) => cases firm

/-! ### The pieces of each construct -/

section Constructs

variable {effect : IR.Stmt} {result : IR.Expr}

/-- The base address of an array keeps what is done to find it. -/
theorem mem_pieces_baseAddress {value : IR.Expr} (member : .eseq effect result ∈ value.pieces) :
    .eseq effect result ∈ (baseAddress value).pieces := by
  cases value with
  | mem address => simpa [baseAddress, IR.Expr.pieces] using member
  | const | name | temp | binop | call | eseq => exact member

theorem mem_pieces_unary {operator : UnaryOperator} {operand : IR.Expr}
    (member : .eseq effect result ∈ operand.pieces) :
    .eseq effect result ∈ (unary operator operand).pieces := by
  cases operator <;> simp [unary, IR.Expr.pieces, member]

theorem mem_pieces_call {callee : Callee} {arguments : List IR.Expr}
    (member : .eseq effect result ∈ IR.Expr.piecesOfList arguments) :
    .eseq effect result ∈ (call level callee arguments).pieces := by
  simp [call, IR.Expr.pieces, IR.Expr.piecesOfList, member]

/-- The items of a block, the last one of which gives the value. -/
theorem mem_pieces_block {front : List Lowered} {value : IR.Expr}
    (member : .eseq effect result ∈
      IR.Stmt.piecesOfList ((front ++ [Lowered.expr value]).map Lowered.toStmt)) :
    .eseq effect result ∈ (IR.Expr.eseq (.seq (front.map Lowered.toStmt)) value).pieces := by
  refine List.mem_cons_of_mem _ ?_
  simpa [IR.Stmt.pieces, IR.Stmt.piecesOfList, Lowered.toStmt] using member

/-- An operator keeps what is done for its operands, an assignment included. -/
theorem mem_pieces_ofBinary {node : Node} {operator : BinaryOperator}
    {left right value : IR.Expr}
    (lowered : ofBinary context node operator left right state = .ok value final)
    (member : .eseq effect result ∈ left.pieces ++ right.pieces) :
    .eseq effect result ∈ value.pieces := by
  have twice (target : IR.Expr) (inside : .eseq effect result ∈ target.pieces ++ right.pieces) :
      .eseq effect result ∈ (assignment target right).pieces := by
    rcases List.mem_append.mp inside with inside | inside <;>
      simp [assignment, IR.Expr.pieces, IR.Stmt.pieces, inside]
  cases operator with
  | compute operator =>
      obtain ⟨rfl, -⟩ := Outcome.pure_eq_ok.mp lowered
      exact List.mem_cons_of_mem _ member
  | index =>
      obtain ⟨_, -, rfl, -⟩ := ofBinary_index_eq_ok.mp lowered
      have inBase := (List.mem_append.mp member).imp_left mem_pieces_baseAddress
      simpa [elementCell, IR.Expr.pieces] using inBase
  | assign =>
      cases left with
      | mem address =>
          rw [ofBinary_assign_mem_eq_ok] at lowered
          split at lowered
          · obtain ⟨rfl, -⟩ := lowered
            exact twice _ member
          · obtain ⟨rfl, -⟩ := lowered
            have inside : .eseq effect result ∈ address.pieces ∨
                .eseq effect result ∈ right.pieces := by
              simpa [IR.Expr.pieces] using member
            rcases inside with inside | inside <;>
              simp [assignmentOnce, IR.Expr.pieces, IR.Stmt.pieces, IR.Stmt.piecesOfList,
                IR.Expr.storePieces, inside]
      | const | name | temp | binop | call | eseq =>
          obtain ⟨rfl, -⟩ := Outcome.pure_eq_ok.mp lowered
          exact twice _ member

theorem ofBinary_assign_eq_eseq {node : Node} {left right value : IR.Expr}
    (lowered : ofBinary context node .assign left right state = .ok value final) :
    ∃ effect result, value = .eseq effect result := by
  cases left with
  | mem address =>
      rw [ofBinary_assign_mem_eq_ok] at lowered
      split at lowered
      · exact ⟨_, _, lowered.1⟩
      · exact ⟨_, _, lowered.1⟩
  | const | name | temp | binop | call | eseq =>
      obtain ⟨rfl, -⟩ := Outcome.pure_eq_ok.mp lowered
      exact ⟨_, _, rfl⟩

end Constructs

section Trees

/-- The code of an expression brings in the code of one of its parts, if that is this part. -/
def LowersBringing (context : LoweringContext) (level : Nat) (part expression : Source.Expr) :
    Prop :=
  ∀ ⦃state final : LoweringState⦄ ⦃code : Lowered⦄, part ∈ expression.ownParts →
    ofExpr context level expression state = .ok code final →
    Brings context level state final part code.Contains

variable {node : Source.Node}

theorem lowersBringing_binary {operator : Source.BinaryOperator} {left right : Source.Expr}
    (lefts : LowersBringing context level part left)
    (rights : LowersBringing context level part right) :
    LowersBringing context level part (.binary node operator left right) := by
  intro _ _ _ member lowered
  rcases List.mem_cons.mp member with rfl | member
  · exact .self lowered
  obtain ⟨_, _, _, _, _, leftLowered, rightLowered, built, rfl⟩ := ofExpr_binary_eq_ok.mp lowered
  have behind := (ofBinary_quiet built).1
  rcases List.mem_append.mp member with member | member
  · exact (lefts member leftLowered).mono (.refl _) ((ofExpr_precedes rightLowered).trans behind)
      fun _ contains => contains.of_expr fun _ _ inside =>
        mem_pieces_ofBinary built (List.mem_append_left _ inside)
  · exact (rights member rightLowered).mono (ofExpr_precedes leftLowered) behind
      fun _ contains => contains.of_expr fun _ _ inside =>
        mem_pieces_ofBinary built (List.mem_append_right _ inside)

theorem lowersBringing_ifThen {condition thenBranch : Source.Expr}
    (conditions : LowersBringing context level part condition)
    (thens : LowersBringing context level part thenBranch) :
    LowersBringing context level part (.ifThen node condition thenBranch) := by
  intro _ _ _ member lowered
  rcases List.mem_cons.mp member with rfl | member
  · exact .self lowered
  obtain ⟨_, _, _, last, tests, branches, rfl, rfl⟩ := ofExpr_ifThen_eq_ok.mp lowered
  have behind := (afterLabels_quiet last).1
  rcases List.mem_append.mp member with member | member
  · exact (conditions member tests).mono (.refl _) ((ofExpr_precedes branches).trans behind)
      fun _ contains => contains.of_test (.head _)
  · exact (thens member branches).mono (ofExpr_precedes tests) behind
      fun _ contains => contains.of_branch (by simp)

theorem lowersBringing_ifThenElse {condition thenBranch elseBranch : Source.Expr}
    (conditions : LowersBringing context level part condition)
    (thens : LowersBringing context level part thenBranch)
    (elses : LowersBringing context level part elseBranch) :
    LowersBringing context level part (.ifThenElse node condition thenBranch elseBranch) := by
  intro _ _ _ member lowered
  rcases List.mem_cons.mp member with rfl | member
  · exact .self lowered
  obtain ⟨_, _, _, _, _, last, tests, branches, others, rfl, rfl⟩ :=
    ofExpr_ifThenElse_eq_ok.mp lowered
  have behind := (afterLabels_quiet last).1
  have afterBranches := (ofExpr_precedes others).trans behind
  rcases List.mem_append.mp member with member | member
  · rcases List.mem_append.mp member with member | member
    · exact (conditions member tests).mono (.refl _)
        ((ofExpr_precedes branches).trans afterBranches)
        fun _ contains => contains.of_test (.head _)
    · exact (thens member branches).mono (ofExpr_precedes tests) afterBranches
        fun _ contains => contains.of_branch (by simp)
  · exact (elses member others).mono ((ofExpr_precedes tests).trans (ofExpr_precedes branches))
      behind fun _ contains => contains.of_branch (by simp)

theorem lowersBringing_whileLoop {condition body : Source.Expr}
    (conditions : LowersBringing context level part condition)
    (bodies : LowersBringing context level part body) :
    LowersBringing context level part (.whileLoop node condition body) := by
  intro _ _ _ member lowered
  rcases List.mem_cons.mp member with rfl | member
  · exact .self lowered
  obtain ⟨_, _, _, last, tests, bodied, rfl, rfl⟩ := ofExpr_whileLoop_eq_ok.mp lowered
  have behind := (afterLabels_quiet last).1
  rcases List.mem_append.mp member with member | member
  · exact (conditions member tests).mono (.refl _) ((ofExpr_precedes bodied).trans behind)
      fun _ contains => contains.of_test (.tail _ (.head _))
  · exact (bodies member bodied).mono (ofExpr_precedes tests) behind
      fun _ contains => contains.of_branch (by simp)

theorem lowersBringing_forLoop {counter low high step body : Source.Expr}
    (lower : LowersBringing context level part low)
    (upper : LowersBringing context level part high)
    (strides : LowersBringing context level part step)
    (bodies : LowersBringing context level part body) :
    LowersBringing context level part (.forLoop node counter low high step body) := by
  intro state _ _ member lowered
  rcases List.mem_cons.mp member with rfl | member
  · exact .self lowered
  obtain ⟨counterNode, counterName, cell, _, _, _, _, _, _, _, last, rfl, reads, lows, highs,
    steps, bodied, rfl, rfl⟩ := ofExpr_forLoop_eq_ok.mp lowered
  have behind := (LoweringState.Draws.afterLoop last).precedes
  have afterBody := (ofExpr_precedes bodied).trans behind
  have afterStep := (ofExpr_precedes steps).trans afterBody
  have afterHigh := (ofExpr_precedes highs).trans afterStep
  have beforeStep := (ofExpr_precedes lows).trans (ofExpr_precedes highs)
  rcases List.mem_append.mp member with member | member
  · rcases List.mem_append.mp member with member | member
    · rcases List.mem_append.mp member with member | member
      · rcases List.mem_append.mp member with member | member
        · -- The counter is not firm, so nothing is claimed about its code.
          obtain ⟨definition, storage, bound, stored, found, -⟩ := ofName_eq_ok.mp reads
          obtain ⟨address, rfl, -, -⟩ := cell?_quiet found
          obtain rfl := List.mem_singleton.mp (by simpa [Source.Expr.ownParts] using member)
          have counted : ofExpr context level (.name counterNode counterName) state =
              .ok (.expr (.mem address)) state :=
            ofExpr_name_eq_ok.mpr ⟨definition, storage, _, bound, stored, found, rfl, rfl⟩
          exact ⟨state, state, _, .refl _, counted, (ofExpr_precedes lows).trans afterHigh, nofun⟩
        · exact (lower member lows).mono (.refl _) afterHigh
            fun _ contains => contains.of_source (.head _)
      · exact (upper member highs).mono (ofExpr_precedes lows) afterStep
          fun _ contains => contains.of_source (.tail _ (.head _))
    · exact (strides member steps).mono beforeStep afterBody
        fun _ contains => contains.of_source (.tail _ (.tail _ (.head _)))
  · exact (bodies member bodied).mono (beforeStep.trans (ofExpr_precedes steps)) behind
      fun _ contains => contains.of_branch (by simp)

mutual

theorem ofExpr_brings : (expression : Source.Expr) → LowersBringing context level part expression
  | .literal .., _, _, _, member, lowered | .name .., _, _, _, member, lowered => by
      obtain rfl := List.mem_singleton.mp (by simpa [Source.Expr.ownParts] using member)
      exact .self lowered
  | .unary _ _ operand, _, _, _, member, lowered => by
      rcases List.mem_cons.mp member with rfl | member
      · exact .self lowered
      · obtain ⟨_, operandLowered, rfl⟩ := ofExpr_unary_eq_ok.mp lowered
        exact (ofExpr_brings operand member operandLowered).mono (.refl _) (.refl _)
          fun _ contains => contains.of_expr fun _ _ => mem_pieces_unary
  | .binary _ _ left right, _, _, _, member, lowered =>
      lowersBringing_binary (ofExpr_brings left) (ofExpr_brings right) member lowered
  | .call _ _ arguments, _, _, _, member, lowered => by
      rcases List.mem_cons.mp member with rfl | member
      · exact .self lowered
      · obtain ⟨_, _, -, argumentsLowered, rfl⟩ := ofExpr_call_eq_ok.mp lowered
        refine (ofArguments_brings arguments member argumentsLowered).mono (.refl _) (.refl _) ?_
        rintro code ⟨value, isArgument, contains⟩
        exact contains.of_expr fun _ _ inside =>
          mem_pieces_call (IR.Expr.pieces_subset_piecesOfList isArgument inside)
  | .block _ items, _, _, _, member, lowered => by
      rcases List.mem_cons.mp member with rfl | member
      · exact .self lowered
      · obtain ⟨front, value, itemsLowered, rfl⟩ := ofExpr_block_eq_ok.mp lowered
        refine (ofExprs_brings items member itemsLowered).mono (.refl _) (.refl _) ?_
        rintro code ⟨item, isItem, contains⟩
        refine contains.mono (fun _ _ inside => mem_pieces_block
          (IR.Stmt.pieces_subset_piecesOfList (List.mem_map_of_mem isItem) inside)) ?_
        -- The last item is the value of the block, so a statement stands in front of it.
        rintro outer rfl
        have inFront : .stmt outer ∈ front := by simpa using isItem
        exact .front (IR.Expr.mem_pieces _) (.row (List.mem_map_of_mem inFront) .here)
  | .ifThen _ condition thenBranch, _, _, _, member, lowered =>
      lowersBringing_ifThen (ofExpr_brings condition) (ofExpr_brings thenBranch) member lowered
  | .ifThenElse _ condition thenBranch elseBranch, _, _, _, member, lowered =>
      lowersBringing_ifThenElse (ofExpr_brings condition) (ofExpr_brings thenBranch)
        (ofExpr_brings elseBranch) member lowered
  | .whileLoop _ condition body, _, _, _, member, lowered =>
      lowersBringing_whileLoop (ofExpr_brings condition) (ofExpr_brings body) member lowered
  | .forLoop _ _ low high step body, _, _, _, member, lowered =>
      lowersBringing_forLoop (ofExpr_brings low) (ofExpr_brings high) (ofExpr_brings step)
        (ofExpr_brings body) member lowered
  | .whereIn _ definitions inner, _, _, _, member, lowered => by
      rcases List.mem_cons.mp member with rfl | member
      · exact .self lowered
      · obtain ⟨_, _, defined, innerLowered, rfl⟩ := ofExpr_whereIn_eq_ok.mp lowered
        exact (ofExpr_brings inner member innerLowered).mono (ofDefs_precedes defined) (.refl _)
          fun _ => id

theorem ofExprs_brings : (expressions : List Source.Expr) → {state final : LoweringState} →
    {items : List Lowered} → part ∈ Source.Expr.ownPartsOfList expressions →
    ofExprs context level expressions state = .ok items final →
    Brings context level state final part fun code => ∃ item ∈ items, item.Contains code
  | [], _, _, _, member, _ => by simp [Source.Expr.ownPartsOfList] at member
  | expression :: others, _, _, _, member, lowered => by
      obtain ⟨_, _, _, first, rest, rfl⟩ := ofExprs_cons_eq_ok.mp lowered
      rcases List.mem_append.mp member with member | member
      · exact (ofExpr_brings expression member first).mono (.refl _) (ofExprs_precedes rest)
          fun _ contains => ⟨_, List.mem_cons_self .., contains⟩
      · exact (ofExprs_brings others member rest).mono (ofExpr_precedes first) (.refl _)
          fun _ ⟨item, isItem, contains⟩ => ⟨item, List.mem_cons_of_mem _ isItem, contains⟩

theorem ofArguments_brings : (arguments : List Source.Expr) → {state final : LoweringState} →
    {values : List IR.Expr} → part ∈ Source.Expr.ownPartsOfList arguments →
    ofArguments context level arguments state = .ok values final →
    Brings context level state final part fun code =>
      ∃ value ∈ values, (Lowered.expr value).Contains code
  | [], _, _, _, member, _ => by simp [Source.Expr.ownPartsOfList] at member
  | argument :: others, _, _, _, member, lowered => by
      obtain ⟨_, _, _, first, rest, rfl⟩ := ofArguments_cons_eq_ok.mp lowered
      rcases List.mem_append.mp member with member | member
      · exact (ofExpr_brings argument member first).mono (.refl _) (ofArguments_precedes rest)
          fun _ contains => ⟨_, List.mem_cons_self .., contains⟩
      · exact (ofArguments_brings others member rest).mono (ofExpr_precedes first) (.refl _)
          fun _ ⟨value, isValue, contains⟩ => ⟨value, List.mem_cons_of_mem _ isValue, contains⟩

end

/-- The code of an assignment is an `eseq` that is computed in the code around it. -/
theorem Brings.eseq {node : Node} {target value : Source.Expr} {whole : Lowered}
    (brings : Brings context level state final (.binary node .assign target value) whole.Contains) :
    ∃ first last effect result, state.Precedes first ∧
      ofExpr context level (.binary node .assign target value) first =
        .ok (.expr (.eseq effect result)) last ∧
      last.Precedes final ∧ .eseq effect result ∈ whole.toStmt.pieces := by
  obtain ⟨first, last, code, before, lowered, behind, isFound⟩ := brings.lowered
  obtain ⟨_, _, _, _, _, -, -, built, rfl⟩ := ofExpr_binary_eq_ok.mp lowered
  obtain ⟨effect, result, rfl⟩ := ofBinary_assign_eq_eseq built
  cases isFound rfl with
  | piece inside => exact ⟨first, last, effect, result, before, lowered, behind, inside⟩

end Trees

end Lowering

end TreeBackend
