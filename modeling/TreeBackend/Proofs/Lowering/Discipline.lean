import TreeBackend.Proofs.Flattening.Keeping
import TreeBackend.Proofs.Frame.Offsets
import TreeBackend.Proofs.Lowering.Emission
import TreeBackend.Proofs.Source.Scoping

/-!
# The discipline of lowered code

The code of a function of a lexically scoped program stores to global variables and to
what the function and those around it own, saves the frame pointer where a callee keeps it,
and calls visible functions, each with the static link for its depth.
-/

namespace TreeBackend

open Source
open IR (Stmt)

/-- What the code of a function may store and call. -/
def Source.Function.discipline (program : Program) (table : FrameTable) (function : Function) :
    Discipline where
  isCell address :=
    (∃ definition slot, table.storage? definition = some (.global slot) ∧
      address = .name slot.label) ∨
    ∃ hops, ∃ owner ∈ program.functions,
      (function.node.id :: function.around)[hops]? = some owner.node.id ∧
      ∃ definition ∈ owner.ownedIds,
        address = .binop .add (Lowering.enclosingFrame hops) (.const (table.offset definition))
  isSaved offset := ∃ callee ∈ program.functions, ∃ frame,
    table.frame? callee.node.id = some frame ∧ offset = frame.savedPointerOffset
  isCall label link arguments :=
    (∃ builtin : Builtin, label = .named builtin.name) ∨
    ∃ callee ∈ program.functions, ∃ frame, table.frame? callee.node.id = some frame ∧
      label = frame.label ∧ callee.IsVisibleFrom function ∧
      link = Lowering.staticLink function.depth callee.depth ∧
      arguments = callee.parameters.length ∧ arguments ∈ function.contents.calls

namespace Lowering

def KeepsLowered (discipline : Discipline) (kind : Nat → Prop) : Lowered → Prop
  | .expr value => KeepsExpr discipline kind value
  | .stmt statement => KeepsStmt discipline kind statement

theorem KeepsLowered.toStmt {discipline : Discipline} {kind : Nat → Prop} {code : Lowered}
    (keeps : KeepsLowered discipline kind code) : KeepsStmt discipline kind code.toStmt := by
  cases code with
  | expr value => exact KeepsStmt.exp keeps
  | stmt statement => exact keeps

/-- What expressions in a row become keeps a discipline, each with the temporaries that were
drawn for it. -/
def KeepsRow (discipline : Discipline) (low high : Nat) : List Lowered → Prop
  | [] => low ≤ high
  | code :: rest => ∃ middle, low ≤ middle ∧ KeepsLowered discipline (Between low middle) code ∧
      KeepsRow discipline middle high rest

theorem KeepsRow.block {discipline : Discipline} {low high : Nat} {front : List Lowered}
    {last : IR.Expr} (keeps : KeepsRow discipline low high (front ++ [.expr last])) :
    KeepsExpr discipline (Between low high) (.eseq (.seq (front.map Lowered.toStmt)) last) := by
  obtain ⟨middle, lower, upper, rows, value⟩ : ∃ middle, low ≤ middle ∧ middle ≤ high ∧
      KeepsStmt discipline (Between low middle) (.seq (front.map Lowered.toStmt)) ∧
      KeepsExpr discipline (Between middle high) last := by
    induction front generalizing low with
    | nil =>
        obtain ⟨middle, le, value, upper⟩ := keeps
        have upper : middle ≤ high := upper
        exact ⟨low, Nat.le_refl _, le.trans upper, .nil,
          KeepsExpr.mono value fun _ => by omega⟩
    | cons code front ih =>
        obtain ⟨middle, le, first, others⟩ := keeps
        obtain ⟨last, lower, upper, rows, value⟩ := ih others
        exact ⟨last, le.trans lower, upper, .cons first.toStmt rows (.between le lower), value⟩
  exact .eseq rows value (.between lower upper)

/-! ### The shapes -/

theorem enclosingFrame_isPlain (hops : Nat) :
    (enclosingFrame hops).isPlain = true ∧ (enclosingFrame hops).calls = [] := by
  induction hops with
  | zero => exact ⟨rfl, rfl⟩
  | succ hops ih => simpa [enclosingFrame, IR.Expr.isPlain, IR.Expr.calls] using ih

theorem staticLink_isPlain (level calleeLevel : Nat) :
    (staticLink level calleeLevel).isPlain = true ∧ (staticLink level calleeLevel).calls = [] := by
  unfold staticLink
  split
  · exact ⟨rfl, rfl⟩
  · split
    · exact ⟨rfl, rfl⟩
    · exact enclosingFrame_isPlain _

section Shapes

variable {discipline : Discipline} {kind first second third : Nat → Prop}

theorem keepsExpr_unary {operator : UnaryOperator} {operand : IR.Expr}
    (keeps : KeepsExpr discipline kind operand) :
    KeepsExpr discipline kind (unary operator operand) := by
  have const (value : Int) : KeepsExpr discipline (fun _ => False) (.const value) :=
    .quiet rfl rfl
  cases operator with
  | plus => exact keeps
  | minus => exact .binop (const 0) keeps (.right kind)
  | not => exact .binop (.binop keeps (const 1) (.left kind)) (const (-1)) (.left kind)

theorem keepsExpr_assignment {address value : IR.Expr} (plain : address.isPlain = true)
    (noCalls : address.calls = []) (isCell : discipline.isCell address)
    (keeps : KeepsExpr discipline kind value) :
    KeepsExpr discipline kind (assignment (.mem address) value) :=
  .eseq (.moveCell plain noCalls isCell keeps)
    (.quiet plain (by simpa [IR.Expr.calls] using noCalls)) (.left kind)

theorem keepsExpr_assignmentOnce {address value : IR.Expr} {temp : IR.Temp}
    (plain : address.isPlain = true) (noCalls : address.calls = [])
    (isCell : discipline.isCell address) (keeps : KeepsExpr discipline first value)
    (splits : Splits kind first (· = temp.number)) :
    KeepsExpr discipline kind (assignmentOnce address value temp) :=
  .eseq (.moveOnce plain noCalls isCell keeps splits) (.quiet rfl rfl) (.left kind)

theorem keepsExpr_call {level : Nat} {callee : Callee} {arguments : List IR.Expr}
    (isSaved : ∀ offset ∈ callee.savedPointerOffset, discipline.isSaved offset)
    (isCall : discipline.isCall callee.label (staticLink level callee.level) arguments.length)
    (keeps : KeepsAll discipline kind arguments) :
    KeepsExpr discipline kind (call level callee arguments) := by
  have saves : KeepsStmt discipline (fun _ => False) (savePointer callee.savedPointerOffset) := by
    cases saved : callee.savedPointerOffset with
    | none => exact .nil
    | some offset => exact .savePointer (isSaved offset saved)
  obtain ⟨plain, noCalls⟩ := staticLink_isPlain level callee.level
  exact .eseq saves (.call plain noCalls isCall keeps) (.right kind)

theorem keepsStmt_ifThen {labels : Labels} {condition : IR.Expr} {thenBranch : Stmt}
    (test : KeepsExpr discipline first condition) (branch : KeepsStmt discipline second thenBranch)
    (splits : Splits kind first second) :
    KeepsStmt discipline kind (ifThen labels condition thenBranch) :=
  .cons (.cjump test) (.cons_quiet .label (.cons branch
    (.cons_quiet .jump (.cons_quiet .label .nil)) (.left second))) splits

theorem keepsStmt_ifThenElse {labels : Labels} {condition : IR.Expr} {thenBranch elseBranch : Stmt}
    (test : KeepsExpr discipline first condition) (branch : KeepsStmt discipline second thenBranch)
    (other : KeepsStmt discipline third elseBranch)
    (splits : Splits kind first fun number => second number ∨ third number)
    (apart : ∀ number, second number → ¬third number) :
    KeepsStmt discipline kind (ifThenElse labels condition thenBranch elseBranch) :=
  .cons (.cjump test) (.cons_quiet .label (.cons branch
    (.cons_quiet .jump (.cons_quiet .label (.cons other
      (.cons_quiet .jump (.cons_quiet .label .nil)) (.left third)))) (.or apart))) splits

theorem keepsStmt_whileLoop {labels : Labels} {condition : IR.Expr} {body : Stmt}
    (test : KeepsExpr discipline first condition) (bodied : KeepsStmt discipline second body)
    (splits : Splits kind first second) :
    KeepsStmt discipline kind (whileLoop labels condition body) :=
  .cons_quiet .label (.cons (.cjump test) (.cons_quiet .label (.cons bodied
    (.cons_quiet .jump (.cons_quiet .label .nil)) (.left second))) splits)

/-- The counter of a loop is the cell at an address; the two temporaries of the loop are
drawn behind those of its parts. -/
theorem keepsStmt_forLoop {labels : Labels} {bound stride : IR.Temp}
    {address low high step : IR.Expr} {body : Stmt} {start afterLow afterHigh afterStep : Nat}
    (plain : address.isPlain = true) (noCalls : address.calls = [])
    (isCell : discipline.isCell address) (lows : KeepsExpr discipline (Between start afterLow) low)
    (highs : KeepsExpr discipline (Between afterLow afterHigh) high)
    (steps : KeepsExpr discipline (Between afterHigh afterStep) step)
    (bodied : KeepsStmt discipline (Between afterStep bound.number) body)
    (ordered : start ≤ afterLow ∧ afterLow ≤ afterHigh ∧ afterHigh ≤ afterStep ∧
      afterStep ≤ bound.number) (isNext : stride.number = bound.number + 1) :
    KeepsStmt discipline (Between start (bound.number + 2))
      (forLoop labels bound stride (.mem address) low high step body) := by
  have counter {kind : Nat → Prop} : KeepsExpr discipline kind (.mem address) :=
    .quiet plain (by simpa [IR.Expr.calls] using noCalls)
  have temp {kind : Nat → Prop} (temp : IR.Temp) : KeepsExpr discipline kind (.temp temp) :=
    .quiet rfl rfl
  have loops : KeepsStmt discipline (Between afterStep bound.number)
      (.seq [.label labels.third,
        .cjump (.binop .lt (.mem address) (.temp bound)) labels.first labels.second,
        .label labels.first, body,
        .move (.mem address) (.binop .add (.mem address) (.temp stride)),
        .jump labels.third, .label labels.second]) :=
    .cons_quiet .label (.cons_quiet (.cjump (.binop counter (temp bound) (.left _)))
      (.cons_quiet .label (.cons bodied (.cons_quiet
        (.moveCell plain noCalls isCell (.binop counter (temp stride) (.left _)))
        (.cons_quiet .jump (.cons_quiet .label .nil))) (.left _))))
  have highMoves : KeepsStmt discipline
      (fun number => Between afterLow afterHigh number ∨ number = bound.number)
      (.move (.temp bound) high) := .moveTemp highs (.or fun _ => by omega)
  have stepMoves : KeepsStmt discipline
      (fun number => Between afterHigh afterStep number ∨ number = stride.number)
      (.move (.temp stride) step) := .moveTemp steps (.or fun _ => by omega)
  have stepLoops := KeepsStmt.cons stepMoves loops (.or fun _ => by omega)
  have highLoops := KeepsStmt.cons highMoves stepLoops (.or fun _ => by omega)
  exact .cons (.moveCell plain noCalls isCell lows) highLoops
    ⟨fun _ => by omega, fun _ => by omega, fun _ => by omega⟩

end Shapes

/-! ### References and calls -/

section Scoped

variable {program : Program} {table : FrameTable} {labels : LabelSupply} {function : Function}
  {state final : LoweringState}

/-- A variable or a parameter of a function becomes the word at its offset in a frame. -/
theorem cell?_of_mem_ownedIds (laid : program.LaidOut table labels) {owner : Function}
    (member : owner ∈ program.functions) {definition : NodeId}
    (owned : definition ∈ owner.ownedIds) {level : Nat} {storage : Storage} {value : IR.Expr}
    (found : table.storage? definition = some storage)
    (reached : cell? level storage = some value) :
    value = .mem (.binop .add (enclosingFrame (level - owner.depth))
      (.const (table.offset definition))) := by
  obtain ⟨size, stack⟩ : ∃ size,
      stackCell? level ⟨size, table.offset definition, owner.depth⟩ = some value := by
    have described := laid.functions.each owner member
    rcases List.mem_append.mp owned with isParameter | isLocal
    · obtain ⟨parameter, isThere, rfl⟩ := List.mem_map.mp isParameter
      obtain ⟨⟨size, offset, _⟩, stored, rfl⟩ := described.parameters.storage isThere
      obtain rfl := Option.some_inj.mp (found.symm.trans stored)
      rw [FrameTable.offset, stored]
      exact ⟨size, reached⟩
    · obtain ⟨inner, isThere, rfl⟩ := List.mem_map.mp isLocal
      obtain ⟨⟨size, offset, _⟩, stored, rfl⟩ := described.locals.storage isThere
      obtain rfl := Option.some_inj.mp (found.symm.trans stored)
      rw [FrameTable.offset, stored]
      exact ⟨size, reached⟩
  unfold stackCell? at stack
  split at stack
  · exact (Option.some_inj.mp stack).symm
  · cases stack

/-- A reference becomes a cell to which the function may store. -/
theorem ofName_isCell (laid : program.LaidOut table labels) (scope : program.IsConfined)
    (member : function ∈ program.functions) {node : Node} {name : String} {value : IR.Expr}
    (sees : program.seesVariable function node = true)
    (lowered : ofName ⟨program.resolution, table⟩ function.depth node name state =
      .ok value final) :
    ∃ address, value = .mem address ∧ address.isPlain = true ∧ address.calls = [] ∧
      (function.discipline program table).isCell address ∧ final = state := by
  obtain ⟨definition, storage, bound, found, reached, rfl⟩ := ofName_eq_ok.mp lowered
  simp only [Program.seesVariable, Option.any_eq_true, Bool.or_eq_true, List.any_eq_true,
    decide_eq_true_eq, Bool.and_eq_true, List.contains_iff_mem] at sees
  obtain ⟨other, isBound, owned⟩ := sees
  obtain rfl := Option.some_inj.mp (bound.symm.trans isBound)
  rcases owned with ⟨owned, isGlobal, rfl⟩ | ⟨owner, ownerMember, isAround, isOwned⟩
  · have stored := laid.globals owned isGlobal
    obtain rfl := Option.some_inj.mp (found.symm.trans stored)
    obtain rfl := Option.some_inj.mp reached
    exact ⟨_, rfl, rfl, rfl, .inl ⟨_, _, stored, rfl⟩, rfl⟩
  · obtain rfl := cell?_of_mem_ownedIds laid ownerMember isOwned found reached
    obtain ⟨plain, noCalls⟩ := enclosingFrame_isPlain (function.depth - owner.depth)
    refine ⟨_, rfl, by simpa [IR.Expr.isPlain] using plain,
      by simpa [IR.Expr.calls] using noCalls, .inr ⟨_, owner, ownerMember, ?_, definition,
      isOwned, rfl⟩, rfl⟩
    exact Program.getElem?_around scope.distinct member ownerMember isAround

/-- A call goes to something that the function may call. -/
theorem findCallee_isCall (laid : program.LaidOut table labels) {node : Node} {name : String}
    {callee : Callee}
    {arguments : Nat} (sees : program.seesCallee function node name arguments = true)
    (counted : arguments ∈ function.contents.calls)
    (found : findCallee ⟨program.resolution, table⟩ node name state = .ok callee final) :
    (∀ offset ∈ callee.savedPointerOffset, (function.discipline program table).isSaved offset) ∧
      (function.discipline program table).isCall callee.label
        (staticLink function.depth callee.level) arguments := by
  obtain ⟨⟨builtin, -, rfl⟩ | ⟨noBuiltin, definition, frame, bound, isFrame, rfl⟩, -⟩ :=
    findCallee_eq_ok.mp found
  · exact ⟨by simp, .inl ⟨builtin, rfl⟩⟩
  · simp only [Program.seesCallee, noBuiltin, Option.isSome_none, Bool.false_or, Option.any_eq_true,
      List.any_eq_true, Bool.and_eq_true, decide_eq_true_eq] at sees
    obtain ⟨other, isBound, target, member, ⟨rfl, length⟩, visible⟩ := sees
    obtain rfl := Option.some_inj.mp (bound.symm.trans isBound)
    have level : frame.level = target.depth := by
      obtain ⟨label, -, isOwn⟩ := (laid.functions.each target member).frame
      obtain rfl := Option.some_inj.mp (isFrame.symm.trans isOwn)
      rfl
    refine ⟨?_, .inr ⟨target, member, frame, isFrame, rfl, visible, by rw [level], length.symm,
      counted⟩⟩
    intro offset isOffset
    exact ⟨target, member, frame, isFrame, (Option.some_inj.mp isOffset).symm⟩

/-! ### Expressions from their parts -/

/-- Where an expression is lowered inside a function, its code keeps the discipline of the
function. -/
def LowersKeeping (program : Program) (table : FrameTable) (function : Function)
    (expression : Source.Expr) : Prop :=
  ∀ ⦃state final : LoweringState⦄ ⦃code : Lowered⦄, expression.isScoped program function = true →
    (expression.contents (function.node.id :: function.around)).calls ⊆ function.contents.calls →
    ofExpr ⟨program.resolution, table⟩ function.depth expression state = .ok code final →
    KeepsLowered (function.discipline program table)
      (Between state.temps.issued final.temps.issued) code

section Parts

variable {node : Node}

theorem lowersKeeping_compute {operator : Operator} {left right : Source.Expr}
    (lefts : LowersKeeping program table function left)
    (rights : LowersKeeping program table function right) :
    LowersKeeping program table function (.binary node (.compute operator) left right) := by
  intro _ _ _ inScope calls lowered
  obtain ⟨_, _, _, isLeft, isRight, rfl⟩ := ofExpr_compute_eq_ok.mp lowered
  rw [Source.Expr.isScoped, Bool.and_eq_true] at inScope
  exact KeepsExpr.binop (lefts inScope.1 (List.append_subset.mp calls).1 isLeft)
    (rights inScope.2 (List.append_subset.mp calls).2 isRight)
    (.between (ofExpr_precedes isLeft).temps (ofExpr_precedes isRight).temps)

theorem lowersKeeping_assign (laid : program.LaidOut table labels) (scope : program.IsConfined)
    (member : function ∈ program.functions) {target value : Source.Expr}
    (keepsValue : LowersKeeping program table function value) :
    LowersKeeping program table function (.binary node .assign target value) := by
  intro _ _ _ inScope calls lowered
  obtain ⟨_, middle, _, last, _, targets, values, built, rfl⟩ := ofExpr_binary_eq_ok.mp lowered
  simp only [Source.Expr.isScoped, Bool.and_eq_true] at inScope
  obtain ⟨⟨isName, targetScoped⟩, valueScoped⟩ := inScope
  have keeps := keepsValue valueScoped (List.append_subset.mp calls).2 values
  cases target with
  | name targetNode name =>
      obtain ⟨_, _, _, bound, found, reached, same, rfl⟩ := ofExpr_name_eq_ok.mp targets
      obtain rfl := Lowered.expr.inj same
      obtain ⟨address, rfl, plain, noCalls, isCell, -⟩ :=
        ofName_isCell laid scope member targetScoped
          ((@ofName_eq_ok _ _ middle _ _ _ name).mpr ⟨_, _, bound, found, reached, rfl⟩)
      rw [ofBinary_assign_mem_eq_ok] at built
      split at built
      · obtain ⟨rfl, rfl⟩ := built
        exact keepsExpr_assignment plain noCalls isCell keeps
      · obtain ⟨rfl, rfl⟩ := built
        have le := (ofExpr_precedes values).temps
        refine keepsExpr_assignmentOnce plain noCalls isCell keeps
          ⟨fun number => ?_, fun number => ?_, fun number => ?_⟩ <;>
        · simp only [LoweringState.afterTemp, IR.TempSupply.rest, IR.TempSupply.next]
          omega
  | literal | unary | binary | call | block | ifThen | ifThenElse | whileLoop | forLoop | whereIn =>
      cases isName

theorem lowersKeeping_ifThen {condition thenBranch : Source.Expr}
    (conditions : LowersKeeping program table function condition)
    (thens : LowersKeeping program table function thenBranch) :
    LowersKeeping program table function (.ifThen node condition thenBranch) := by
  intro _ _ _ inScope calls lowered
  obtain ⟨_, _, _, last, tests, branches, rfl, rfl⟩ := ofExpr_ifThen_eq_ok.mp lowered
  rw [Source.Expr.isScoped, Bool.and_eq_true] at inScope
  have branchLe := (ofExpr_precedes branches).temps
  exact keepsStmt_ifThen (conditions inScope.1 (List.append_subset.mp calls).1 tests)
    (thens inScope.2 (List.append_subset.mp calls).2 branches).toStmt
    (.between (ofExpr_precedes tests).temps branchLe)

theorem lowersKeeping_ifThenElse {condition thenBranch elseBranch : Source.Expr}
    (conditions : LowersKeeping program table function condition)
    (thens : LowersKeeping program table function thenBranch)
    (elses : LowersKeeping program table function elseBranch) :
    LowersKeeping program table function (.ifThenElse node condition thenBranch elseBranch) := by
  intro _ _ _ inScope calls lowered
  obtain ⟨_, _, _, _, _, last, tests, branches, others, rfl, rfl⟩ :=
    ofExpr_ifThenElse_eq_ok.mp lowered
  simp only [Source.Expr.isScoped, Bool.and_eq_true] at inScope
  have ⟨front, otherCalls⟩ := List.append_subset.mp calls
  have testLe := (ofExpr_precedes tests).temps
  have branchLe := (ofExpr_precedes branches).temps
  have otherLe := (ofExpr_precedes others).temps
  exact keepsStmt_ifThenElse
    (conditions inScope.1.1 (List.append_subset.mp front).1 tests)
    (thens inScope.1.2 (List.append_subset.mp front).2 branches).toStmt
    (elses inScope.2 otherCalls others).toStmt
    ⟨fun _ => by omega,
      fun _ (first : Between _ _ _) => show Between _ last.temps.issued _ by omega,
      fun _ second => show Between _ last.temps.issued _ by omega⟩ fun _ => by omega

theorem lowersKeeping_whileLoop {condition body : Source.Expr}
    (conditions : LowersKeeping program table function condition)
    (bodies : LowersKeeping program table function body) :
    LowersKeeping program table function (.whileLoop node condition body) := by
  intro _ _ _ inScope calls lowered
  obtain ⟨_, _, _, last, tests, bodied, rfl, rfl⟩ := ofExpr_whileLoop_eq_ok.mp lowered
  rw [Source.Expr.isScoped, Bool.and_eq_true] at inScope
  have bodyLe := (ofExpr_precedes bodied).temps
  exact keepsStmt_whileLoop (conditions inScope.1 (List.append_subset.mp calls).1 tests)
    (bodies inScope.2 (List.append_subset.mp calls).2 bodied).toStmt
    (.between (ofExpr_precedes tests).temps bodyLe)

theorem lowersKeeping_forLoop (laid : program.LaidOut table labels) (scope : program.IsConfined)
    (member : function ∈ program.functions) {counter low high step body : Source.Expr}
    (lower : LowersKeeping program table function low)
    (upper : LowersKeeping program table function high)
    (strides : LowersKeeping program table function step)
    (bodies : LowersKeeping program table function body) :
    LowersKeeping program table function (.forLoop node counter low high step body) := by
  intro _ _ _ inScope calls lowered
  obtain ⟨_, _, cell, _, _, _, _, _, _, _, last, rfl, counted, lows, highs, steps, bodied, rfl,
    rfl⟩ := ofExpr_forLoop_eq_ok.mp lowered
  simp only [Source.Expr.isScoped, Bool.and_eq_true] at inScope
  have ⟨front, bodyCalls⟩ := List.append_subset.mp calls
  have ⟨front, stepCalls⟩ := List.append_subset.mp front
  have ⟨front, highCalls⟩ := List.append_subset.mp front
  have lowCalls := (List.append_subset.mp front).2
  obtain ⟨address, rfl, plain, noCalls, isCell, -⟩ :=
    ofName_isCell laid scope member inScope.1.1.1.1 counted
  have bodyLe : _ ≤ last.temps.next.number := (ofExpr_precedes bodied).temps
  exact keepsStmt_forLoop plain noCalls isCell (lower inScope.1.1.1.2 lowCalls lows)
    (upper inScope.1.1.2 highCalls highs) (strides inScope.1.2 stepCalls steps)
    (bodies inScope.2 bodyCalls bodied).toStmt
    ⟨(ofExpr_precedes lows).temps, (ofExpr_precedes highs).temps, (ofExpr_precedes steps).temps,
      bodyLe⟩ rfl

end Parts

/-! ### By induction -/

mutual

theorem ofExpr_keeps (laid : program.LaidOut table labels) (scope : program.IsConfined)
    (member : function ∈ program.functions) : (expression : Source.Expr) →
    LowersKeeping program table function expression
  | .literal _ (.int _) => fun _ _ _ _ _ lowered => by
      obtain ⟨rfl, rfl⟩ := ofExpr_int_eq_ok.mp lowered
      exact KeepsExpr.quiet rfl rfl
  | .literal _ (.log _) => fun _ _ _ _ _ lowered => by
      obtain ⟨rfl, rfl⟩ := ofExpr_log_eq_ok.mp lowered
      exact KeepsExpr.quiet rfl rfl
  | .literal _ (.str _) => fun _ _ _ _ _ lowered => by
      obtain ⟨rfl, rfl⟩ := ofExpr_str_eq_ok.mp lowered
      exact KeepsExpr.quiet rfl rfl
  | .name node name => fun _ final _ sees _ lowered => by
      obtain ⟨_, _, _, bound, found, reached, rfl, rfl⟩ := ofExpr_name_eq_ok.mp lowered
      obtain ⟨address, rfl, plain, noCalls, -⟩ := ofName_isCell laid scope member sees
        ((@ofName_eq_ok _ _ final _ _ _ name).mpr ⟨_, _, bound, found, reached, rfl⟩)
      exact KeepsExpr.quiet plain (by simpa [IR.Expr.calls] using noCalls)
  | .unary _ _ operand => fun _ _ _ inScope calls lowered => by
      obtain ⟨value, operandLowered, rfl⟩ := ofExpr_unary_eq_ok.mp lowered
      exact keepsExpr_unary (ofExpr_keeps laid scope member operand inScope calls operandLowered)
  | .binary _ (.compute _) left right =>
      lowersKeeping_compute (ofExpr_keeps laid scope member left)
        (ofExpr_keeps laid scope member right)
  | .binary _ .index _ _ => fun _ _ _ inScope _ _ => by cases inScope
  | .binary _ .assign _ value =>
      lowersKeeping_assign laid scope member (ofExpr_keeps laid scope member value)
  | .call node called arguments => fun _ _ _ inScope calls lowered => by
      obtain ⟨callee, values, found, argumentsLowered, rfl⟩ := ofExpr_call_eq_ok.mp lowered
      rw [Source.Expr.isScoped, Bool.and_eq_true] at inScope
      obtain ⟨length, keeps⟩ := ofArguments_keep laid scope member arguments inScope.2
        (List.append_subset.mp calls).2 argumentsLowered
      have counted : arguments.length ∈ function.contents.calls :=
        (List.append_subset.mp calls).1 (List.mem_singleton_self _)
      obtain ⟨isSaved, isCall⟩ := findCallee_isCall laid inScope.1 counted found
      exact keepsExpr_call isSaved (length ▸ isCall) keeps
  | .block _ items => fun _ _ _ inScope calls lowered => by
      obtain ⟨front, last, itemsLowered, rfl⟩ := ofExpr_block_eq_ok.mp lowered
      exact (ofExprs_keep laid scope member items inScope calls itemsLowered).block
  | .ifThen _ condition thenBranch =>
      lowersKeeping_ifThen (ofExpr_keeps laid scope member condition)
        (ofExpr_keeps laid scope member thenBranch)
  | .ifThenElse _ condition thenBranch elseBranch =>
      lowersKeeping_ifThenElse (ofExpr_keeps laid scope member condition)
        (ofExpr_keeps laid scope member thenBranch) (ofExpr_keeps laid scope member elseBranch)
  | .whileLoop _ condition body =>
      lowersKeeping_whileLoop (ofExpr_keeps laid scope member condition)
        (ofExpr_keeps laid scope member body)
  | .forLoop _ _ low high step body =>
      lowersKeeping_forLoop laid scope member (ofExpr_keeps laid scope member low)
        (ofExpr_keeps laid scope member high) (ofExpr_keeps laid scope member step)
        (ofExpr_keeps laid scope member body)
  | .whereIn _ definitions inner => fun _ _ _ inScope calls lowered => by
      obtain ⟨_, _, defined, innerLowered, rfl⟩ := ofExpr_whereIn_eq_ok.mp lowered
      have le :=
        (ofDefs_emits definitions (function.node.id :: function.around) defined).precedes.temps
      have keeps := ofExpr_keeps laid scope member inner inScope (List.append_subset.mp calls).2
        innerLowered
      exact KeepsExpr.mono keeps fun _ => by omega

theorem ofExprs_keep (laid : program.LaidOut table labels) (scope : program.IsConfined)
    (member : function ∈ program.functions) : (expressions : List Source.Expr) →
    {state final : LoweringState} →
    {parts : List Lowered} → Source.Expr.areScoped program function expressions = true →
    (Source.Expr.contentsOfList (function.node.id :: function.around) expressions).calls ⊆
      function.contents.calls →
    ofExprs ⟨program.resolution, table⟩ function.depth expressions state = .ok parts final →
    KeepsRow (function.discipline program table) state.temps.issued final.temps.issued parts
  | [], _, _, _, _, _, lowered => by
      obtain ⟨rfl, rfl⟩ := ofExprs_nil_eq_ok.mp lowered
      exact Nat.le_refl _
  | expression :: others, _, _, _, inScope, calls, lowered => by
      obtain ⟨_, _, _, first, rest, rfl⟩ := ofExprs_cons_eq_ok.mp lowered
      rw [Source.Expr.areScoped, Bool.and_eq_true] at inScope
      exact ⟨_, (ofExpr_precedes first).temps,
        ofExpr_keeps laid scope member expression inScope.1 (List.append_subset.mp calls).1 first,
        ofExprs_keep laid scope member others inScope.2 (List.append_subset.mp calls).2 rest⟩

theorem ofArguments_keep (laid : program.LaidOut table labels) (scope : program.IsConfined)
    (member : function ∈ program.functions) : (expressions : List Source.Expr) →
    {state final : LoweringState} →
    {values : List IR.Expr} → Source.Expr.areScoped program function expressions = true →
    (Source.Expr.contentsOfList (function.node.id :: function.around) expressions).calls ⊆
      function.contents.calls →
    ofArguments ⟨program.resolution, table⟩ function.depth expressions state = .ok values final →
    values.length = expressions.length ∧ KeepsAll (function.discipline program table)
      (Between state.temps.issued final.temps.issued) values
  | [], _, _, _, _, _, lowered => by
      obtain ⟨rfl, rfl⟩ := ofArguments_nil_eq_ok.mp lowered
      exact ⟨rfl, .nil⟩
  | expression :: others, _, _, _, inScope, calls, lowered => by
      obtain ⟨_, _, _, first, rest, rfl⟩ := ofArguments_cons_eq_ok.mp lowered
      rw [Source.Expr.areScoped, Bool.and_eq_true] at inScope
      obtain ⟨length, keeps⟩ :=
        ofArguments_keep laid scope member others inScope.2 (List.append_subset.mp calls).2 rest
      refine ⟨by rw [List.length_cons, List.length_cons, length], ?_⟩
      exact .cons (ofExpr_keeps laid scope member expression inScope.1
        (List.append_subset.mp calls).1 first) keeps
        (.between (ofExpr_precedes first).temps
          (ofArguments_precedes rest).temps)

end

end Scoped

/-! ### Bodies of functions -/

/-- The flat body of a function: in the end its result goes to the word of the static link. -/
def bodyOf (before : List Stmt) (result : IR.Expr) : List Stmt :=
  before ++ [.move (.mem .framePointer) result]

/-- A flat body keeps a discipline up to the store of the result. -/
structure KeepsBody (discipline : Discipline) (before : List Stmt) (result : IR.Expr) : Prop where
  once : ((bodyOf before result).filterMap Stmt.target?).Nodup
  allows : ∀ statement ∈ before, discipline.Allows (bodyOf before result) statement
  calls : discipline.AllowsCalls (bodyOf before result) result.calls

theorem keepsBody_of_flattened {discipline : Discipline} {kind : Nat → Prop} {value : IR.Expr}
    {items : List Stmt} {supply rest : IR.TempSupply} (keeps : KeepsExpr discipline kind value)
    (drawn : ∀ number, kind number → number < supply.issued)
    (flattened : Flattening.ofStmt (functionBody value) supply = .ok (items, rest)) :
    ∃ before result, items = bodyOf before result ∧ KeepsBody discipline before result := by
  rw [functionBody, Flattening.ofStmt_move] at flattened
  obtain ⟨place, middle, flat, last, before, left, right, places, values, paired, rfl⟩ :=
    Flattening.ofMove_mem_eq_ok.mp flattened
  obtain ⟨rfl, rfl⟩ := Flattening.ofExpr_name_eq_ok.mp places
  obtain ⟨rfl, rfl, rfl, rfl⟩ := Flattening.pair_of_isFixed rfl paired
  have keeps := keeps.flat drawn values
  have includes : [] ++ flat.before ⊆ bodyOf flat.before flat.value :=
    List.subset_append_left ..
  have sameTargets : (bodyOf flat.before flat.value).filterMap Stmt.target? =
      flat.before.filterMap Stmt.target? := by
    rw [bodyOf, List.filterMap_append]
    exact List.append_nil _
  exact ⟨flat.before, flat.value, rfl, sameTargets ▸ keeps.drawn.once, keeps.allows _ includes,
    keeps.calls _ includes _ (List.mem_singleton_self _)⟩

end Lowering

end TreeBackend
