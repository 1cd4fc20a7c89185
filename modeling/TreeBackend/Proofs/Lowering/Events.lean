import TreeBackend.Proofs.IR.Events
import TreeBackend.Proofs.Lowering.Inversion
import TreeBackend.Proofs.Source.Contents

/-!
# The events of lowered code

Jumps in lowered code go to places of the same code.  Its calls are those of the source,
each with the static link as one more argument, and they go to builtins and to functions
that have a frame.  Code that an assignment or a loop mentions twice does not change this.
-/

namespace TreeBackend.Lowering

open Source
open IR (Stmt Event)

/-- What the events of lowered code are like, given the numbers of arguments of the calls in
the source. -/
structure Behaves (frames : FrameTable) (events : List Event) (calls : List Nat) : Prop where
  targets : ∀ event ∈ events, ∀ target ∈ event.targets, .label target ∈ events
  calls : ∀ number, (∃ label, .call label number ∈ events) ↔
    ∃ arguments ∈ calls, number = arguments + 1
  callees : ∀ label number, .call label number ∈ events →
    (∃ builtin : Builtin, label = .named builtin.name) ∨
      ∃ definition frame, frames.frame? definition = some frame ∧ label = frame.label

namespace Behaves

variable {frames : FrameTable} {events more : List Event} {calls others : List Nat}

/-- Only places, jumps and calls matter, and not how often they occur. -/
theorem congr (behaves : Behaves frames events calls)
    (same : ∀ event, event.isQuiet = false → (event ∈ more ↔ event ∈ events)) :
    Behaves frames more calls where
  targets event member target isTarget := by
    cases loud : event.isQuiet with
    | true => cases event <;> simp_all [Event.isQuiet, Event.targets]
    | false =>
        exact (same (.label target) rfl).mpr
          (behaves.targets event ((same event loud).mp member) target isTarget)
  calls number := by
    rw [← behaves.calls number]
    exact exists_congr fun label => same (.call label number) rfl
  callees label number member :=
    behaves.callees label number ((same (.call label number) rfl).mp member)

/-- Events without calls whose jumps go to places among them. -/
theorem control (noCalls : ∀ event ∈ events, event.arguments? = none)
    (targets : ∀ event ∈ events, ∀ target ∈ event.targets, .label target ∈ events) :
    Behaves frames events [] where
  targets := targets
  calls number := by
    constructor
    · rintro ⟨label, member⟩
      cases noCalls _ member
    · simp
  callees label number member := by cases noCalls _ member

theorem quiet (quiet : ∀ event ∈ events, event.isQuiet = true) : Behaves frames events [] := by
  have nothing : Behaves frames [] [] := control (by simp) (by simp)
  refine nothing.congr fun event loud => ?_
  constructor
  · intro member
    rw [quiet event member] at loud
    cases loud
  · simp

theorem append (left : Behaves frames events calls) (right : Behaves frames more others) :
    Behaves frames (events ++ more) (calls ++ others) where
  targets event member target isTarget := by
    rcases List.mem_append.mp member with member | member
    · exact List.mem_append_left _ (left.targets event member target isTarget)
    · exact List.mem_append_right _ (right.targets event member target isTarget)
  calls number := by
    simp only [List.mem_append, exists_or, or_and_right, left.calls number, right.calls number]
  callees label number member := by
    rcases List.mem_append.mp member with member | member
    · exact left.callees label number member
    · exact right.callees label number member

end Behaves

/-! ### Constructs -/

section Constructs

variable {frames : FrameTable} {calls others : List Nat} {event : Event}

theorem isQuiet_of_mem_enclosingFrame {hops : Nat} (member : event ∈ (enclosingFrame hops).events) :
    event.isQuiet = true := by
  induction hops with
  | zero => simp [enclosingFrame, IR.Expr.framePointer, IR.Expr.events] at member
  | succ hops ih =>
      rcases List.mem_append.mp member with member | member
      · exact ih member
      · obtain rfl := List.mem_singleton.mp member
        rfl

theorem isQuiet_of_mem_staticLink {level calleeLevel : Nat}
    (member : event ∈ (staticLink level calleeLevel).events) : event.isQuiet = true := by
  unfold staticLink at member
  split at member
  · simp [IR.Expr.events] at member
  · split at member
    · simp [IR.Expr.framePointer, IR.Expr.events] at member
    · exact isQuiet_of_mem_enclosingFrame member

theorem isQuiet_of_mem_savePointer {offset : Option Int}
    (member : event ∈ (savePointer offset).events) : event.isQuiet = true := by
  cases offset with
  | none => simp [savePointer, Stmt.events, Stmt.eventsOfList] at member
  | some offset =>
      obtain rfl | rfl : event = .compute .sub ∨ event = .store := by
        simpa [savePointer, Stmt.events, IR.Expr.storeEvents, IR.Expr.events,
          IR.Expr.stackPointer, IR.Expr.framePointer] using member
      · rfl
      · rfl

/-- The cell of a variable can be reached without places, jumps and calls. -/
theorem isQuiet_of_mem_cell? {level : Nat} {storage : Storage} {value : IR.Expr}
    (found : cell? level storage = some value) (member : event ∈ value.events) :
    event.isQuiet = true := by
  have stack : ∀ slot, stackCell? level slot = some value → event.isQuiet = true := by
    intro slot found
    unfold stackCell? at found
    split at found
    · obtain rfl := Option.some_inj.mp found
      simp only [IR.Expr.events, List.append_nil, List.mem_append, List.mem_singleton] at member
      rcases member with (member | rfl) | rfl
      · exact isQuiet_of_mem_enclosingFrame member
      · rfl
      · rfl
    · cases found
  cases storage with
  | global slot =>
      obtain rfl := Option.some_inj.mp found
      obtain rfl : event = .load := by simpa [IR.Expr.events] using member
      rfl
  | localVar slot | parameter slot => exact stack slot found

theorem mem_storeEvents {source : List Event} (loud : event.isQuiet = false) (target : IR.Expr) :
    event ∈ target.storeEvents source ↔ event ∈ target.events ∨ event ∈ source := by
  cases target with
  | const _ | name _ => simp [IR.Expr.storeEvents, IR.Expr.events]
  | temp _ =>
      have notAssign : ∀ temp, event ≠ .assign temp := by rintro temp rfl; cases loud
      simp [IR.Expr.storeEvents, IR.Expr.events, notAssign]
  | mem _ =>
      have notLoad : event ≠ .load := by rintro rfl; cases loud
      have notStore : event ≠ .store := by rintro rfl; cases loud
      simp [IR.Expr.storeEvents, IR.Expr.events, notLoad, notStore]
  | binop | call => simp [IR.Expr.storeEvents, IR.Expr.events, or_assoc]
  | eseq _ value =>
      simp [IR.Expr.storeEvents, IR.Expr.events, mem_storeEvents loud value, or_assoc]

theorem toStmt_events (value : IR.Expr) : (Lowered.expr value).toStmt.events = value.events := rfl

theorem behaves_unary {operator : UnaryOperator} {operand : IR.Expr}
    (behaves : Behaves frames operand.events calls) :
    Behaves frames (unary operator operand).events calls := by
  refine behaves.congr fun event loud => ?_
  have noCompute : ∀ operator, event ≠ .compute operator := by rintro operator rfl; cases loud
  cases operator <;> simp [unary, IR.Expr.events, noCompute]

/-- An assignment mentions its target twice, or keeps the address of the target. -/
theorem behaves_ofBinary {context : LoweringContext} {node : Node} {operator : BinaryOperator}
    {left right value : IR.Expr} {state final : LoweringState}
    (first : Behaves frames left.events calls) (second : Behaves frames right.events others)
    (lowered : ofBinary context node operator left right state = .ok value final) :
    Behaves frames value.events (calls ++ others) := by
  refine (first.append second).congr fun event loud => ?_
  have noCompute : ∀ operator, event ≠ .compute operator := by rintro operator rfl; cases loud
  have noAssign : ∀ temp, event ≠ .assign temp := by rintro temp rfl; cases loud
  have noLoad : event ≠ .load := by rintro rfl; cases loud
  have noStore : event ≠ .store := by rintro rfl; cases loud
  have twice (target : IR.Expr) :
      event ∈ (assignment target right).events ↔ event ∈ target.events ++ right.events := by
    simp only [assignment, IR.Expr.events, Stmt.events, List.mem_append,
      mem_storeEvents loud target]
    grind
  cases operator with
  | compute operator =>
      obtain ⟨rfl, -⟩ := Outcome.pure_eq_ok.mp lowered
      simp [IR.Expr.events, noCompute]
  | index =>
      obtain ⟨_, -, rfl, -⟩ := ofBinary_index_eq_ok.mp lowered
      have base : event ∈ (baseAddress left).events ↔ event ∈ left.events := by
        cases left <;> simp [baseAddress, IR.Expr.events, noLoad]
      simp [elementCell, IR.Expr.events, base, noCompute, noLoad]
  | assign =>
      cases left with
      | mem address =>
          rw [ofBinary_assign_mem_eq_ok] at lowered
          split at lowered
          · obtain ⟨rfl, -⟩ := lowered
            exact twice (.mem address)
          · obtain ⟨rfl, -⟩ := lowered
            simp [assignmentOnce, IR.Expr.events, Stmt.events, Stmt.eventsOfList,
              IR.Expr.storeEvents, noAssign, noLoad, noStore]
      | const | name | temp | binop | call | eseq =>
          obtain ⟨rfl, -⟩ := Outcome.pure_eq_ok.mp lowered
          exact twice _

/-- A call passes the static link in front of its arguments. -/
theorem behaves_call {context : LoweringContext} {node : Node} {name : String} {callee : Callee}
    {arguments : List IR.Expr} {level : Nat} {state final : LoweringState}
    (found : findCallee context node name state = .ok callee final)
    (behaves : Behaves context.frames (IR.Expr.eventsOfList arguments) calls) :
    Behaves context.frames (call level callee arguments).events (arguments.length :: calls) := by
  have calls : Behaves context.frames [.call callee.label (arguments.length + 1)]
      [arguments.length] := by
    refine ⟨by simp [Event.targets], by simp, fun label number member => ?_⟩
    obtain ⟨rfl, -⟩ := Event.call.inj (List.mem_singleton.mp member)
    obtain ⟨⟨builtin, -, rfl⟩ | ⟨-, definition, frame, -, isFrame, rfl⟩, -⟩ :=
      findCallee_eq_ok.mp found
    · exact .inl ⟨builtin, rfl⟩
    · exact .inr ⟨definition, frame, isFrame, rfl⟩
  refine (calls.append behaves).congr fun event loud => ?_
  have notSave : event ∉ (savePointer callee.savedPointerOffset).events := fun member => by
    cases (isQuiet_of_mem_savePointer member).symm.trans loud
  have notLink : event ∉ (staticLink level callee.level).events := fun member => by
    cases (isQuiet_of_mem_staticLink member).symm.trans loud
  simp only [call, IR.Expr.events, IR.Expr.eventsOfList, List.length_cons, List.mem_append,
    notSave, notLink, false_or]
  exact or_comm

/-- The items of a block, the last one of which gives the value. -/
theorem block_events (front : List Lowered) (last : IR.Expr) :
    (IR.Expr.eseq (.seq (front.map Lowered.toStmt)) last).events =
      Stmt.eventsOfList ((front ++ [Lowered.expr last]).map Lowered.toStmt) := by
  simp [IR.Expr.events, Stmt.events, Stmt.eventsOfList, toStmt_events]

/-- The code of a function stores its result. -/
theorem behaves_functionBody {value : IR.Expr} (behaves : Behaves frames value.events calls) :
    Behaves frames (functionBody value).events calls := by
  refine behaves.congr fun event loud => ?_
  have notStore : event ≠ .store := by rintro rfl; cases loud
  simp [functionBody, Stmt.events, IR.Expr.storeEvents, IR.Expr.framePointer, IR.Expr.events,
    notStore]

end Constructs

/-! ### Trees -/

section Trees

variable {context : LoweringContext}

mutual

theorem ofExpr_behaves : (expression : Source.Expr) → (around : List NodeId) → {level : Nat} →
    {state final : LoweringState} → {code : Lowered} →
    ofExpr context level expression state = .ok code final →
    Behaves context.frames code.toStmt.events (expression.contents around).calls
  | .literal _ (.int _), _, _, _, _, _, lowered => by
      obtain ⟨rfl, -⟩ := ofExpr_int_eq_ok.mp lowered
      exact .quiet (by simp [toStmt_events, IR.Expr.events])
  | .literal _ (.log _), _, _, _, _, _, lowered => by
      obtain ⟨rfl, -⟩ := ofExpr_log_eq_ok.mp lowered
      exact .quiet (by simp [toStmt_events, IR.Expr.events])
  | .literal _ (.str _), _, _, _, _, _, lowered => by
      obtain ⟨rfl, -⟩ := ofExpr_str_eq_ok.mp lowered
      exact .quiet (by simp [toStmt_events, IR.Expr.events])
  | .name .., _, _, _, _, _, lowered => by
      obtain ⟨_, _, _, -, -, cell, rfl, -⟩ := ofExpr_name_eq_ok.mp lowered
      exact .quiet fun event member => isQuiet_of_mem_cell? cell member
  | .unary _ _ operand, around, _, _, _, _, lowered => by
      obtain ⟨_, operandLowered, rfl⟩ := ofExpr_unary_eq_ok.mp lowered
      exact behaves_unary (ofExpr_behaves operand around operandLowered)
  | .binary _ _ left right, around, _, _, _, _, lowered => by
      obtain ⟨_, _, _, _, _, leftLowered, rightLowered, built, rfl⟩ :=
        ofExpr_binary_eq_ok.mp lowered
      exact behaves_ofBinary (ofExpr_behaves left around leftLowered)
        (ofExpr_behaves right around rightLowered) built
  | .call _ _ arguments, around, level, _, _, _, lowered => by
      obtain ⟨callee, values, found, argumentsLowered, rfl⟩ := ofExpr_call_eq_ok.mp lowered
      obtain ⟨behaves, length⟩ := ofArguments_behaves arguments around argumentsLowered
      have calls : Behaves context.frames (call level callee values).events
          (values.length :: (Source.Expr.contentsOfList around arguments).calls) :=
        behaves_call found behaves
      rwa [length] at calls
  | .block _ items, around, _, _, _, _, lowered => by
      obtain ⟨front, last, itemsLowered, rfl⟩ := ofExpr_block_eq_ok.mp lowered
      have behaves := ofExprs_behaves items around itemsLowered
      rwa [← block_events] at behaves
  | .ifThen _ condition thenBranch, around, _, _, _, _, lowered => by
      obtain ⟨_, _, _, last, tests, branches, -, rfl⟩ := ofExpr_ifThen_eq_ok.mp lowered
      have control : Behaves context.frames
          [.branch last.nextLabels.first last.nextLabels.third, .label last.nextLabels.first,
            .jump last.nextLabels.third, .label last.nextLabels.third] [] :=
        .control (by simp [Event.arguments?]) (by simp [Event.targets])
      refine (control.append ((ofExpr_behaves condition around tests).append
        (ofExpr_behaves thenBranch around branches))).congr fun event _ => ?_
      simp only [Lowered.toStmt, ifThen, Stmt.events, Stmt.eventsOfList, List.mem_append,
        List.mem_cons, List.not_mem_nil, or_false]
      grind
  | .ifThenElse _ condition thenBranch elseBranch, around, _, _, _, _, lowered => by
      obtain ⟨_, _, _, _, _, last, tests, branches, others, -, rfl⟩ :=
        ofExpr_ifThenElse_eq_ok.mp lowered
      have control : Behaves context.frames
          [.branch last.nextLabels.first last.nextLabels.second, .label last.nextLabels.first,
            .label last.nextLabels.second, .jump last.nextLabels.third,
            .label last.nextLabels.third] [] :=
        .control (by simp [Event.arguments?]) (by simp [Event.targets])
      refine (control.append (((ofExpr_behaves condition around tests).append
        (ofExpr_behaves thenBranch around branches)).append
        (ofExpr_behaves elseBranch around others))).congr fun event _ => ?_
      simp only [Lowered.toStmt, ifThenElse, Stmt.events, Stmt.eventsOfList, List.mem_append,
        List.mem_cons, List.not_mem_nil, or_false]
      grind
  | .whileLoop _ condition body, around, _, _, _, _, lowered => by
      obtain ⟨_, _, _, last, tests, bodied, -, rfl⟩ := ofExpr_whileLoop_eq_ok.mp lowered
      have control : Behaves context.frames
          [.label last.nextLabels.first,
            .branch last.nextLabels.second last.nextLabels.third, .label last.nextLabels.second,
            .jump last.nextLabels.first, .label last.nextLabels.third] [] :=
        .control (by simp [Event.arguments?]) (by simp [Event.targets])
      refine (control.append ((ofExpr_behaves condition around tests).append
        (ofExpr_behaves body around bodied))).congr fun event _ => ?_
      simp only [Lowered.toStmt, whileLoop, Stmt.events, Stmt.eventsOfList, List.mem_append,
        List.mem_cons, List.not_mem_nil, or_false]
      grind
  | .forLoop _ counter low high step body, around, _, _, _, _, lowered => by
      obtain ⟨_, _, cell, _, _, _, _, _, _, _, last, rfl, counted, lows, highs, steps, bodied, -,
        rfl⟩ := ofExpr_forLoop_eq_ok.mp lowered
      obtain ⟨_, _, -, -, reached, -⟩ := ofName_eq_ok.mp counted
      have counter : Behaves context.frames cell.events [] :=
        .quiet fun event member => isQuiet_of_mem_cell? reached member
      have control : Behaves context.frames
          [.label last.nextLabels.third,
            .branch last.nextLabels.first last.nextLabels.second, .label last.nextLabels.first,
            .jump last.nextLabels.third, .label last.nextLabels.second] [] :=
        .control (by simp [Event.arguments?]) (by simp [Event.targets])
      refine ((control.append counter).append ((((ofExpr_behaves low around lows).append
        (ofExpr_behaves high around highs)).append (ofExpr_behaves step around steps)).append
        (ofExpr_behaves body around bodied))).congr fun event loud => ?_
      have noCompute : ∀ operator, event ≠ .compute operator := by rintro operator rfl; cases loud
      have noAssign : ∀ temp, event ≠ .assign temp := by rintro temp rfl; cases loud
      simp only [Lowered.toStmt, forLoop, Stmt.events, Stmt.eventsOfList, List.mem_append,
        List.mem_cons, List.not_mem_nil, or_false, mem_storeEvents loud cell, IR.Expr.storeEvents,
        IR.Expr.events, noCompute, noAssign]
      grind
  | .whereIn _ definitions inner, around, _, _, _, _, lowered => by
      obtain ⟨_, _, -, innerLowered, rfl⟩ := ofExpr_whereIn_eq_ok.mp lowered
      have behaves := ofExpr_behaves inner around innerLowered
      rw [Source.Expr.contents, Contents.calls_append, Def.calls_contentsOfList]
      exact behaves

theorem ofExprs_behaves : (expressions : List Source.Expr) → (around : List NodeId) →
    {level : Nat} → {state final : LoweringState} → {parts : List Lowered} →
    ofExprs context level expressions state = .ok parts final →
    Behaves context.frames (Stmt.eventsOfList (parts.map Lowered.toStmt))
      (Source.Expr.contentsOfList around expressions).calls
  | [], _, _, _, _, _, lowered => by
      obtain ⟨rfl, -⟩ := ofExprs_nil_eq_ok.mp lowered
      exact .quiet (by simp [Stmt.eventsOfList])
  | expression :: others, around, _, _, _, _, lowered => by
      obtain ⟨_, _, _, first, rest, rfl⟩ := ofExprs_cons_eq_ok.mp lowered
      exact (ofExpr_behaves expression around first).append (ofExprs_behaves others around rest)

theorem ofArguments_behaves : (expressions : List Source.Expr) → (around : List NodeId) →
    {level : Nat} → {state final : LoweringState} → {values : List IR.Expr} →
    ofArguments context level expressions state = .ok values final →
    Behaves context.frames (IR.Expr.eventsOfList values)
      (Source.Expr.contentsOfList around expressions).calls ∧ values.length = expressions.length
  | [], _, _, _, _, _, lowered => by
      obtain ⟨rfl, -⟩ := ofArguments_nil_eq_ok.mp lowered
      exact ⟨.quiet (by simp [IR.Expr.eventsOfList]), rfl⟩
  | expression :: others, around, _, _, _, _, lowered => by
      obtain ⟨_, _, _, first, rest, rfl⟩ := ofArguments_cons_eq_ok.mp lowered
      obtain ⟨behaves, length⟩ := ofArguments_behaves others around rest
      exact ⟨(ofExpr_behaves expression around first).append behaves,
        congrArg (· + 1) length⟩

end

end Trees

end TreeBackend.Lowering
