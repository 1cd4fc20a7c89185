import TreeBackend.Proofs.Lowering.Supply
import TreeBackend.Proofs.Machine.Loading
import TreeBackend.Proofs.Source.Contents

/-!
# Where chunks come from

Lowering finishes one chunk for each function of a program, and each chunk with
code is the body of one of them.  The other chunks are string constants, with
labels that are drawn on the way, and global variables.
-/

namespace TreeBackend.Lowering

open Source
open IR (Chunk)

def Holds (context : LoweringContext) (state final : LoweringState) (function : Function)
    (chunk : Chunk) : Prop :=
  ∃ start value middle frame, state.Precedes start ∧
    ofExpr context function.depth function.body start = .ok (.expr value) middle ∧
    middle.Precedes final ∧ context.frames.frame? function.node.id = some frame ∧
    chunk = .code frame (functionBody value)

/-- A chunk was finished between two states, for something in a part of a program. -/
def Stems (context : LoweringContext) (state final : LoweringState) (contents : Contents)
    (chunk : Chunk) : Prop :=
  match chunk with
  | .code .. => ∃ function ∈ contents.functions, Holds context state final function chunk
  | .data slot _ => ∃ number, state.labels.issued ≤ number ∧ number < final.labels.issued ∧
      slot = ⟨Word.size, .anonymous number⟩
  | .global slot => ∃ definition, context.frames.storage? definition = some (.global slot)

/-- The labels of the functions in a part of a program. -/
def functionLabels (context : LoweringContext) (contents : Contents) : List Label :=
  contents.functions.filterMap fun function =>
    (context.frames.frame? function.node.id).map (·.label)

def globalLabel? (context : LoweringContext) (owned : Variable) : Option Label :=
  match context.frames.storage? owned.node.id with
  | some (.global slot) => some slot.label
  | _ => none

/-- The chunks that are finished between two states have the labels of functions and of
global variables, and labels that were drawn for string constants. -/
def Names (context : LoweringContext) (state final : LoweringState) (contents : Contents) :
    Prop :=
  ∃ texts : List Label, texts.Nodup ∧
    (∀ label ∈ texts, ∃ number, state.labels.issued ≤ number ∧ number < final.labels.issued ∧
      label = .anonymous number) ∧
    ∀ label, (final.chunks.map Chunk.label).count label =
      (state.chunks.map Chunk.label).count label + texts.count label +
        (functionLabels context contents).count label +
        (contents.allVariables.filterMap (globalLabel? context)).count label

/-- Between two states, the chunks of a part of a program are finished. -/
structure Emits (context : LoweringContext) (state final : LoweringState)
    (contents : Contents) : Prop where
  precedes : state.Precedes final
  functions : ∀ function ∈ contents.functions, ∃ chunk ∈ final.chunks,
    Holds context state final function chunk
  globals : ∀ owned ∈ contents.locals, ∀ slot,
    context.frames.storage? owned.node.id = some (.global slot) → .global slot ∈ final.chunks
  stems : ∀ chunk ∈ final.chunks, chunk ∈ state.chunks ∨ Stems context state final contents chunk
  names : Names context state final contents

section Emission

variable {context : LoweringContext} {state middle final : LoweringState}
  {first second : Contents}

theorem Holds.widen {start last : LoweringState} {function : Function} {chunk : Chunk}
    (holds : Holds context start last function chunk) (lower : state.Precedes start)
    (upper : last.Precedes final) : Holds context state final function chunk := by
  obtain ⟨begin, value, done, frame, before, lowered, after, found, same⟩ := holds
  exact ⟨begin, value, done, frame, lower.trans before, lowered, after.trans upper, found, same⟩

theorem Stems.widen {start last : LoweringState} {contents more : Contents} {chunk : Chunk}
    (stems : Stems context start last contents chunk) (lower : state.Precedes start)
    (upper : last.Precedes final) (includes : contents.functions ⊆ more.functions) :
    Stems context state final more chunk := by
  cases chunk with
  | code frame body =>
      obtain ⟨function, member, holds⟩ := stems
      exact ⟨function, includes member, holds.widen lower upper⟩
  | data slot text =>
      obtain ⟨number, above, below, rfl⟩ := stems
      exact ⟨number, lower.labels.trans above, below.trans_le upper.labels, rfl⟩
  | global slot => exact stems

theorem Names.append (left : Names context state middle first)
    (right : Names context middle final second) (lower : state.Precedes middle)
    (upper : middle.Precedes final) : Names context state final (first ++ second) := by
  obtain ⟨texts, once, drawn, counts⟩ := left
  obtain ⟨others, otherOnce, otherDrawn, otherCounts⟩ := right
  refine ⟨texts ++ others, ?_, ?_, ?_⟩
  · refine List.nodup_append'.mpr ⟨once, otherOnce, fun label isText isOther => ?_⟩
    obtain ⟨number, -, below, rfl⟩ := drawn label isText
    obtain ⟨other, above, -, same⟩ := otherDrawn _ isOther
    have same := Label.anonymous.inj same
    omega
  · intro label member
    rcases List.mem_append.mp member with isText | isOther
    · obtain ⟨number, above, below, rfl⟩ := drawn label isText
      exact ⟨number, above, below.trans_le upper.labels, rfl⟩
    · obtain ⟨number, above, below, rfl⟩ := otherDrawn label isOther
      exact ⟨number, lower.labels.trans above, below, rfl⟩
  · intro label
    have counted := counts label
    have otherCounted := otherCounts label
    simp only [functionLabels, Contents.allVariables, Contents.functions_append,
      Contents.locals_append, List.filterMap_append, List.flatMap_append, List.count_append]
      at counted otherCounted ⊢
    omega

/-- A function has a label of its own. -/
theorem Names.function {function : Function} {frame : Frame} {body : IR.Stmt}
    (names : Names context state middle function.contents)
    (found : context.frames.frame? function.node.id = some frame) :
    Names context state (middle.withChunk (.code frame body)) (.ofFunction function) := by
  obtain ⟨texts, once, drawn, counts⟩ := names
  refine ⟨texts, once, drawn, fun label => ?_⟩
  have counted := counts label
  simp only [functionLabels, Contents.allVariables, Contents.ofFunction, LoweringState.withChunk,
    List.map_append, List.map_cons, List.map_nil, List.filterMap_cons, List.flatMap_cons, found,
    Option.map_some, List.count_append, List.count_cons, List.count_nil, Chunk.label,
    List.filterMap_append, List.filterMap_nil] at counted ⊢
  omega

namespace Emits

theorem append (left : Emits context state middle first)
    (right : Emits context middle final second) : Emits context state final (first ++ second) where
  precedes := left.precedes.trans right.precedes
  functions function member := by
    rcases List.mem_append.mp member with member | member
    · obtain ⟨chunk, isThere, holds⟩ := left.functions function member
      exact ⟨chunk, right.precedes.chunks.mem isThere, holds.widen (.refl _) right.precedes⟩
    · obtain ⟨chunk, isThere, holds⟩ := right.functions function member
      exact ⟨chunk, isThere, holds.widen left.precedes (.refl _)⟩
  globals owned member slot found := by
    rcases List.mem_append.mp member with member | member
    · exact right.precedes.chunks.mem (left.globals owned member slot found)
    · exact right.globals owned member slot found
  stems chunk isThere := by
    rcases right.stems chunk isThere with isThere | stems
    · rcases left.stems chunk isThere with isThere | stems
      · exact .inl isThere
      · exact .inr (stems.widen (.refl _) right.precedes (List.subset_append_left ..))
    · exact .inr (stems.widen left.precedes (.refl _) (List.subset_append_right ..))
  names := left.names.append right.names left.precedes right.precedes

/-- A part without functions and variables may draw what it wants. -/
theorem none {contents : Contents} (precedes : state.Precedes final)
    (noFunctions : contents.functions = []) (noLocals : contents.locals = [])
    (same : final.chunks = state.chunks) : Emits context state final contents where
  precedes := precedes
  functions := by simp [noFunctions]
  globals := by simp [noLocals]
  stems chunk isThere := .inl (same ▸ isThere)
  names := by
    refine ⟨[], .nil, by simp, fun label => ?_⟩
    simp [functionLabels, Contents.allVariables, noFunctions, noLocals, same]

/-- More may be drawn behind a part. -/
theorem behind (emits : Emits context state middle first) (precedes : middle.Precedes final)
    (same : final.chunks = middle.chunks) : Emits context state final first where
  precedes := emits.precedes.trans precedes
  functions function member := by
    obtain ⟨chunk, isThere, holds⟩ := emits.functions function member
    exact ⟨chunk, precedes.chunks.mem isThere, holds.widen (.refl _) precedes⟩
  globals owned member slot found :=
    precedes.chunks.mem (emits.globals owned member slot found)
  stems chunk isThere := by
    rw [same] at isThere
    exact (emits.stems chunk isThere).imp_right fun stems =>
      stems.widen (.refl _) precedes (List.Subset.refl _)
  names := by
    obtain ⟨texts, once, drawn, counts⟩ := emits.names
    refine ⟨texts, once, fun label member => ?_, fun label => by rw [same]; exact counts label⟩
    obtain ⟨number, above, below, rfl⟩ := drawn label member
    exact ⟨number, above, below.trans_le precedes.labels, rfl⟩

/-- A function is finished after what is defined within it. -/
theorem function {function : Function} {value : IR.Expr} {frame : Frame}
    (emits : Emits context state middle function.contents)
    (lowered : ofExpr context function.depth function.body state = .ok (.expr value) middle)
    (found : context.frames.frame? function.node.id = some frame) :
    Emits context state (middle.withChunk (.code frame (functionBody value)))
      (.ofFunction function) := by
  have behind : middle.Precedes (middle.withChunk (.code frame (functionBody value))) :=
    ⟨Nat.le_refl _, Nat.le_refl _, List.prefix_append ..⟩
  have holds : Holds context state (middle.withChunk (.code frame (functionBody value))) function
      (.code frame (functionBody value)) :=
    ⟨state, value, middle, frame, .refl _, lowered, behind, found, rfl⟩
  refine ⟨emits.precedes.trans behind, fun other member => ?_, by simp [Contents.ofFunction],
    fun chunk isThere => ?_, emits.names.function found⟩
  · rcases List.mem_cons.mp member with rfl | member
    · exact ⟨_, List.mem_append_right _ (List.mem_singleton_self _), holds⟩
    · obtain ⟨chunk, isThere, holds⟩ := emits.functions other member
      exact ⟨chunk, List.mem_append_left _ isThere, holds.widen (.refl _) behind⟩
  · rcases List.mem_append.mp isThere with isThere | isThere
    · exact (emits.stems chunk isThere).imp_right fun stems =>
        stems.widen (.refl _) behind (List.subset_cons_self ..)
    · obtain rfl := List.mem_singleton.mp isThere
      exact .inr ⟨function, List.mem_cons_self .., holds⟩

end Emits

end Emission

/-! ### Trees -/

section Trees

variable {context : LoweringContext}

theorem ofBinary_quiet {node : Node} {operator : BinaryOperator} {left right value : IR.Expr}
    {state final : LoweringState}
    (lowered : ofBinary context node operator left right state = .ok value final) :
    state.Precedes final ∧ final.chunks = state.chunks := by
  cases operator with
  | compute operator =>
      obtain ⟨-, rfl⟩ := Outcome.pure_eq_ok.mp lowered
      exact ⟨.refl _, rfl⟩
  | index =>
      obtain ⟨_, -, -, rfl⟩ := ofBinary_index_eq_ok.mp lowered
      exact ⟨.refl _, rfl⟩
  | assign =>
      cases left with
      | mem address =>
          rw [ofBinary_assign_mem_eq_ok] at lowered
          split at lowered
          · obtain ⟨-, rfl⟩ := lowered
            exact ⟨.refl _, rfl⟩
          · obtain ⟨-, rfl⟩ := lowered
            exact ⟨(LoweringState.Draws.afterTemp state).precedes, rfl⟩
      | const | name | temp | binop | call | eseq =>
          obtain ⟨-, rfl⟩ := Outcome.pure_eq_ok.mp lowered
          exact ⟨.refl _, rfl⟩

theorem afterLabels_quiet (state : LoweringState) :
    state.Precedes state.afterLabels ∧ state.afterLabels.chunks = state.chunks :=
  ⟨(LoweringState.Draws.afterLabels state).precedes, rfl⟩

mutual

theorem ofExpr_emits : (expression : Source.Expr) → (around : List NodeId) →
    {state final : LoweringState} → {code : Lowered} →
    ofExpr context around.length expression state = .ok code final →
    Emits context state final (expression.contents around)
  | .literal _ (.int _), _, _, _, _, lowered => by
      obtain ⟨-, rfl⟩ := ofExpr_int_eq_ok.mp lowered
      exact .none (.refl _) rfl rfl rfl
  | .literal _ (.log _), _, _, _, _, lowered => by
      obtain ⟨-, rfl⟩ := ofExpr_log_eq_ok.mp lowered
      exact .none (.refl _) rfl rfl rfl
  | .literal _ (.str text), _, state, _, _, lowered => by
      obtain ⟨-, rfl⟩ := ofExpr_str_eq_ok.mp lowered
      have precedes : state.Precedes
          (state.afterLabel.withChunk (.data ⟨Word.size, state.labels.next⟩ text)) :=
        ⟨Nat.le_succ _, Nat.le_refl _, List.prefix_append ..⟩
      refine ⟨precedes, by simp [Source.Expr.contents], by simp [Source.Expr.contents],
        fun chunk isThere => (List.mem_append.mp isThere).imp_right fun isNew => ?_,
        [state.labels.next], List.nodup_singleton _, fun label member => ?_, fun label => ?_⟩
      · obtain rfl := List.mem_singleton.mp isNew
        exact ⟨_, Nat.le_refl _, Nat.lt_succ_self _, rfl⟩
      · exact ⟨_, Nat.le_refl _, Nat.lt_succ_self _, List.mem_singleton.mp member⟩
      · simp [functionLabels, Contents.allVariables, Source.Expr.contents, LoweringState.withChunk,
          LoweringState.afterLabel, Chunk.label]
  | .name .., _, _, _, _, lowered => by
      obtain ⟨_, _, _, -, -, -, -, rfl⟩ := ofExpr_name_eq_ok.mp lowered
      exact .none (.refl _) rfl rfl rfl
  | .unary _ _ operand, around, _, _, _, lowered => by
      obtain ⟨_, operandLowered, -⟩ := ofExpr_unary_eq_ok.mp lowered
      exact ofExpr_emits operand around operandLowered
  | .binary _ _ left right, around, _, _, _, lowered => by
      obtain ⟨_, _, _, _, _, leftLowered, rightLowered, built, -⟩ :=
        ofExpr_binary_eq_ok.mp lowered
      obtain ⟨precedes, same⟩ := ofBinary_quiet built
      exact ((ofExpr_emits left around leftLowered).append
        (ofExpr_emits right around rightLowered)).behind precedes same
  | .call _ _ arguments, around, state, _, _, lowered => by
      obtain ⟨_, _, -, argumentsLowered, -⟩ := ofExpr_call_eq_ok.mp lowered
      have calls : Emits context state state { calls := [arguments.length] } :=
        .none (.refl _) rfl rfl rfl
      exact calls.append (ofArguments_emits arguments around argumentsLowered)
  | .block _ items, around, _, _, _, lowered => by
      obtain ⟨_, _, itemsLowered, -⟩ := ofExpr_block_eq_ok.mp lowered
      exact ofExprs_emits items around itemsLowered
  | .ifThen _ condition thenBranch, around, _, _, _, lowered => by
      obtain ⟨_, _, _, last, tests, branches, rfl, -⟩ := ofExpr_ifThen_eq_ok.mp lowered
      obtain ⟨precedes, same⟩ := afterLabels_quiet last
      exact ((ofExpr_emits condition around tests).append
        (ofExpr_emits thenBranch around branches)).behind precedes same
  | .ifThenElse _ condition thenBranch elseBranch, around, _, _, _, lowered => by
      obtain ⟨_, _, _, _, _, last, tests, branches, others, rfl, -⟩ :=
        ofExpr_ifThenElse_eq_ok.mp lowered
      obtain ⟨precedes, same⟩ := afterLabels_quiet last
      exact (((ofExpr_emits condition around tests).append
        (ofExpr_emits thenBranch around branches)).append
        (ofExpr_emits elseBranch around others)).behind precedes same
  | .whileLoop _ condition body, around, _, _, _, lowered => by
      obtain ⟨_, _, _, last, tests, bodied, rfl, -⟩ := ofExpr_whileLoop_eq_ok.mp lowered
      obtain ⟨precedes, same⟩ := afterLabels_quiet last
      exact ((ofExpr_emits condition around tests).append
        (ofExpr_emits body around bodied)).behind precedes same
  | .forLoop _ counter low high step body, around, state, _, _, lowered => by
      obtain ⟨_, _, _, _, _, _, _, _, _, _, last, rfl, -, lows, highs, steps, bodied, rfl, -⟩ :=
        ofExpr_forLoop_eq_ok.mp lowered
      have counts : Emits context state state {} := .none (.refl _) rfl rfl rfl
      exact ((((counts.append (ofExpr_emits low around lows)).append
        (ofExpr_emits high around highs)).append (ofExpr_emits step around steps)).append
        (ofExpr_emits body around bodied)).behind
        (LoweringState.Draws.afterLoop last).precedes rfl
  | .whereIn _ definitions inner, around, _, _, _, lowered => by
      obtain ⟨_, _, defined, innerLowered, -⟩ := ofExpr_whereIn_eq_ok.mp lowered
      exact (ofDefs_emits definitions around defined).append
        (ofExpr_emits inner around innerLowered)

theorem ofExprs_emits : (expressions : List Source.Expr) → (around : List NodeId) →
    {state final : LoweringState} → {parts : List Lowered} →
    ofExprs context around.length expressions state = .ok parts final →
    Emits context state final (Source.Expr.contentsOfList around expressions)
  | [], _, _, _, _, lowered => by
      obtain ⟨-, rfl⟩ := ofExprs_nil_eq_ok.mp lowered
      exact .none (.refl _) rfl rfl rfl
  | expression :: others, around, _, _, _, lowered => by
      obtain ⟨_, _, _, first, rest, -⟩ := ofExprs_cons_eq_ok.mp lowered
      exact (ofExpr_emits expression around first).append (ofExprs_emits others around rest)

theorem ofArguments_emits : (expressions : List Source.Expr) → (around : List NodeId) →
    {state final : LoweringState} → {values : List IR.Expr} →
    ofArguments context around.length expressions state = .ok values final →
    Emits context state final (Source.Expr.contentsOfList around expressions)
  | [], _, _, _, _, lowered => by
      obtain ⟨-, rfl⟩ := ofArguments_nil_eq_ok.mp lowered
      exact .none (.refl _) rfl rfl rfl
  | expression :: others, around, _, _, _, lowered => by
      obtain ⟨_, _, _, first, rest, -⟩ := ofArguments_cons_eq_ok.mp lowered
      exact (ofExpr_emits expression around first).append (ofArguments_emits others around rest)

theorem ofDef_emits : (definition : Def) → (around : List NodeId) →
    {state final : LoweringState} → ofDef context around.length definition state = .ok () final →
    Emits context state final (definition.contents around)
  | .function node name parameters body, around, _, _, lowered => by
      obtain ⟨_, _, _, bodyLowered, found, rfl⟩ := ofDef_function_eq_ok.mp lowered
      have emits := ofExpr_emits body (node.id :: around) bodyLowered
      exact @Emits.function _ _ _ ⟨node, name, parameters, body, around⟩ _ _ emits bodyLowered found
  | .var node name, _, state, _, lowered => by
      obtain ⟨storage, found, rfl⟩ := ofDef_var_eq_ok.mp lowered
      cases storage with
      | global slot =>
          refine ⟨⟨Nat.le_refl _, Nat.le_refl _, List.prefix_append ..⟩, by simp [Def.contents],
            fun owned member other otherFound => ?_,
            fun chunk isThere => (List.mem_append.mp isThere).imp_right fun isNew => ?_,
            [], .nil, by simp, fun label => ?_⟩
          · obtain rfl := List.mem_singleton.mp member
            obtain ⟨rfl⟩ := Option.some_inj.mp (found.symm.trans otherFound)
            exact List.mem_append_right _ (List.mem_singleton_self _)
          · obtain rfl := List.mem_singleton.mp isNew
            exact ⟨node.id, found⟩
          · simp [functionLabels, Contents.allVariables, Def.contents, LoweringState.withChunk,
              globalLabel?, found, Chunk.label]
      | localVar _ | parameter _ =>
          refine ⟨.refl _, by simp [Def.contents], fun owned member slot otherFound => ?_,
            fun chunk isThere => .inl isThere, [], .nil, by simp, fun label => ?_⟩
          · obtain rfl := List.mem_singleton.mp member
            cases found.symm.trans otherFound
          · simp [functionLabels, Contents.allVariables, Def.contents, globalLabel?, found]
  | .typeAlias .., _, _, _, lowered => by
      obtain rfl := ofDef_typeAlias_eq_ok.mp lowered
      exact .none (.refl _) rfl rfl rfl

theorem ofDefs_emits : (definitions : List Def) → (around : List NodeId) →
    {state final : LoweringState} →
    ofDefs context around.length definitions state = .ok () final →
    Emits context state final (Def.contentsOfList around definitions)
  | [], _, _, _, lowered => by
      obtain rfl := ofDefs_nil_eq_ok.mp lowered
      exact .none (.refl _) rfl rfl rfl
  | definition :: others, around, _, _, lowered => by
      obtain ⟨_, first, rest⟩ := ofDefs_cons_eq_ok.mp lowered
      exact (ofDef_emits definition around first).append (ofDefs_emits others around rest)

end

end Trees

section Supplies

variable {context : LoweringContext} {level : Nat} {state final : LoweringState}

/-! ### The supplies move forward -/

theorem exists_around (level : Nat) : ∃ around : List NodeId, around.length = level :=
  ⟨.replicate level 0, List.length_replicate⟩

theorem ofExpr_precedes {expression : Source.Expr} {code : Lowered}
    (lowered : ofExpr context level expression state = .ok code final) :
    state.Precedes final := by
  obtain ⟨around, rfl⟩ := exists_around level
  exact (ofExpr_emits expression around lowered).precedes

theorem ofExprs_precedes {expressions : List Source.Expr} {parts : List Lowered}
    (lowered : ofExprs context level expressions state = .ok parts final) :
    state.Precedes final := by
  obtain ⟨around, rfl⟩ := exists_around level
  exact (ofExprs_emits expressions around lowered).precedes

theorem ofArguments_precedes {arguments : List Source.Expr} {values : List IR.Expr}
    (lowered : ofArguments context level arguments state = .ok values final) :
    state.Precedes final := by
  obtain ⟨around, rfl⟩ := exists_around level
  exact (ofArguments_emits arguments around lowered).precedes

theorem ofDefs_precedes {definitions : List Def}
    (lowered : ofDefs context level definitions state = .ok () final) :
    state.Precedes final := by
  obtain ⟨around, rfl⟩ := exists_around level
  exact (ofDefs_emits definitions around lowered).precedes

end Supplies

end TreeBackend.Lowering
