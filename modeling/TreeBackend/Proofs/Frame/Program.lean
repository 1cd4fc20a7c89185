import TreeBackend.Proofs.Frame.Walk
import TreeBackend.Proofs.Source.WellFormed

/-!
# The frame table of a program

Laying out a program succeeds exactly if all its variables and parameters have
types.  The table then describes all functions and global variables of the
program, and has no other entries.
-/

namespace TreeBackend.Layout

open Source Outcome

variable {resolution : Resolution}

section Function

variable {labels : LabelSupply} {table : FrameTable} {outer : List Frame} {final : LayoutState}
  {node : Node} {name : String} {parameters : List Parameter} {body : Expr} {around : List NodeId}

/-- The walk over a function enters it and all that is defined within. -/
theorem ofDef_function_succeeds (deep : around.length = outer.length)
    (walks : Walks resolution (outer.length + 1) (body.contents (node.id :: around))
      (ofExpr resolution body))
    (succeeds : ofDef resolution (.function node name parameters body) ⟨labels, table, outer⟩ =
      .ok () final) :
    Enters resolution (.ofFunction ⟨node, name, parameters, body, around⟩) labels table final ∧
      final.growing = outer := by
  simp only [ofDef] at succeeds
  obtain ⟨⟨⟩, entered, starts, afterStart⟩ := bind_eq_ok.mp succeeds
  obtain ⟨label, started, rfl, supply, outermost, nested⟩ := enterFunction_eq_ok starts
  obtain ⟨⟨⟩, ⟨labels', table', growing⟩, places, afterPlaces⟩ := bind_eq_ok.mp afterStart
  obtain ⟨parametersTyped, rfl, rfl, frames, storages, parametersPlaced⟩ :=
    placeParameters_eq_ok places
  obtain ⟨⟨⟩, ⟨finalLabels, finalTable, growing⟩, walked, leaves⟩ := bind_eq_ok.mp afterPlaces
  obtain ⟨enters, rfl, localsPlaced⟩ := walks.succeeds rfl rfl walked
  obtain rfl := (EStateM.Result.ok.inj leaves).2
  have labelled : Function.HasLabel ⟨node, name, parameters, body, around⟩ labels labels'
      label := by
    cases around with
    | nil => exact outermost (List.eq_nil_of_length_eq_zero deep.symm)
    | cons _ _ => exact nested (by rintro rfl; simp at deep)
  refine ⟨⟨?_, supply.trans enters.supply, ?_, ?_, fun nodup => ?_⟩, rfl⟩
  · intro id isOwned
    rw [Contents.ownedIds_ofFunction] at isOwned
    rcases List.mem_append.mp isOwned with isParameter | isInner
    · obtain ⟨parameter, member, rfl⟩ := List.mem_map.mp isParameter
      exact parametersTyped parameter member
    · exact enters.typed id isInner
  · intro id notFunction
    simp only [Contents.ofFunction, List.map_cons, List.mem_cons, not_or] at notFunction
    rw [FrameTable.frame?_addFrame, if_neg (fun same => notFunction.1 same.symm),
      enters.frames id notFunction.2, frames]
  · intro id notOwned
    rw [Contents.ownedIds_ofFunction, List.mem_append, not_or] at notOwned
    rw [FrameTable.storage?_addFrame, enters.storages id notOwned.2, storages id notOwned.1]
  · rw [Contents.ids_ofFunction, List.nodup_cons, List.nodup_append', List.mem_append,
      not_or] at nodup
    obtain ⟨⟨-, notInner⟩, parametersNodup, innerNodup, disjoint⟩ := nodup
    have inner := enters.functions innerNodup
    refine @FunctionsLaidOut.append _ _ _ _ labels' [⟨node, name, parameters, body, around⟩] _
      ?_ ?_ supply enters.supply
    · refine ⟨fun function member => ?_, List.pairwise_singleton ..⟩
      obtain rfl := List.mem_singleton.mp member
      refine ⟨⟨label, labelled, ?_⟩, ?_, ?_⟩
      · rw [FrameTable.frame?_addFrame, if_pos rfl]
        simp [Function.frame, Function.depth, Function.contents, deep]
      · rw [Function.depth, deep]
        refine (parametersPlaced parametersNodup).congr fun parameter member => ?_
        rw [FrameTable.storage?_addFrame]
        exact enters.storages _ fun isInner => disjoint
          (List.mem_map.mpr ⟨parameter, member, rfl⟩) (ownedIds_subset_ids isInner)
      · rw [Function.depth, deep]
        exact (localsPlaced innerNodup).congr fun _ _ => rfl
    · refine inner.congr (Nat.le_refl _) (Nat.le_refl _) (fun other member => ?_) fun _ _ _ _ => rfl
      rw [FrameTable.frame?_addFrame, if_neg]
      intro same
      have inside := Contents.ids_of_mem_functions member (List.mem_cons_self ..)
      exact notInner (same ▸ inside)

theorem ofDef_function_fails {problem : CompileError} (deep : around.length = outer.length)
    (walks : Walks resolution (outer.length + 1) (body.contents (node.id :: around))
      (ofExpr resolution body))
    (fails : ofDef resolution (.function node name parameters body) ⟨labels, table, outer⟩ =
      .error problem final) :
    IsMissingType problem ∧
      ¬Typed resolution (.ofFunction ⟨node, name, parameters, body, around⟩) := by
  simp only [ofDef] at fails
  rcases bind_eq_error.mp fails with starts | ⟨⟨⟩, entered, starts, afterStart⟩
  · cases outer <;> cases starts
  obtain ⟨label, started, rfl, -, -, -⟩ := enterFunction_eq_ok starts
  rcases bind_eq_error.mp afterStart with places | ⟨⟨⟩, ⟨labels', table', _⟩, places, afterPlaces⟩
  · obtain ⟨missing, parameter, member, untyped⟩ := placeParameters_eq_error places
    refine ⟨missing, fun typed => ?_⟩
    have isTyped := typed parameter.node.id (by
      rw [Contents.ownedIds_ofFunction]
      exact List.mem_append_left _ (List.mem_map.mpr ⟨parameter, member, rfl⟩))
    simp [untyped] at isTyped
  obtain ⟨-, rfl, rfl, -, -, -⟩ := placeParameters_eq_ok places
  rcases bind_eq_error.mp afterPlaces with walked | ⟨⟨⟩, ⟨_, _, _⟩, walked, leaves⟩
  · obtain ⟨missing, untyped⟩ := walks.fails rfl rfl walked
    refine ⟨missing, fun typed => untyped fun id isInner => typed id ?_⟩
    rw [Contents.ownedIds_ofFunction]
    exact List.mem_append_right _ isInner
  · obtain ⟨-, rfl, -⟩ := walks.succeeds rfl rfl walked
    cases leaves

/-- A function leaves the frames around it as they are. -/
theorem Walks.function (walks : Walks resolution (around.length + 1)
    (body.contents (node.id :: around)) (ofExpr resolution body)) :
    Walks resolution around.length (.ofFunction ⟨node, name, parameters, body, around⟩)
      (ofDef resolution (.function node name parameters body)) where
  succeeds {labels table frame outer final} _ deep succeeds := by
    have same : around.length = (frame :: outer).length := deep.symm
    obtain ⟨enters, grown⟩ := ofDef_function_succeeds same (same ▸ walks) succeeds
    refine ⟨enters, ?_, fun _ => trivial⟩
    simp [grown, Frame.withContents, Contents.ofFunction]
  fails {labels table frame outer problem final} _ deep fails := by
    have same : around.length = (frame :: outer).length := deep.symm
    exact ofDef_function_fails same (same ▸ walks) fails

end Function

mutual

theorem walks_ofExpr : (expression : Expr) → (around : List NodeId) →
    Walks resolution around.length (expression.contents around) (ofExpr resolution expression)
  | .literal .., _ | .name .., _ => .nil
  | .unary _ _ operand, around => walks_ofExpr operand around
  | .binary _ _ left right, around => (walks_ofExpr left around).append (walks_ofExpr right around)
  | .call node name arguments, around =>
      (Walks.call node name arguments.length).append (walks_ofExprs arguments around)
  | .block _ items, around => walks_ofExprs items around
  | .ifThen _ condition thenBranch, around =>
      (walks_ofExpr condition around).append (walks_ofExpr thenBranch around)
  | .ifThenElse _ condition thenBranch elseBranch, around => by
      have walks := (walks_ofExpr condition around).append
        ((walks_ofExpr thenBranch around).append (walks_ofExpr elseBranch around))
      rwa [← Contents.append_assoc] at walks
  | .whileLoop _ condition body, around =>
      (walks_ofExpr condition around).append (walks_ofExpr body around)
  | .forLoop _ counter low high step body, around => by
      have walks := (walks_ofExpr counter around).append ((walks_ofExpr low around).append
        ((walks_ofExpr high around).append
          ((walks_ofExpr step around).append (walks_ofExpr body around))))
      rwa [← Contents.append_assoc, ← Contents.append_assoc, ← Contents.append_assoc] at walks
  | .whereIn _ definitions inner, around =>
      (walks_ofDefs definitions around).append (walks_ofExpr inner around)

theorem walks_ofExprs : (expressions : List Expr) → (around : List NodeId) →
    Walks resolution around.length (Expr.contentsOfList around expressions)
      (ofExprs resolution expressions)
  | [], _ => .nil
  | expression :: rest, around =>
      (walks_ofExpr expression around).append (walks_ofExprs rest around)

theorem walks_ofDef : (definition : Def) → (around : List NodeId) →
    Walks resolution around.length (definition.contents around) (ofDef resolution definition)
  | .function node _ _ body, around => .function (walks_ofExpr body (node.id :: around))
  | .var node name, _ => .localVariable node name
  | .typeAlias .., _ => .nil

theorem walks_ofDefs : (definitions : List Def) → (around : List NodeId) →
    Walks resolution around.length (Def.contentsOfList around definitions)
      (ofDefs resolution definitions)
  | [], _ => .nil
  | definition :: rest, around =>
      (walks_ofDef definition around).append (walks_ofDefs rest around)

end

/-! ### Outside all functions -/

section Outermost

variable {labels : LabelSupply} {table : FrameTable} {final : LayoutState}

theorem placeVariable_outermost_succeeds {node : Node} {name : String}
    (succeeds : placeVariable resolution node name ⟨labels, table, []⟩ = .ok () final) :
    Enters resolution { locals := [⟨node, name⟩] } labels table final ∧ final.growing = [] ∧
      GlobalsPlaced resolution final.table [⟨node, name⟩] := by
  cases known : resolution.typeOf? node.id with
  | none => simp [placeVariable, known] at succeeds
  | some ty =>
      obtain rfl : _ = final := by simpa [placeVariable, known] using succeeds
      refine ⟨⟨fun id member => ?_, Nat.le_refl _, fun _ _ => rfl, fun id other => ?_,
        fun _ => ⟨by simp, .nil⟩⟩, rfl, ?_⟩
      · obtain rfl : id = node.id := by simpa [Contents.ownedIds] using member
        simp [known]
      · have different : node.id ≠ id := by simpa [Contents.ownedIds, eq_comm] using other
        simp [different]
      · simp [GlobalsPlaced, Resolution.storageSize, known]

theorem ofDef_outermost_succeeds : {definition : Def} →
    ofDef resolution definition ⟨labels, table, []⟩ = .ok () final →
      Enters resolution (definition.contents []) labels table final ∧ final.growing = [] ∧
        GlobalsPlaced resolution final.table (definition.contents []).locals
  | .function node _ _ body, succeeds => by
      obtain ⟨enters, grown⟩ := ofDef_function_succeeds rfl (walks_ofExpr body [node.id]) succeeds
      exact ⟨enters, grown, fun owned member => by simp [Def.contents] at member⟩
  | .var _ _, succeeds => placeVariable_outermost_succeeds succeeds
  | .typeAlias .., succeeds => by
      obtain ⟨-, rfl⟩ := pure_eq_ok.mp succeeds
      exact ⟨⟨fun id member => by simp [Contents.ownedIds, Def.contents] at member, Nat.le_refl _,
        fun _ _ => rfl, fun _ _ => rfl, fun _ => ⟨by simp [Def.contents], .nil⟩⟩, rfl,
        fun owned member => by simp [Def.contents] at member⟩

theorem ofDef_outermost_fails : {definition : Def} → {problem : CompileError} →
    ofDef resolution definition ⟨labels, table, []⟩ = .error problem final →
      IsMissingType problem ∧ ¬Typed resolution (definition.contents [])
  | .function node _ _ body, _, fails =>
      ofDef_function_fails rfl (walks_ofExpr body [node.id]) fails
  | .var node name, problem, fails => by
      cases known : resolution.typeOf? node.id with
      | none =>
          obtain ⟨rfl, -⟩ : _ = problem ∧ _ = final := by
            simpa [ofDef, placeVariable, known] using fails
          refine ⟨⟨_, _, rfl⟩, fun typed => ?_⟩
          simpa [known] using typed node.id (by simp [Contents.ownedIds, Def.contents])
      | some ty => simp [ofDef, placeVariable, known] at fails
  | .typeAlias .., _, fails => (pure_ne_error fails).elim

/-- The walk over definitions outside all functions. -/
theorem ofDefs_outermost_succeeds {definitions : List Def}
    (succeeds : ofDefs resolution definitions ⟨labels, table, []⟩ = .ok () final) :
    Enters resolution (Def.contentsOfList [] definitions) labels table final ∧
      final.growing = [] ∧ ((Def.contentsOfList [] definitions).ids.Nodup →
        GlobalsPlaced resolution final.table (Def.contentsOfList [] definitions).locals) := by
  induction definitions generalizing labels table with
  | nil =>
      obtain ⟨-, rfl⟩ := pure_eq_ok.mp succeeds
      exact ⟨⟨fun id member => by simp [Contents.ownedIds, Def.contentsOfList] at member,
        Nat.le_refl _, fun _ _ => rfl, fun _ _ => rfl,
        fun _ => ⟨by simp [Def.contentsOfList], .nil⟩⟩, rfl,
        fun _ owned member => by simp [Def.contentsOfList] at member⟩
  | cons definition rest ih =>
      obtain ⟨⟨⟩, ⟨middleLabels, middleTable, _⟩, first, others⟩ := bind_eq_ok.mp succeeds
      obtain ⟨entersFirst, rfl, firstPlaced⟩ := ofDef_outermost_succeeds first
      obtain ⟨entersOthers, grown, othersPlaced⟩ := ih others
      refine ⟨entersFirst.append entersOthers, grown, fun nodup owned member => ?_⟩
      obtain ⟨-, othersNodup, disjoint⟩ := Contents.nodup_ids_append.mp nodup
      rcases List.mem_append.mp member with member | member
      · have kept := (entersOthers.keeps disjoint).2 owned.node.id
          (List.mem_append_left _ (List.mem_map.mpr ⟨owned, member, rfl⟩))
        exact kept.trans (firstPlaced owned member)
      · exact othersPlaced othersNodup owned member

theorem ofDefs_outermost_fails {definitions : List Def} {problem : CompileError}
    (fails : ofDefs resolution definitions ⟨labels, table, []⟩ = .error problem final) :
    IsMissingType problem ∧ ¬Typed resolution (Def.contentsOfList [] definitions) := by
  induction definitions generalizing labels table with
  | nil => exact (pure_ne_error fails).elim
  | cons definition rest ih =>
      rcases bind_eq_error.mp fails with first | ⟨⟨⟩, ⟨_, _, _⟩, first, others⟩
      · obtain ⟨missing, untyped⟩ := ofDef_outermost_fails first
        exact ⟨missing, fun typed => untyped (typed_append.mp typed).1⟩
      · obtain ⟨-, rfl, -⟩ := ofDef_outermost_succeeds first
        obtain ⟨missing, untyped⟩ := ih others
        exact ⟨missing, fun typed => untyped (typed_append.mp typed).2⟩

end Outermost

end TreeBackend.Layout

namespace TreeBackend

open Source

/-- A table describes a program whose definitions have different numbers, and
nothing else. -/
structure Source.Program.LaidOut (program : Program) (table : FrameTable)
    (labels : LabelSupply) : Prop where
  functions : FunctionsLaidOut program.resolution table {} labels program.functions
  globals : GlobalsPlaced program.resolution table program.globals
  frames : ∀ id, (table.frame? id).isSome = true ↔ id ∈ program.functionIds
  storages : ∀ id, (table.storage? id).isSome = true → id ∈ program.contents.ownedIds

/-- If a program can be laid out, then it is typed and the table describes it. -/
theorem Layout.ofProgram_succeeds {program : Program} {table : FrameTable}
    {supply labels : LabelSupply}
    (succeeds : Layout.ofProgram program supply = .ok (table, labels)) :
    program.isTyped = true ∧ (program.definitionIds.Nodup → program.LaidOut table labels) := by
  unfold Layout.ofProgram at succeeds
  split at succeeds
  · next final walked =>
      obtain ⟨rfl, rfl⟩ := Prod.mk.inj (Except.ok.inj succeeds)
      obtain ⟨enters, -, placed⟩ := ofDefs_outermost_succeeds walked
      refine ⟨List.all_eq_true.mpr enters.typed, fun nodup => ?_⟩
      have functions := (enters.functions nodup).congr (Nat.zero_le supply.issued) (Nat.le_refl _)
        (fun _ _ => rfl) fun _ _ _ _ => rfl
      refine ⟨functions, placed nodup, fun id => ?_, fun id found => ?_⟩
      · rw [← program.map_functions]
        constructor
        · intro found
          by_contra notFunction
          rw [enters.frames id notFunction] at found
          cases found
        · intro isFunction
          obtain ⟨function, member, rfl⟩ := List.mem_map.mp isFunction
          obtain ⟨_, _, found⟩ := ((enters.functions nodup).each function member).frame
          simp [found]
      · by_contra notOwned
        rw [enters.storages id notOwned] at found
        cases found
  · cases succeeds

/-- Laying out a program fails only if the program is not typed. -/
theorem Layout.ofProgram_fails {program : Program} {problem : CompileError}
    (fails : Layout.ofProgram program {} = .error problem) :
    IsMissingType problem ∧ program.isTyped = false := by
  unfold Layout.ofProgram at fails
  split at fails
  · cases fails
  · next final walked =>
      obtain rfl := Except.error.inj fails
      obtain ⟨missing, untyped⟩ := ofDefs_outermost_fails walked
      refine ⟨missing, Bool.eq_false_iff.mpr fun typed => untyped ?_⟩
      exact List.all_eq_true.mp typed

end TreeBackend
