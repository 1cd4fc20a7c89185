import TreeBackend.Proofs.Acceptance
import TreeBackend.Proofs.CompiledChunks
import TreeBackend.Proofs.Flattening.Labels

/-!
# Where labels are defined

The layout of frames draws labels for nested functions, lowering goes on with the same
supply, and flattening moves code around.  In the end each label that was drawn belongs to
one place of the output, and each jump goes to a place of the code in which it stands.
-/

namespace TreeBackend

open Source (Program AssignToCells AssignToReferences)
open Lowering
open IR (Chunk Stmt Event)

namespace IR.Chunk

/-- The labels that a chunk defines: its own, and those of the places in its code. -/
def definedLabels : Chunk → List Label
  | .code frame body => frame.label :: body.labels
  | .data slot _ => [slot.label]
  | .global slot => [slot.label]

/-- The label of a chunk, unless it is known from within code. -/
def outerLabels : Chunk → List Label
  | .code frame _ => [frame.label]
  | .data .. => []
  | .global slot => [slot.label]

theorem definedLabels_eq (chunk : Chunk) :
    chunk.definedLabels = chunk.outerLabels ++ chunk.innerLabels := by
  cases chunk <;> rfl

theorem count_outerLabels_le (chunks : List Chunk) (label : Label) :
    (chunks.flatMap outerLabels).count label ≤ (chunks.map Chunk.label).count label := by
  induction chunks with
  | nil => simp
  | cons chunk rest ih =>
      have own : chunk.outerLabels.count label ≤ [chunk.label].count label := by
        cases chunk with
        | code | global => exact Nat.le_refl _
        | data => exact Nat.zero_le _
      rw [List.flatMap_cons, List.count_append, List.map_cons, List.count_cons]
      rw [List.count_singleton] at own
      omega

theorem count_definedLabels (chunks : List Chunk) (label : Label) :
    (chunks.flatMap definedLabels).count label =
      (chunks.flatMap outerLabels).count label + (chunks.flatMap innerLabels).count label := by
  induction chunks with
  | nil => rfl
  | cons chunk rest ih =>
      simp only [List.flatMap_cons, List.count_append, definedLabels_eq chunk, ih]
      omega

end IR.Chunk

section Lowered

variable {program : Program} {table : FrameTable} {labels : LabelSupply}
  {state : LoweringState} {number : Nat}

/-- A function that is called by a label that was drawn is nested. -/
theorem Source.Function.HasLabel.isNested {function : Source.Function}
    {first last : LabelSupply} (labelled : function.HasLabel first last (.anonymous number)) :
    function.around ≠ [] := fun outermost => by cases labelled.eq_named outermost

/-- Nested functions are called by different labels. -/
theorem count_functionLabels_le_one (laid : program.LaidOut table labels) (number : Nat) :
    (functionLabels ⟨program.resolution, table⟩ program.contents).count
      (.anonymous number) ≤ 1 := by
  have apart : (functionLabels ⟨program.resolution, table⟩ program.contents).Pairwise
      fun label other => label = .anonymous number → other ≠ .anonymous number := by
    rw [functionLabels, List.pairwise_filterMap]
    refine laid.functions.apart.imp_of_mem fun {first second} isFirst isSecond apart => ?_
    rintro _ found _ otherFound rfl rfl
    obtain ⟨own, labelled, ownFrame⟩ := (laid.functions.each first isFirst).frame
    obtain ⟨their, theirLabelled, theirFrame⟩ := (laid.functions.each second isSecond).frame
    rw [ownFrame] at found
    rw [theirFrame] at otherFound
    obtain rfl : own = .anonymous number := Option.some_inj.mp found
    obtain rfl : their = .anonymous number := Option.some_inj.mp otherFound
    exact apart labelled.isNested theirLabelled.isNested _ _ ownFrame theirFrame rfl
  have once : ((functionLabels ⟨program.resolution, table⟩ program.contents).filter
      (· = .anonymous number)).Nodup := by
    refine (apart.filter _).imp_of_mem fun isFirst isSecond differ same => ?_
    obtain rfl := of_decide_eq_true (List.mem_filter.mp isFirst).2
    exact differ rfl same.symm
  have atMostOnce := List.nodup_iff_count_le_one.mp once (.anonymous number)
  rwa [List.count_filter (by simp)] at atMostOnce

/-- The frames of functions and the global variables have names, or labels that the layout
has drawn. -/
theorem lt_of_mem_outerLabels (laid : program.LaidOut table labels)
    (emits : Emits ⟨program.resolution, table⟩ { labels } state program.contents)
    (member : .anonymous number ∈ state.chunks.flatMap Chunk.outerLabels) :
    number < labels.issued := by
  obtain ⟨chunk, isThere, isOuter⟩ := List.mem_flatMap.mp member
  have stems := (emits.stems chunk isThere).resolve_left (List.not_mem_nil)
  cases chunk with
  | data => cases isOuter
  | code frame body =>
      obtain ⟨function, isFunction, _, _, _, _, -, -, -, found, same⟩ := stems
      obtain ⟨rfl, -⟩ := Chunk.code.inj same
      obtain ⟨own, labelled, ownFrame⟩ := (laid.functions.each function isFunction).frame
      obtain rfl := Option.some_inj.mp (found.symm.trans ownFrame)
      obtain rfl : own = .anonymous number := (List.mem_singleton.mp isOuter).symm
      obtain ⟨other, below, same⟩ := labelled.eq_anonymous labelled.isNested
      rwa [Label.anonymous.inj same]
  | global slot =>
      obtain ⟨definition, found⟩ := stems
      obtain ⟨owned, -, -, named⟩ := exists_global laid found
      have same : Label.anonymous number = slot.label := List.mem_singleton.mp isOuter
      cases same.trans named

/-- Each label that was drawn is defined at most once in lowered code. -/
theorem count_definedLabels_le_one (laid : program.LaidOut table labels)
    (emits : Emits ⟨program.resolution, table⟩ { labels } state program.contents)
    (draws : LoweringState.Draws { labels } state [] []) (number : Nat) :
    (state.chunks.flatMap Chunk.definedLabels).count (.anonymous number) ≤ 1 := by
  obtain ⟨inner, sameInner, once, drawn⟩ := draws.inner
  obtain rfl : state.chunks.flatMap Chunk.innerLabels = inner := sameInner
  rw [Chunk.count_definedLabels]
  by_cases early : number < labels.issued
  · -- The layout has drawn the label, so it is that of a nested function.
    have notInner : .anonymous number ∉ state.chunks.flatMap Chunk.innerLabels := by
      intro member
      obtain ⟨_, above, -, same⟩ := drawn _ member
      obtain rfl := Label.anonymous.inj same
      exact absurd early (Nat.not_lt.mpr above)
    have outer := Chunk.count_outerLabels_le state.chunks (.anonymous number)
    obtain ⟨texts, -, textsDrawn, counts⟩ := emits.names
    have notText : .anonymous number ∉ texts := by
      intro member
      obtain ⟨_, above, -, same⟩ := textsDrawn _ member
      obtain rfl := Label.anonymous.inj same
      exact absurd early (Nat.not_lt.mpr above)
    have notGlobal : .anonymous number ∉ program.globals.map fun owned => Label.named owned.name := by
      simp
    rw [counts, List.count_eq_zero.mpr notText, filterMap_globalLabel? laid,
      List.count_eq_zero.mpr notGlobal] at outer
    have functions := count_functionLabels_le_one laid number
    rw [List.count_eq_zero.mpr notInner]
    simp only [List.map_nil, List.count_nil] at outer
    omega
  · -- Lowering has drawn the label, so it is that of a place or of a string constant.
    have notOuter : .anonymous number ∉ state.chunks.flatMap Chunk.outerLabels :=
      fun member => early (lt_of_mem_outerLabels laid emits member)
    rw [List.count_eq_zero.mpr notOuter, Nat.zero_add]
    exact List.nodup_iff_count_le_one.mp (by simpa using once) _

end Lowered

section Flattened

open Flattening

theorem flatMap_definedLabels_flattened {chunks flat : List Chunk} {supply rest : IR.TempSupply}
    (flattened : ofChunks chunks supply = .ok (flat, rest)) :
    flat.flatMap Chunk.definedLabels = chunks.flatMap Chunk.definedLabels := by
  have pairs := ofChunks_flattens flattened
  clear flattened
  induction pairs with
  | nil => rfl
  | @cons chunk result _ _ flattens _ ih =>
      rw [List.flatMap_cons, List.flatMap_cons, ih]
      cases chunk with
      | code frame body =>
          obtain ⟨_, _, items, -, bodyFlat, rfl⟩ := flattens
          have kept : Stmt.labelsOfList items = body.labels := by
            rw [← definedLabels_of_arePlain (ofStmt_arePlain body bodyFlat),
              ofStmt_labels body bodyFlat]
          rw [Chunk.definedLabels, Chunk.definedLabels, Stmt.labels, kept]
      | data _ _ | global _ =>
          obtain rfl := flattens
          rfl

variable {program : Program} {table : FrameTable} {chunks : List Chunk}
  {function : Source.Function} {items : List Stmt}

theorem Source.Function.CompilesTo.nodup_definedLabels
    (compiles : function.CompilesTo program table chunks items)
    (assign : AssignToCells function.body.parts) : (definedLabels items).Nodup := by
  obtain ⟨_, value, _, _, _, lowered, -, -, flattened⟩ := compiles
  rw [ofStmt_labels _ flattened]
  have once := (ofExpr_draws function.body assign lowered).once
  rwa [toStmt_labels] at once

/-- A jump in a compiled function goes to one place in it. -/
theorem Source.Function.CompilesTo.count_target
    (compiles : function.CompilesTo program table chunks items)
    (assign : AssignToCells function.body.parts) {statement : Stmt}
    (member : statement ∈ items) {target : Label} (isTarget : target ∈ statement.targets) :
    (definedLabels items).count target = 1 := by
  obtain ⟨event, isEvent, isTarget⟩ := List.mem_flatMap.mp isTarget
  have defined : .label target ∈ Stmt.eventsOfList items :=
    compiles.behaves.targets event (Stmt.mem_eventsOfList.mpr ⟨statement, member, isEvent⟩) target
      isTarget
  have plain : ArePlain items := by
    obtain ⟨_, _, _, _, _, -, -, -, flattened⟩ := compiles
    exact ofStmt_arePlain _ flattened
  refine List.count_eq_one_of_mem (compiles.nodup_definedLabels assign) ?_
  rw [definedLabels_of_arePlain plain, Stmt.labelsOfList_eq_filterMap]
  exact List.mem_filterMap.mpr ⟨_, defined, rfl⟩

end Flattened

section Compiled

variable {program : Program} {chunks : List Chunk}

/-- In compiled code each label that was drawn is defined at most once, and a jump goes to
the only place of that label in the code in which it stands. -/
theorem compile_defines_labels_once (distinct : program.definitionIds.Nodup)
    (assign : AssignToReferences program.parts) (compiled : compile program = .ok chunks) :
    (∀ number, (chunks.flatMap Chunk.definedLabels).count (.anonymous number) ≤ 1) ∧
    ∀ frame body, .code frame body ∈ chunks → ∃ items, body = .seq items ∧
      ∀ statement ∈ items, ∀ target ∈ statement.targets,
        (Flattening.definedLabels items).count target = 1 := by
  obtain ⟨table, labels, state, rest, layout, lowered, flattened⟩ := compile_eq_ok.mp compiled
  have laid := (Layout.ofProgram_succeeds layout).2 distinct
  constructor
  · intro number
    rw [flatMap_definedLabels_flattened flattened]
    exact count_definedLabels_le_one laid (ofDefs_emits program.definitions [] lowered)
      (ofDefs_draws program.definitions assign.toCells lowered) number
  · intro frame body member
    obtain ⟨function, isFunction, -, items, rfl, compiles⟩ :=
      exists_compilesTo lowered flattened member
    exact ⟨items, rfl, fun statement isThere target isTarget => compiles.count_target
      (assign.toCells.mono (Program.parts_body_subset isFunction)) isThere isTarget⟩

/-- The demonstration program has conditionals, a loop, a nested function and a string. -/
theorem compile_defines_labels_once_demo :
    Demo.program.definitionIds.Nodup ∧ AssignToReferences Demo.program.parts ∧
      ∃ chunks, compile Demo.program = .ok chunks ∧
        (∀ number, (chunks.flatMap Chunk.definedLabels).count (.anonymous number) ≤ 1) ∧
        ∀ frame body, .code frame body ∈ chunks → ∃ items, body = .seq items ∧
          ∀ statement ∈ items, ∀ target ∈ statement.targets,
            (Flattening.definedLabels items).count target = 1 := by
  have distinct : Demo.program.definitionIds.Nodup := by decide +kernel
  have assign : AssignToReferences Demo.program.parts := by decide +kernel
  have wellFormed : Demo.program.isWellFormed = true := by decide +kernel
  obtain ⟨-, chunks, compiled⟩ | ⟨malformed, -⟩ := compile_verdict distinct
  case inr => cases malformed.symm.trans wellFormed
  exact ⟨distinct, assign, chunks, compiled, compile_defines_labels_once distinct assign compiled⟩

end Compiled

end TreeBackend
