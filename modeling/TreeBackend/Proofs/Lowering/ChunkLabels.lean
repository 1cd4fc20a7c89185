import TreeBackend.Proofs.Frame.Program
import TreeBackend.Proofs.Lowering.Emission
import TreeBackend.Proofs.Lowering.Verdict
import TreeBackend.Proofs.Source.Scoping

/-!
# The labels of chunks

No two chunks of a program have the same label, provided that what lies outside all
functions has different names: nested functions and string constants have labels that
were drawn for them, one after the other.
-/

namespace TreeBackend

open Source

section HasLabel

variable {function : Function} {first last : LabelSupply} {label : Label}

theorem Source.Function.HasLabel.eq_named (labelled : function.HasLabel first last label)
    (outermost : function.around = []) : label = .named function.name := by
  simpa [Function.HasLabel, outermost] using labelled

theorem Source.Function.HasLabel.eq_anonymous (labelled : function.HasLabel first last label)
    (nested : function.around ≠ []) : ∃ number < last.issued, label = .anonymous number := by
  unfold Function.HasLabel at labelled
  split at labelled
  · contradiction
  · obtain ⟨number, -, below, same⟩ := labelled
    exact ⟨number, below, same⟩

end HasLabel

namespace Lowering

open IR (Chunk)

section Labels

variable {program : Program} {table : FrameTable} {labels : LabelSupply}

/-- The global variables of a program have the labels of their names, and no other variable
has a label. -/
theorem filterMap_globalLabel? (laid : program.LaidOut table labels) :
    program.contents.allVariables.filterMap (globalLabel? ⟨program.resolution, table⟩) =
      program.globals.map fun owned => .named owned.name := by
  have globals : program.globals.filterMap (globalLabel? ⟨program.resolution, table⟩) =
      program.globals.map fun owned => .named owned.name := by
    rw [← List.filterMap_eq_map]
    apply List.filterMap_congr
    intro owned member
    simp [globalLabel?, laid.globals owned member]
  have others : (program.functions.flatMap (·.contents.locals)).filterMap
      (globalLabel? ⟨program.resolution, table⟩) = [] := by
    rw [List.filterMap_eq_nil_iff]
    intro owned member
    obtain ⟨function, isFunction, isLocal⟩ := List.mem_flatMap.mp member
    obtain ⟨slot, stored, -⟩ := (laid.functions.each function isFunction).locals.storage isLocal
    simp [globalLabel?, stored]
  rw [Contents.allVariables, List.filterMap_append, globals, others, List.append_nil]

/-- A function outside all others has its name as its label, and the others have labels that
the layout has drawn. -/
theorem mem_functionLabels (laid : program.LaidOut table labels) {label : Label}
    (member : label ∈ functionLabels ⟨program.resolution, table⟩ program.contents) :
    (∃ function ∈ program.functions, function.around = [] ∧ label = .named function.name) ∨
      ∃ number < labels.issued, label = .anonymous number := by
  obtain ⟨function, isFunction, found⟩ := List.mem_filterMap.mp member
  obtain ⟨own, labelled, isFrame⟩ := (laid.functions.each function isFunction).frame
  have same : own = label := by
    rw [isFrame] at found
    exact Option.some_inj.mp found
  by_cases outermost : function.around = []
  · exact .inl ⟨function, isFunction, outermost, same ▸ labelled.eq_named outermost⟩
  · exact .inr (same ▸ labelled.eq_anonymous outermost)

/-- Functions have different labels if those outside all others have different names. -/
theorem nodup_functionLabels (laid : program.LaidOut table labels)
    (distinct : program.topFunctionNames.Nodup) :
    (functionLabels ⟨program.resolution, table⟩ program.contents).Nodup := by
  have names : program.functions.Pairwise fun first second =>
      first.around = [] → second.around = [] → first.name ≠ second.name := by
    rw [Program.topFunctionNames, List.Nodup, List.pairwise_map, List.pairwise_filter] at distinct
    exact distinct.imp fun differ outer inner =>
      differ (by simp [outer]) (by simp [inner])
  rw [functionLabels, List.Nodup, List.pairwise_filterMap]
  have both := names.and laid.functions.apart
  refine both.imp_of_mem fun {first second} isFirst isSecond differ label found other otherFound => ?_
  obtain ⟨frame, isFrame, rfl⟩ := Option.map_eq_some_iff.mp found
  obtain ⟨next, isNext, rfl⟩ := Option.map_eq_some_iff.mp otherFound
  obtain ⟨own, labelled, ownFrame⟩ := (laid.functions.each first isFirst).frame
  obtain ⟨their, theirLabelled, theirFrame⟩ := (laid.functions.each second isSecond).frame
  obtain rfl := Option.some_inj.mp (isFrame.symm.trans ownFrame)
  obtain rfl := Option.some_inj.mp (isNext.symm.trans theirFrame)
  intro same
  have same : own = their := same
  by_cases outer : first.around = []
  · have named := labelled.eq_named outer
    by_cases inner : second.around = []
    · have otherNamed := theirLabelled.eq_named inner
      rw [same, otherNamed] at named
      exact differ.1 outer inner (Label.named.inj named).symm
    · obtain ⟨number, -, numbered⟩ := theirLabelled.eq_anonymous inner
      rw [same, numbered] at named
      cases named
  · by_cases inner : second.around = []
    · obtain ⟨number, -, numbered⟩ := labelled.eq_anonymous outer
      have named := theirLabelled.eq_named inner
      rw [← same, numbered] at named
      cases named
    · exact differ.2 outer inner _ _ ownFrame theirFrame same

theorem nodup_chunkLabels {state final : LoweringState} (laid : program.LaidOut table labels)
    (distinct : program.topNames.Nodup)
    (names : Names ⟨program.resolution, table⟩ state final program.contents)
    (noChunks : state.chunks = []) (start : state.labels = labels) :
    (final.chunks.map Chunk.label).Nodup := by
  obtain ⟨texts, once, drawn, counts⟩ := names
  have sameLabels : (final.chunks.map Chunk.label).Perm
      (texts ++ functionLabels ⟨program.resolution, table⟩ program.contents ++
        program.globals.map fun owned => .named owned.name) := by
    refine List.perm_iff_count.mpr fun label => ?_
    rw [counts label, filterMap_globalLabel? laid, noChunks]
    simp only [List.map_nil, List.count_nil, List.count_append]
    omega
  have globalsOnce : (program.globals.map fun owned => Label.named owned.name).Nodup := by
    have once := (List.nodup_append'.mp distinct).1
    have images := once.map (f := Label.named) fun _ _ same => Label.named.inj same
    rwa [List.map_map] at images
  rw [sameLabels.nodup_iff, List.nodup_append', List.nodup_append']
  refine ⟨⟨once, nodup_functionLabels laid (Program.nodup_topFunctionNames distinct), ?_⟩,
    globalsOnce, ?_⟩
  · intro label isText isFunction
    obtain ⟨number, above, -, rfl⟩ := drawn label isText
    rcases mem_functionLabels laid isFunction with ⟨_, -, -, named⟩ | ⟨other, below, same⟩
    · cases named
    · have same := Label.anonymous.inj same
      rw [start] at above
      omega
  · intro label member isGlobal
    obtain ⟨owned, isOwned, rfl⟩ := List.mem_map.mp isGlobal
    rcases List.mem_append.mp member with isText | isFunction
    · obtain ⟨_, -, -, same⟩ := drawn _ isText
      cases same
    · rcases mem_functionLabels laid isFunction with
        ⟨function, isThere, outermost, same⟩ | ⟨_, -, same⟩
      · refine (List.nodup_append'.mp distinct).2.2
          (List.mem_map.mpr ⟨owned, isOwned, Label.named.inj same⟩) ?_
        exact List.mem_map.mpr ⟨function, List.mem_filter.mpr ⟨isThere, by simp [outermost]⟩, rfl⟩
      · cases same

theorem mem_topNames_of_label {state final : LoweringState}
    (laid : program.LaidOut table labels)
    (names : Names ⟨program.resolution, table⟩ state final program.contents)
    (noChunks : state.chunks = []) {name : String}
    (member : .named name ∈ final.chunks.map Chunk.label) : name ∈ program.topNames := by
  obtain ⟨texts, -, drawn, counts⟩ := names
  have occurs := List.count_pos_iff.mpr member
  rw [counts, filterMap_globalLabel? laid, noChunks] at occurs
  have notText : Label.named name ∉ texts := by
    intro isText
    obtain ⟨_, -, -, same⟩ := drawn _ isText
    cases same
  rw [List.count_eq_zero.mpr notText] at occurs
  by_cases isFunction : Label.named name ∈
      functionLabels ⟨program.resolution, table⟩ program.contents
  · rcases mem_functionLabels laid isFunction with
      ⟨function, isThere, outermost, same⟩ | ⟨_, -, same⟩
    · refine List.mem_append_right _ (List.mem_map.mpr ⟨function, ?_, (Label.named.inj same).symm⟩)
      exact List.mem_filter.mpr ⟨isThere, by simp [outermost]⟩
    · cases same
  · rw [List.count_eq_zero.mpr isFunction] at occurs
    obtain ⟨owned, isOwned, same⟩ : ∃ owned ∈ program.globals, owned.name = name := by
      simpa using occurs
    exact List.mem_append_left _ (List.mem_map.mpr ⟨owned, isOwned, same⟩)

end Labels

end Lowering

end TreeBackend
