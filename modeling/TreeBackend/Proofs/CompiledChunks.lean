import TreeBackend.Proofs.Compilation
import TreeBackend.Proofs.Flattening.Chunks
import TreeBackend.Proofs.Flattening.Events
import TreeBackend.Proofs.Flattening.Plain
import TreeBackend.Proofs.Lowering.Acceptance
import TreeBackend.Proofs.Lowering.ChunkLabels
import TreeBackend.Proofs.Lowering.Events
import TreeBackend.Proofs.Machine.Placement

/-!
# The chunks of a compiled program

A compiled program has a chunk for each function, with its lowered and flattened body,
and a chunk for each global variable.  No two chunks have the same label if what lies
outside all functions has different names.
-/

namespace TreeBackend

open Source (Program)
open Lowering
open IR (Chunk Stmt)

/-- Statements are the lowered and flattened body of a function, in a program with certain
chunks. -/
def Source.Function.CompilesTo (program : Program) (table : FrameTable) (chunks : List Chunk)
    (function : Source.Function) (items : List Stmt) : Prop :=
  ∃ state value middle first last,
    ofExpr ⟨program.resolution, table⟩ function.depth function.body state =
      .ok (.expr value) middle ∧
    (∀ slot text, .data slot text ∈ middle.chunks → .data slot text ∈ chunks) ∧
    middle.temps.issued ≤ first.issued ∧
    Flattening.ofStmt (functionBody value) first = .ok (items, last)

structure Source.Program.CompiledTo (program : Program) (table : FrameTable)
    (chunks : List Chunk) : Prop where
  laid : ∃ labels, program.LaidOut table labels
  distinct : (chunks.map Chunk.label).Nodup
  named : ∀ name, .named name ∈ chunks.map Chunk.label → name ∈ program.topNames
  apart : ∀ function ∈ program.functions, ∀ other ∈ program.functions, ∀ frame otherFrame,
    table.frame? function.node.id = some frame → table.frame? other.node.id = some otherFrame →
    frame.label = otherFrame.label → function = other
  functions : ∀ function ∈ program.functions, ∃ frame items,
    table.frame? function.node.id = some frame ∧ .code frame (.seq items) ∈ chunks
  stems : ∀ frame body, .code frame body ∈ chunks → ∃ function ∈ program.functions,
    table.frame? function.node.id = some frame ∧
      ∃ items, body = .seq items ∧ function.CompilesTo program table chunks items
  globals : ∀ definition slot, table.storage? definition = some (.global slot) →
    .global slot ∈ chunks

section Flattened

open Flattening

variable {chunks flat : List Chunk} {supply rest : IR.TempSupply}

theorem map_label_flattened (flattened : ofChunks chunks supply = .ok (flat, rest)) :
    flat.map Chunk.label = chunks.map Chunk.label := by
  have pairs := ofChunks_flattens flattened
  clear flattened
  induction pairs with
  | nil => rfl
  | @cons chunk result _ _ flattens _ ih =>
      rw [List.map_cons, List.map_cons, ih]
      cases chunk with
      | code frame body =>
          obtain ⟨_, _, _, -, -, rfl⟩ := flattens
          rfl
      | data _ _ | global _ =>
          obtain rfl := flattens
          rfl

end Flattened

section Compiled

variable {program : Program} {table : FrameTable} {labels : LabelSupply}

theorem eq_of_frame_label_eq (laid : program.LaidOut table labels)
    (distinct : program.topFunctionNames.Nodup) {function other : Source.Function}
    (member : function ∈ program.functions) (otherMember : other ∈ program.functions)
    {frame otherFrame : Frame} (found : table.frame? function.node.id = some frame)
    (otherFound : table.frame? other.node.id = some otherFrame)
    (same : frame.label = otherFrame.label) : function = other := by
  have apart := nodup_functionLabels laid distinct
  rw [functionLabels, List.Nodup, List.pairwise_filterMap] at apart
  have symmetric : Std.Symm fun first second : Source.Function =>
      ∀ label, (table.frame? first.node.id).map (·.label) = some label →
        ∀ other, (table.frame? second.node.id).map (·.label) = some other → label ≠ other :=
    ⟨fun _ _ apart label isLabel other isOther => (apart other isOther label isLabel).symm⟩
  by_contra differ
  exact apart.forall member otherMember differ frame.label (by simp [found]) otherFrame.label
    (by simp [otherFound]) same

theorem Lowering.Holds.compilesTo {state : LoweringState} {rest : IR.TempSupply}
    {chunks : List Chunk} {function : Source.Function} {frame : Frame} {body : Stmt}
    {result : Chunk}
    (holds : Holds ⟨program.resolution, table⟩ { labels } state function (.code frame body))
    (flattened : Flattening.ofChunks state.chunks state.temps = .ok (chunks, rest))
    (flattens : Flattening.Flattens state.temps (.code frame body) result) :
    table.frame? function.node.id = some frame ∧
      ∃ items, result = .code frame (.seq items) ∧
        function.CompilesTo program table chunks items := by
  obtain ⟨start, value, middle, _, -, bodyLowered, upTo, found, same⟩ := holds
  obtain ⟨rfl, rfl⟩ := IR.Chunk.code.inj same
  obtain ⟨first, last, items, above, bodyFlat, rfl⟩ := flattens
  refine ⟨found, items, rfl, start, value, middle, first, last, bodyLowered, ?_,
    upTo.temps.trans above, bodyFlat⟩
  exact fun slot text isThere =>
    Flattening.mem_flattened flattened (by simp) (upTo.chunks.mem isThere)

/-- The events of a compiled function are those of its lowered body. -/
theorem Source.Function.CompilesTo.behaves {chunks : List Chunk} {function : Source.Function}
    {items : List Stmt} (compiles : function.CompilesTo program table chunks items) :
    Behaves table (Stmt.eventsOfList items) function.contents.calls := by
  obtain ⟨_, value, _, _, _, lowered, -, -, flattened⟩ := compiles
  have behaves := ofExpr_behaves function.body (function.node.id :: function.around) lowered
  exact (behaves_functionBody behaves).congr fun event loud => Flattening.mem_events flattened loud

theorem Source.Function.CompilesTo.arePlain {chunks : List Chunk} {function : Source.Function}
    {items : List Stmt} (compiles : function.CompilesTo program table chunks items) :
    Flattening.ArePlain items := by
  obtain ⟨_, _, _, _, _, -, -, -, flattened⟩ := compiles
  exact Flattening.ofStmt_arePlain _ flattened

theorem exists_compilesTo {state : LoweringState} {rest : IR.TempSupply} {chunks : List Chunk}
    (lowered : ofDefs ⟨program.resolution, table⟩ 0 program.definitions { labels } =
      .ok () state)
    (flattened : Flattening.ofChunks state.chunks state.temps = .ok (chunks, rest))
    {frame : Frame} {body : Stmt} (member : .code frame body ∈ chunks) :
    ∃ function ∈ program.functions, table.frame? function.node.id = some frame ∧
      ∃ items, body = .seq items ∧ function.CompilesTo program table chunks items := by
  obtain ⟨chunk, isThere, flattens⟩ := Flattening.exists_unflattened flattened member
  cases chunk with
  | data | global => cases flattens
  | code other tree =>
      rcases (ofDefs_emits program.definitions [] lowered).stems _ isThere with
        isOld | ⟨function, isFunction, holds⟩
      · cases isOld
      · obtain ⟨found, items, same, compiles⟩ := holds.compilesTo flattened flattens
        obtain ⟨rfl, rfl⟩ := IR.Chunk.code.inj same
        exact ⟨function, isFunction, found, items, rfl, compiles⟩

theorem exists_chunk_compilesTo {state : LoweringState} {rest : IR.TempSupply}
    {chunks : List Chunk}
    (lowered : ofDefs ⟨program.resolution, table⟩ 0 program.definitions { labels } =
      .ok () state)
    (flattened : Flattening.ofChunks state.chunks state.temps = .ok (chunks, rest))
    {function : Source.Function} (member : function ∈ program.functions) :
    ∃ frame items, table.frame? function.node.id = some frame ∧
      .code frame (.seq items) ∈ chunks ∧ function.CompilesTo program table chunks items := by
  obtain ⟨chunk, isThere, holds⟩ :=
    (ofDefs_emits program.definitions [] lowered).functions function member
  obtain ⟨_, _, _, frame, -, -, -, -, rfl⟩ := id holds
  obtain ⟨result, isResult, flattens⟩ := Flattening.exists_flattened flattened isThere
  obtain ⟨found, items, rfl, compiles⟩ := holds.compilesTo flattened flattens
  exact ⟨frame, items, found, isResult, compiles⟩

theorem exists_compilesTo_of_compile {chunks : List Chunk} {function : Source.Function}
    (compiled : compile program = .ok chunks) (member : function ∈ program.functions) :
    ∃ table labels frame items, Layout.ofProgram program {} = .ok (table, labels) ∧
      table.frame? function.node.id = some frame ∧ .code frame (.seq items) ∈ chunks ∧
      function.CompilesTo program table chunks items := by
  obtain ⟨table, labels, state, rest, layout, lowered, flattened⟩ := compile_eq_ok.mp compiled
  obtain ⟨frame, items, found, isThere, compiles⟩ :=
    exists_chunk_compilesTo lowered flattened member
  exact ⟨table, labels, frame, items, layout, found, isThere, compiles⟩

/-- The ends of global variables fit into words, wherever in a memory the variables are placed. -/
def Source.Program.GlobalsFit (program : Program) : Prop :=
  ∀ owned ∈ program.globals, Machine.memoryLimit +
    program.resolution.storageSize owned.node.id + Word.size ≤ 9223372036854775808

instance (program : Program) : Decidable program.GlobalsFit :=
  inferInstanceAs (Decidable (∀ owned ∈ program.globals, _))

/-- Global variables of a word each fit. -/
theorem Source.Program.globalsFit_of_words
    (words : ∀ owned ∈ program.globals, program.resolution.takesWord owned.node.id = true) :
    program.GlobalsFit := by
  intro owned member
  have isWord : program.resolution.storageSize owned.node.id = Word.size := by
    rw [program.resolution.storageSize_eq_wrap, Source.extent_of_takesWord (words owned member)]
    rfl
  rw [isWord]
  decide

/-- Functions and strings take one word each, so only global variables can be too large. -/
theorem sizesFit_of_compile {chunks : List Chunk} (distinct : program.definitionIds.Nodup)
    (globalsFit : program.GlobalsFit) (compiled : compile program = .ok chunks) :
    Machine.SizesFit chunks := by
  obtain ⟨table, labels, state, rest, layout, lowered, flattened⟩ := compile_eq_ok.mp compiled
  have laid := (Layout.ofProgram_succeeds layout).2 distinct
  have word : Machine.memoryLimit + Word.size + Word.size ≤ 9223372036854775808 := by decide
  intro chunk member
  obtain ⟨source, isThere, flattens⟩ := Flattening.exists_unflattened flattened member
  have stems := (ofDefs_emits program.definitions [] lowered).stems source isThere
  cases source with
  | code frame tree =>
      obtain ⟨_, _, _, -, -, rfl⟩ := flattens
      exact word
  | data slot text =>
      obtain rfl := flattens
      rcases stems with isOld | ⟨number, -, -, rfl⟩
      · cases isOld
      · exact word
  | global slot =>
      obtain rfl := flattens
      rcases stems with isOld | ⟨definition, found⟩
      · cases isOld
      · obtain ⟨owned, isGlobal, rfl, -⟩ := exists_global laid found
        obtain rfl := Storage.global.inj
          (Option.some_inj.mp (found.symm.trans (laid.globals owned isGlobal)))
        exact globalsFit owned isGlobal

theorem compiledTo_of_compile {chunks : List Chunk} (distinct : program.definitionIds.Nodup)
    (names : program.topNames.Nodup) (compiled : compile program = .ok chunks) :
    ∃ table labels, Layout.ofProgram program {} = .ok (table, labels) ∧
      program.CompiledTo table chunks := by
  obtain ⟨table, labels, state, rest, layout, lowered, flattened⟩ := compile_eq_ok.mp compiled
  have laid := (Layout.ofProgram_succeeds layout).2 distinct
  have emits := ofDefs_emits program.definitions [] lowered
  have sameLabels := map_label_flattened flattened
  refine ⟨table, labels, layout, ⟨labels, laid⟩, ?_, ?_, ?_, ?_, ?_, ?_⟩
  · rw [sameLabels]
    exact nodup_chunkLabels laid names emits.names rfl rfl
  · intro name member
    rw [sameLabels] at member
    exact mem_topNames_of_label laid emits.names rfl member
  · exact fun function member other otherMember frame otherFrame found otherFound same =>
      eq_of_frame_label_eq laid (Program.nodup_topFunctionNames names) member otherMember found
        otherFound same
  · intro function member
    obtain ⟨frame, items, found, isThere, -⟩ := exists_chunk_compilesTo lowered flattened member
    exact ⟨frame, items, found, isThere⟩
  · exact fun frame body member => exists_compilesTo lowered flattened member
  · intro definition slot found
    refine Flattening.mem_flattened flattened (by simp) ?_
    obtain ⟨owned, member, rfl, -⟩ := exists_global laid found
    exact emits.globals owned member slot found

end Compiled

end TreeBackend
