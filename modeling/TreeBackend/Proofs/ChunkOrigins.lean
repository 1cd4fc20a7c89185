import TreeBackend.Demo
import TreeBackend.Proofs.Frame.Completeness
import TreeBackend.Proofs.Lowering.Events
import TreeBackend.Proofs.Lowering.Origins

/-!
# The chunks of a lowered program

Lowering a program that is laid out loses nothing and makes nothing twice.  Its chunks are those
of its functions, its string constants and its global variables, one for each, in the order in
which a walk finds them that visits what is within a function before the function itself.  Code
calls builtins and functions that are among the chunks.
-/

namespace TreeBackend

open Source Lowering
open IR (Chunk)

/-- The chunks of a lowered program, each with what it is made for: one for each origin, in the
order of the walk. -/
structure Source.Program.LoweredTo (program : Program) (table : FrameTable)
    (chunks : List Chunk) (made : Made) : Prop where
  listed : made.map Prod.fst = program.origins
  finished : made.map Prod.snd = chunks
  functions : ∀ function chunk, (.function function, chunk) ∈ made →
    ∃ frame start value middle, table.frame? function.node.id = some frame ∧
      ofExpr ⟨program.resolution, table⟩ function.depth function.body start =
        .ok (.expr value) middle ∧
      chunk = .code frame (functionBody value)
  closes : ∀ function chunk, (.function function, chunk) ∈ made → made.Closes function chunk
  texts : ∀ around text chunk, (.text around text, chunk) ∈ made →
    ∃ number, chunk = .data ⟨Word.size, .anonymous number⟩ text
  apart : made.textNumbers.Nodup
  globals : ∀ owned chunk, (.global owned, chunk) ∈ made →
    ∃ ty, program.resolution.typeOf? owned.node.id = some ty ∧
      chunk = .global ⟨ty.storageSize, .named owned.name⟩
  calls : ∀ frame body, .code frame body ∈ chunks → ∀ label arguments,
    .call label arguments ∈ body.events →
      (∃ builtin : Builtin, label = .named builtin.name) ∨
        ∃ callee other, .code callee other ∈ chunks ∧ label = callee.label

section LaidOut

variable {program : Program} {table : FrameTable} {supply labels : LabelSupply}

theorem namesGlobals_of_laidOut (laid : program.LaidOut table labels) : NamesGlobals table := by
  intro definition slot found
  obtain ⟨owned, -, -, named⟩ := exists_global laid found
  exact ⟨owned.name, named⟩

theorem globalsOutermost_of_laidOut (laid : program.LaidOut table labels) :
    GlobalsOutermost table [] program.contents where
  direct owned member := ⟨fun _ => ⟨_, laid.globals owned member⟩, fun _ => rfl⟩
  nested function member owned isLocal slot isGlobal := by
    obtain ⟨_, stored, -⟩ := (laid.functions.each function member).locals.storage isLocal
    cases stored.symm.trans isGlobal

variable {start final : LoweringState} {made : Made}

/-- The code of each function with a frame is among the chunks. -/
theorem exists_code_of_frame? (laid : program.LaidOut table labels)
    (finishes : Finishes ⟨program.resolution, table⟩ [] start final program.origins [] made)
    {definition : NodeId} {frame : Frame} (found : table.frame? definition = some frame) :
    ∃ body, .code frame body ∈ made.map Prod.snd := by
  have isFunction := (laid.frames definition).mp (by rw [found]; rfl)
  rw [← program.map_functions] at isFunction
  obtain ⟨function, member, rfl⟩ := List.mem_map.mp isFunction
  obtain ⟨origin, isOrigin, same⟩ :=
    List.mem_filterMap.mp (program.functions_origins.mem_iff.mpr member)
  rw [← finishes.listed] at isOrigin
  obtain ⟨⟨_, chunk⟩, isMade, rfl⟩ := List.mem_map.mp isOrigin
  have makes := finishes.makes _ isMade
  cases makes with
  | function lowered isFrame =>
      obtain rfl := Option.some_inj.mp same
      obtain rfl := Option.some_inj.mp (found.symm.trans isFrame)
      exact ⟨_, List.mem_map.mpr ⟨_, isMade, rfl⟩⟩
  | text | global => cases same

theorem loweredTo_of_finishes (laid : program.LaidOut table labels) (typed : program.isTyped = true)
    (finishes : Finishes ⟨program.resolution, table⟩ [] start final program.origins [] made) :
    program.LoweredTo table (made.map Prod.snd) made where
  listed := finishes.listed
  finished := rfl
  functions function chunk member := by
    cases finishes.makes _ member with
    | function lowered found => exact ⟨_, _, _, _, found, lowered, rfl⟩
  closes := finishes.closes
  texts around text chunk member := by
    cases finishes.makes _ member with
    | text => exact ⟨_, rfl⟩
  apart := finishes.once
  globals owned chunk member := by
    have isGlobal : owned ∈ program.globals := by
      rw [← program.globals_origins, ← finishes.listed]
      exact List.mem_filterMap.mpr ⟨_, List.mem_map.mpr ⟨_, member, rfl⟩, rfl⟩
    have isTyped := List.all_eq_true.mp typed owned.node.id
      (List.mem_append_left _ (List.mem_map.mpr ⟨owned, isGlobal, rfl⟩))
    obtain ⟨ty, known⟩ := Option.isSome_iff_exists.mp isTyped
    refine ⟨ty, known, ?_⟩
    cases finishes.makes _ member with
    | global found =>
        obtain rfl := Storage.global.inj
          (Option.some_inj.mp (found.symm.trans (laid.globals owned isGlobal)))
        simp [Resolution.storageSize, known]
  calls frame body member label arguments isCall := by
    obtain ⟨⟨origin, _⟩, isMade, rfl⟩ := List.mem_map.mp member
    cases finishes.makes _ isMade with
    | @function function _ _ _ _ lowered _ =>
        have behaves := behaves_functionBody
          (ofExpr_behaves function.body (function.node.id :: function.around) lowered)
        rcases behaves.callees label arguments isCall with
          ⟨builtin, rfl⟩ | ⟨definition, callee, found, rfl⟩
        · exact .inl ⟨builtin, rfl⟩
        · obtain ⟨other, isThere⟩ := exists_code_of_frame? laid finishes found
          exact .inr ⟨callee, other, isThere, rfl⟩

end LaidOut

section Lowered

variable {program : Program} {table : FrameTable} {supply labels drawn : LabelSupply}
  {temps : IR.TempSupply} {final : LoweringState}

/-- If a program with different numbers is laid out and lowered, then its chunks are made for
what a walk over the program finds, one for each.  The walk finds each function of the program
once, and its global variables. -/
theorem lowering_loses_nothing (distinct : program.definitionIds.Nodup)
    (layout : Layout.ofProgram program supply = .ok (table, labels))
    (lowered : Lowering.ofProgram program table drawn temps = .ok final) :
    (program.origins.filterMap Origin.function?).Perm program.functions ∧
      program.origins.filterMap Origin.global? = program.globals ∧
      ∃ made, program.LoweredTo table final.chunks made := by
  obtain ⟨typed, describes⟩ := Layout.ofProgram_succeeds layout
  have laid := describes distinct
  obtain ⟨made, finishes⟩ := ofDefs_finishes (namesGlobals_of_laidOut laid) program.definitions []
    (globalsOutermost_of_laidOut laid) (ofProgram_eq_ok.mp lowered)
  have same : final.chunks = made.map Prod.snd := finishes.chunks
  exact ⟨program.functions_origins, program.globals_origins, made,
    same ▸ loweredTo_of_finishes laid typed finishes⟩

/-- The demonstration program has a global variable, three functions, one of which is nested, and
a string constant. -/
theorem lowering_loses_nothing_demo : Demo.program.definitionIds.Nodup ∧
    ∃ table labels final made, Layout.ofProgram Demo.program {} = .ok (table, labels) ∧
      Lowering.ofProgram Demo.program table labels {} = .ok final ∧
      Demo.program.LoweredTo table final.chunks made ∧ final.chunks.length = 5 := by
  have distinct : Demo.program.definitionIds.Nodup := by decide +kernel
  have succeeds : ((Layout.ofProgram Demo.program {}).bind fun laidOut =>
      Lowering.ofProgram Demo.program laidOut.1 laidOut.2 {}).toBool = true := by
    decide +kernel
  cases layout : Layout.ofProgram Demo.program {} with
  | error problem =>
      rw [layout] at succeeds
      cases succeeds
  | ok laidOut =>
      rw [layout] at succeeds
      cases lowered : Lowering.ofProgram Demo.program laidOut.1 laidOut.2 {} with
      | error problem =>
          rw [Except.bind, lowered] at succeeds
          cases succeeds
      | ok final =>
          obtain ⟨-, -, made, loweredTo⟩ := lowering_loses_nothing distinct layout lowered
          have length : Demo.program.origins.length = 5 := by decide +kernel
          refine ⟨distinct, laidOut.1, laidOut.2, final, made, rfl, lowered, loweredTo, ?_⟩
          rw [← loweredTo.finished, List.length_map, ← length, ← loweredTo.listed, List.length_map]

end Lowered

end TreeBackend
