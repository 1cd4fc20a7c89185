import TreeBackend.Demo
import TreeBackend.Proofs.Frame.Completeness
import TreeBackend.Proofs.Lowering.Levels

/-!
# Frames at the right level

The layout tells the level of a function by the frames that are still growing, and lowering by
the definitions that it is in.  Both count the same: lowering uses for each function the level
that its frame has, and goes out to a variable by the difference of two levels.
-/

namespace TreeBackend

open Source Lowering

/-- The levels in a table are those that lowering uses for a program. -/
structure Source.Program.LevelsAgree (program : Program) (table : FrameTable) : Prop where
  bodies : ofDefsIn ⟨program.resolution, table⟩ program.definitions =
    ofDefs ⟨program.resolution, table⟩ 0 program.definitions
  references : ∀ function ∈ program.functions, ∀ owner ∈ program.functions,
    ∀ id ∈ owner.ownedIds, ∀ (node : Node) (name : String),
      program.resolution.definitionOf? node.id = some id →
      ∃ slot, (table.storage? id = some (.localVar slot) ∨
          table.storage? id = some (.parameter slot)) ∧
        ∀ state, ofExprIn ⟨program.resolution, table⟩ (some function.node.id)
            (.name node name) state =
          if owner.depth ≤ function.depth then
            .ok (.expr (.mem (.binop .add
              (Nat.iterate .mem (function.depth - owner.depth) .framePointer)
              (.const slot.offset)))) state
          else .error (.located (.unexpectedDefinition name) node.span) state
  rejected : ∀ function ∈ program.functions, ∀ owner ∈ program.functions,
    function.depth < owner.depth → ∀ reference ∈ function.body.references,
      ∀ id ∈ owner.ownedIds, program.resolution.definitionOf? reference.1.id = some id →
        ∀ labels temps, ∃ error, Lowering.ofProgram program table labels temps = .error error

section LaidOut

variable {program : Program} {table : FrameTable} {supply labels : LabelSupply}

theorem not_reaches_of_lt (laid : program.LaidOut table labels) {owner : Function}
    (ownerMember : owner ∈ program.functions) {id : NodeId} (isOwned : id ∈ owner.ownedIds)
    {level : Nat} (further : level < owner.depth) {reference : Node × String}
    (bound : program.resolution.definitionOf? reference.1.id = some id) :
    ¬Reaches ⟨program.resolution, table⟩ level reference := by
  rintro ⟨definition, storage, value, same, stored, cell⟩
  obtain rfl : id = definition := Option.some_inj.mp (bound.symm.trans same)
  obtain ⟨slot, slotLevel, found⟩ := storage?_of_mem_ownedIds laid ownerMember isOwned
  have hidden : stackCell? level slot = none := if_neg (by omega)
  rcases found with found | found <;>
  · obtain rfl := Option.some_inj.mp (found.symm.trans stored)
    cases hidden.symm.trans cell

theorem levelsAgree_of_laidOut (laid : program.LaidOut table labels) :
    program.LevelsAgree table where
  bodies := @ofDefsIn_eq ⟨program.resolution, table⟩ program.definitions [] fun _ member =>
    levelIn_eq_depth laid member
  references function member owner ownerMember id isOwned node name bound := by
    obtain ⟨slot, slotLevel, stored⟩ := storage?_of_mem_ownedIds laid ownerMember isOwned
    exact ⟨slot, stored, fun state =>
      ofExprIn_owned laid member slotLevel stored bound state⟩
  rejected function member owner ownerMember further reference isReference id isOwned bound
      start temps := by
    cases lowered : Lowering.ofProgram program table start temps with
    | error error => exact ⟨error, rfl⟩
    | ok final =>
        obtain ⟨_, -, _, _, _, _, -, bodyLowered, -⟩ :=
          (ofDefs_emits program.definitions [] (ofProgram_eq_ok.mp lowered)).functions function member
        exact absurd (reaches_of_ofExpr function.body bodyLowered reference isReference)
          (not_reaches_of_lt laid ownerMember isOwned further bound)

/-- If a program can be laid out, then its table lists it with all that it owns, and has the
levels that lowering uses. -/
theorem layout_agrees_with_lowering (distinct : program.definitionIds.Nodup)
    (layout : Layout.ofProgram program supply = .ok (table, labels)) :
    program.ListedIn table ∧ program.LevelsAgree table := by
  have laid := (Layout.ofProgram_succeeds layout).2 distinct
  exact ⟨listedIn_of_laidOut laid, levelsAgree_of_laidOut laid⟩

/-- In the demonstration program a nested function reads a variable of the main function. -/
theorem layout_agrees_with_lowering_demo : Demo.program.definitionIds.Nodup ∧
    (∃ inner ∈ Demo.program.functions, ∃ owner ∈ Demo.program.functions,
      owner.depth < inner.depth ∧ ∃ reference ∈ inner.body.references, ∃ id ∈ owner.ownedIds,
        Demo.program.resolution.definitionOf? reference.1.id = some id) ∧
    ∃ table labels, Layout.ofProgram Demo.program {} = .ok (table, labels) ∧
      Demo.program.ListedIn table ∧ Demo.program.LevelsAgree table := by
  have distinct : Demo.program.definitionIds.Nodup := by decide +kernel
  have succeeds : (Layout.ofProgram Demo.program {}).toBool = true := by decide +kernel
  refine ⟨distinct, by decide +kernel, ?_⟩
  cases layout : Layout.ofProgram Demo.program {} with
  | error problem =>
      rw [layout] at succeeds
      cases succeeds
  | ok laidOut =>
      exact ⟨laidOut.1, laidOut.2, rfl, layout_agrees_with_lowering distinct layout⟩

end LaidOut

end TreeBackend
