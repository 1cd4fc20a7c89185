import TreeBackend.Pipeline
import TreeBackend.Proofs.Flattening.Inversion
import TreeBackend.Proofs.Outcome

/-!
# The stages of a compilation
-/

namespace TreeBackend

open Source

/-- A compilation lays out the frames, lowers the definitions and flattens the chunks. -/
theorem compile_eq_ok {program : Program} {chunks : List IR.Chunk} :
    compile program = .ok chunks ↔
      ∃ table labels state rest, Layout.ofProgram program {} = .ok (table, labels) ∧
        Lowering.ofDefs ⟨program.resolution, table⟩ 0 program.definitions { labels } =
          .ok () state ∧
        Flattening.ofChunks state.chunks state.temps = .ok (chunks, rest) := by
  unfold compile Lowering.ofProgram
  cases Layout.ofProgram program {} with
  | error problem => simp [bind, Except.bind]
  | ok laidOut =>
      obtain ⟨table, labels⟩ := laidOut
      simp only [bind, Except.bind, EStateM.run]
      cases outcome : Lowering.ofDefs ⟨program.resolution, table⟩ 0 program.definitions
          { labels } with
      | error problem state => simp [outcome]
      | ok result state =>
          cases flat : Flattening.ofChunks state.chunks state.temps with
          | error problem =>
              simp [outcome, StateT.run, flat]
          | ok flattened =>
              simp only [StateT.run, flat, pure, Except.pure]
              constructor
              · rintro same
                obtain rfl := Except.ok.inj same
                exact ⟨_, _, _, _, rfl, outcome, flat⟩
              · rintro ⟨_, _, _, rest, same, lowered, flatAgain⟩
                obtain ⟨rfl, rfl⟩ := Prod.mk.inj (Except.ok.inj same)
                cases outcome.symm.trans lowered
                cases flat.symm.trans flatAgain
                rfl

end TreeBackend
