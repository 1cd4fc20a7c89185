import TreeBackend.Demo
import TreeBackend.Pipeline
import TreeBackend.Proofs.Acceptance
import TreeBackend.Proofs.Lowering.Renaming

/-!
# Compilation of renamed programs

The numbers of nodes serve to tell nodes apart, and nothing else.  Names reach the code only
as those of builtins and as those of what is defined outside all functions.
-/

namespace TreeBackend

open Source Outcome

/-- A program and a renamed one compile to the same chunks, or both are rejected. -/
theorem compile_rename {change : Renaming} (faithful : change.Faithful) (program : Program) :
    (∃ chunks, compile program = .ok chunks ∧ compile (program.rename change) = .ok chunks) ∨
      ∃ problem other, compile program = .error problem ∧
        compile (program.rename change) = .error other ∧ change.SameErrors problem other := by
  unfold compile Layout.ofProgram Lowering.ofProgram
  simp only [Program.rename, EStateM.run]
  have walks := Layout.follows_program faithful.injective program.resolution program.definitions
  rcases walks.outcome {} {} ⟨rfl, rfl⟩ with
    ⟨_, state, _, walked, walked', -, rfl⟩ | ⟨problem, other, _, _, failed, failed', same⟩
  · have lowers := Lowering.copies_program faithful ⟨program.resolution, state.table⟩
      program.definitions
    rw [LoweringContext.rename] at lowers
    rcases lowers.outcome { labels := state.labels } _ rfl with
      ⟨_, lowered, _, done, done', rfl⟩ | ⟨problem, other, _, _, failed, failed', same⟩
    · simp only [walked, walked', bind, Except.bind, done, done']
      -- The chunks are the same before they are flattened.
      cases (Flattening.ofChunks lowered.chunks).run lowered.temps with
      | error problem => exact .inr ⟨problem, problem, rfl, rfl, fun _ => rfl⟩
      | ok flattened => exact .inl ⟨flattened.1, rfl, rfl⟩
    · simp only [walked, walked', bind, Except.bind, failed, failed']
      exact .inr ⟨problem, other, rfl, rfl, same⟩
  · simp only [failed, failed', bind, Except.bind]
    exact .inr ⟨problem, other, rfl, rfl, same⟩

theorem compile_mapIds {id : NodeId → NodeId} (injective : Function.Injective id)
    (program : Program) : compile (program.mapIds id) = compile program := by
  have faithful : Renaming.Faithful { id } := ⟨injective, fun _ unknown => unknown⟩
  rcases compile_rename faithful program with
    ⟨chunks, compiled, same⟩ | ⟨problem, other, rejected, same, sameErrors⟩
  · exact same.trans compiled.symm
  · rw [Program.mapIds, same, rejected, sameErrors fun _ => rfl]

theorem compile_withoutLocalNames {program : Program} {chunks : List IR.Chunk} :
    compile program.withoutLocalNames = .ok chunks ↔ compile program = .ok chunks := by
  have unbound : Builtin.ofName? "" = none := by decide
  have faithful : Renaming.Faithful { name := fun _ => "" } :=
    ⟨Function.injective_id, fun _ _ => unbound⟩
  unfold Program.withoutLocalNames
  rcases compile_rename faithful program with
    ⟨chunks, compiled, same⟩ | ⟨problem, other, rejected, same, -⟩
  · rw [compiled, same]
  · simp [rejected, same]

/-- Other numbers for the nodes of a program and of its tables change nothing, neither in the
chunks nor in an error, if different nodes stay different.  A program that compiles gives the
same chunks as any that differs from it in local names, whether these clash or not. -/
theorem compile_ignores_ids_and_local_names :
    (∀ (program : Program) (id : NodeId → NodeId), Function.Injective id →
      compile (program.mapIds id) = compile program) ∧
    ∀ (program renamed : Program) (chunks : List IR.Chunk),
      program.withoutLocalNames = renamed.withoutLocalNames →
      compile program = .ok chunks → compile renamed = .ok chunks := by
  refine ⟨fun program id injective => compile_mapIds injective program, ?_⟩
  intro program renamed chunks same compiled
  rw [← compile_withoutLocalNames, same, compile_withoutLocalNames] at compiled
  exact compiled

/-- In the demonstration program all local names become that of a function outside. -/
theorem compile_ignores_ids_and_local_names_demo :
    Function.Injective (fun id : NodeId => id + 7) ∧
      compile (Demo.program.mapIds (· + 7)) = compile Demo.program ∧
      ∃ chunks, compile Demo.program = .ok chunks ∧
        compile (Demo.program.rename { name := fun _ => "fact" }) = .ok chunks := by
  have injective : Function.Injective (fun id : NodeId => id + 7) :=
    fun _ _ same => Nat.add_right_cancel same
  have unbound : Builtin.ofName? "fact" = none := by decide
  have faithful : Renaming.Faithful { name := fun _ => "fact" } :=
    ⟨Function.injective_id, fun _ _ => unbound⟩
  have distinct : Demo.program.definitionIds.Nodup := by decide +kernel
  have wellFormed : Demo.program.isWellFormed = true := by decide +kernel
  obtain ⟨-, chunks, compiled⟩ | ⟨malformed, -⟩ := compile_verdict distinct
  case inr => cases malformed.symm.trans wellFormed
  refine ⟨injective, compile_ignores_ids_and_local_names.1 Demo.program _ injective, chunks,
    compiled, ?_⟩
  exact compile_ignores_ids_and_local_names.2 Demo.program _ chunks
    (Demo.program.withoutLocalNames_rename faithful).symm compiled

end TreeBackend
