import TreeBackend.Demo
import TreeBackend.Pipeline
import TreeBackend.Proofs.Lowering.Acceptance

/-!
# Which programs compile

Compilation succeeds exactly on the well-formed programs.  Where it fails, a frame
is missing only for a call and storage only for a reference: whatever a program
defines has been laid out, and no call stands outside of all functions.
-/

namespace TreeBackend

open Source Lowering

variable {program : Program}

/-- The verdict of lowering on a program that is laid out. -/
theorem decides_ofProgram {table : FrameTable} {labels : LabelSupply}
    (laid : program.LaidOut table labels) :
    (∃ state, Lowering.ofProgram program table labels {} = .ok state ∧
      (Def.areWellFormed program 0 program.definitions = true ↔ AreFlattenable state.chunks)) ∨
    ∃ problem, Lowering.ofProgram program table labels {} = .error problem ∧
      Def.areWellFormed program 0 program.definitions = false ∧
        Explained program.parts problem := by
  have decides := decides_ofDefs laid program.definitions [] (covers_contents laid)
  rw [List.length_nil] at decides
  unfold Lowering.ofProgram EStateM.run
  rcases decides { labels } with
    ⟨⟨⟩, state, new, done, grown, accepted⟩ | ⟨problem, state, failed, rejected, explained⟩
  · refine .inl ⟨state, by rw [done], ?_⟩
    rw [grown]
    exact accepted
  · exact .inr ⟨problem, by rw [failed], rejected, explained⟩

theorem explained_of_isMissingType {parts : List Source.Expr} {problem : CompileError}
    (missing : Layout.IsMissingType problem) : Explained parts problem := by
  obtain ⟨what, span, rfl⟩ := missing
  trivial

/-- Compilation decides whether a program is well-formed. -/
theorem compile_verdict (distinct : program.definitionIds.Nodup) :
    (program.isWellFormed = true ∧ ∃ chunks, compile program = .ok chunks) ∨
    (program.isWellFormed = false ∧
      ∃ problem, compile program = .error problem ∧ Explained program.parts problem) := by
  unfold compile Program.isWellFormed
  cases layout : Layout.ofProgram program {} with
  | error problem =>
      obtain ⟨missing, untyped⟩ := Layout.ofProgram_fails layout
      exact .inr ⟨by rw [untyped, Bool.false_and], problem, rfl,
        explained_of_isMissingType missing⟩
  | ok laidOut =>
      obtain ⟨table, labels⟩ := laidOut
      obtain ⟨typed, laid⟩ := Layout.ofProgram_succeeds layout
      rw [typed, Bool.true_and]
      rcases decides_ofProgram (laid distinct) with
        ⟨state, lowered, accepted⟩ | ⟨problem, failed, rejected, explained⟩
      · rcases Flattening.decides_ofChunks state.chunks state.temps with
          ⟨flattenable, chunks, rest, flat⟩ | ⟨stuck, what, failed⟩
        · refine .inl ⟨accepted.mpr flattenable, chunks, ?_⟩
          simp [bind, Except.bind, lowered, StateT.run, flat, pure, Except.pure]
        · refine .inr ⟨Bool.eq_false_iff.mpr fun holds => stuck (accepted.mp holds),
            .unflattenable what, ?_, trivial⟩
          simp [bind, Except.bind, lowered, StateT.run, failed]
      · refine .inr ⟨rejected, problem, ?_, explained⟩
        simp [bind, Except.bind, failed]

/-- A program compiles exactly if it is well-formed.  If it does not compile, the
error is never about a call outside of a function; a missing frame is reported at
a call, and a missing storage at a reference. -/
theorem compile_succeeds_iff_isWellFormed (distinct : program.definitionIds.Nodup) :
    ((∃ chunks, compile program = .ok chunks) ↔ program.isWellFormed = true) ∧
    (∀ name span, compile program ≠ .error (.located (.callOutsideFunction name) span)) ∧
    (∀ name span, compile program = .error (.located (.missingFrame name) span) →
      ∃ node arguments, .call node name arguments ∈ program.parts ∧ node.span = span) ∧
    ∀ name span, compile program = .error (.located (.missingAccess name) span) →
      ∃ node, .name node name ∈ program.parts ∧ node.span = span := by
  rcases compile_verdict distinct with
    ⟨wellFormed, chunks, done⟩ | ⟨malformed, problem, failed, explained⟩
  · refine ⟨⟨fun _ => wellFormed, fun _ => ⟨chunks, done⟩⟩, ?_, ?_, ?_⟩ <;> simp [done]
  · rw [failed]
    refine ⟨by simp [malformed], ?_, ?_, ?_⟩
    · rintro name span same
      obtain rfl := Except.error.inj same
      exact explained
    · rintro name span same
      obtain rfl := Except.error.inj same
      exact explained
    · rintro name span same
      obtain rfl := Except.error.inj same
      exact explained

/-- The demonstration program compiles, and a program with a call to nowhere does not. -/
theorem compile_demo_and_call_to_nowhere :
    let nowhere : Program := ⟨[.function ⟨0, {}⟩ "main" [] (.call ⟨1, {}⟩ "f" [])], {}⟩
    Demo.program.definitionIds.Nodup ∧ nowhere.definitionIds.Nodup ∧
      (∃ chunks, compile Demo.program = .ok chunks) ∧ ¬∃ chunks, compile nowhere = .ok chunks := by
  intro nowhere
  have demoDistinct : Demo.program.definitionIds.Nodup := by decide +kernel
  have nowhereDistinct : nowhere.definitionIds.Nodup := by decide
  have demoWellFormed : Demo.program.isWellFormed = true := by decide +kernel
  have nowhereMalformed : nowhere.isWellFormed = false := by decide +kernel
  refine ⟨demoDistinct, nowhereDistinct, ?_, ?_⟩
  · rw [(compile_succeeds_iff_isWellFormed demoDistinct).1]
    exact demoWellFormed
  · rw [(compile_succeeds_iff_isWellFormed nowhereDistinct).1, nowhereMalformed]
    exact Bool.false_ne_true

end TreeBackend
