import TreeBackend.Pipeline
import TreeBackend.Proofs.Lowering.Objections

/-!
# Where compile errors come from

Compilation fails only if something that the program defines has no type, or with an objection to
one of its expressions.  Nothing is assumed about the program; its definitions may even have the
same numbers.
-/

namespace TreeBackend

open Source Lowering

variable {program : Program}

/-- Lowering a program that is laid out ends in an objection, or in code that can be flattened if
all assignments go to places. -/
theorem objects_ofProgram {table : FrameTable} (entered : program.EnteredIn table)
    (labels : LabelSupply) :
    (∃ state, Lowering.ofProgram program table labels {} = .ok state ∧
      (AssignToPlaces program.partsByDepth → AreFlattenable state.chunks)) ∨
    ∃ problem, Lowering.ofProgram program table labels {} = .error problem ∧
      ObjectedIn program program.partsByDepth problem := by
  have decides := objects_ofDefs entered program.definitions [] entered.covers
  rw [List.length_nil] at decides
  unfold Lowering.ofProgram EStateM.run
  rcases decides { labels } with
    ⟨⟨⟩, state, new, done, grown, flattenable⟩ | ⟨problem, state, failed, objected⟩
  · refine .inl ⟨state, by rw [done], ?_⟩
    rw [grown]
    exact flattenable
  · exact .inr ⟨problem, by rw [failed], objected⟩

/-- Code that cannot be flattened comes from an assignment to something other than a place. -/
theorem objectedIn_unflattenable {standing : List (Nat × Source.Expr)}
    (misplaced : ¬AssignToPlaces standing) (what : String) :
    ObjectedIn program standing (.unflattenable what) := by
  obtain ⟨depth, node, target, value, member, placeless⟩ : ∃ depth node target value,
      (depth, Source.Expr.binary node .assign target value) ∈ standing ∧
        ¬target.isPlace = true := by
    simpa [AssignToPlaces] using misplaced
  exact ⟨_, member, .noPlace (Bool.eq_false_iff.mpr placeless)⟩

/-- Every error of compilation is about something without a type that the program defines, or an
objection to one of its expressions. -/
theorem objectedIn_of_compile_eq_error {problem : CompileError}
    (failed : compile program = .error problem) :
    (program.isTyped = false ∧ Layout.IsMissingType problem) ∨
      ObjectedIn program program.partsByDepth problem := by
  unfold compile at failed
  cases layout : Layout.ofProgram program {} with
  | error reason =>
      rw [layout] at failed
      obtain rfl := Except.error.inj failed
      obtain ⟨missing, untyped⟩ := Layout.ofProgram_fails layout
      exact .inl ⟨untyped, missing⟩
  | ok laidOut =>
      obtain ⟨table, labels⟩ := laidOut
      refine .inr ?_
      rcases objects_ofProgram (Layout.ofProgram_enters layout) labels with
        ⟨state, lowered, flattenable⟩ | ⟨reason, rejected, objected⟩
      · rcases Flattening.decides_ofChunks state.chunks state.temps with
          ⟨-, chunks, rest, flat⟩ | ⟨stuck, what, unflattenable⟩
        · simp [layout, bind, Except.bind, lowered, StateT.run, flat, pure, Except.pure] at failed
        · obtain rfl : CompileError.unflattenable what = problem := by
            simpa [layout, bind, Except.bind, lowered, StateT.run, unflattenable] using failed
          exact objectedIn_unflattenable (fun places => stuck (flattenable places)) what
      · obtain rfl : reason = problem := by
          simpa [layout, bind, Except.bind, rejected] using failed
        exact objected

end TreeBackend
