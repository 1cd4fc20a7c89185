import TreeBackend.Proofs.Correctness.Shapes
import TreeBackend.Proofs.Machine.Completion

/-!
# What the code of a call does

The code of a call passes the static link and the arguments, and the callee does what an
evaluation of the call does: a builtin prints a line, and a function returns.
-/

namespace TreeBackend

open Filter Source Lowering
open Machine (Code Temps Routine Returns NoBuiltin)
open Machine.Code

/-- What the arguments of a call have become does what an evaluation of them does. -/
def AchievesAll (table : FrameTable) (start : Machine) (live : List LiveCall) (code : Code)
    (bound : Nat) (world : World) (values : List Int) (after : World)
    (operands : List IR.Expr) : Prop :=
  ∀ ⦃temps : Temps⦄ ⦃machine : Machine⦄, Represents table start live world machine →
    code.YieldsAll bound operands temps machine fun found _ final =>
      found = values ∧ Represents table start live after final

section Calls

variable {program : Program} {table : FrameTable} {chunks : List IR.Chunk} {start : Machine}
  {live older : List LiveCall} {here : LiveCall} {bound : Nat} {world middle after : World}
  {statements : Array IR.Stmt} {jumps : Table Label Nat} {operands : List IR.Expr}
  {result : Option Int} {values : List Int} {value : Int} {operand : IR.Expr}

/-! ### Arguments -/

theorem achievesAll_nil {code : Code} :
    AchievesAll table start live code bound world [] world [] :=
  fun _ _ represents _ _ => ⟨rfl, represents⟩

theorem achievesAll_cons {code : Code}
    (first : Achieves table start live code bound world (some value) middle (.expr operand))
    (others : AchievesAll table start live code bound middle values after operands) :
    AchievesAll table start live code bound world (value :: values) after
      (operand :: operands) := by
  intro temps machine represents
  refine Yields.mono (first.yields represents) ?_
  rintro _ _ _ ⟨rfl, represents⟩
  refine (others represents).mono ?_
  rintro _ _ _ ⟨rfl, represents⟩
  exact ⟨rfl, represents⟩

theorem steady_of_lastTemp? (noTemp : ∀ operand ∈ operands, operand.lastTemp? = none) :
    Steady operands := by
  induction operands with
  | nil => trivial
  | cons operand rest ih =>
      obtain ⟨first, others⟩ := List.forall_mem_cons.mp noTemp
      exact ⟨by simp [first], ih others⟩

theorem staticLink_lastTemp? (level calleeLevel : Nat) :
    (staticLink level calleeLevel).lastTemp? = none := by
  unfold staticLink
  split
  · rfl
  · split <;> rfl

/-! ### Builtins -/

theorem calls_builtin (builtin : Builtin) (fuel : Nat) (passed : List Int) :
    (Code.ofBody statements jumps).calls fuel (.named builtin.name) passed =
      Machine.callBuiltin builtin passed := by
  simp only [Code.ofBody, Machine.callLabel]
  rw [Builtin.ofName?_eq_some_iff.mpr rfl]

/-- A builtin gets an empty static link and prints a line. -/
theorem achieves_print {level : Nat} {builtin : Builtin} {line : String}
    (noTemp : ∀ operand ∈ operands, operand.lastTemp? = none)
    (arguments : AchievesAll table start live (.ofBody statements jumps) bound world values middle
      operands)
    (prints : ∀ {machine : Machine}, Represents table start live middle machine →
      Machine.callBuiltin builtin (0 :: values) machine =
        .ok value (machine.withOutput (middle.output ++ line ++ "\n")))
    (matched : ∀ found ∈ result, value = found) :
    Achieves table start live (.ofBody statements jumps) bound world result
      { middle with output := middle.output ++ line ++ "\n" }
      (.expr (call level ⟨.named builtin.name, 1, none⟩ operands)) := by
  intro temps machine represents
  refine yields_eseq (performs_seq fun temps₁ _ => yields_call ?_ ?_)
  · exact ⟨by simp [staticLink_lastTemp?], steady_of_lastTemp? noTemp⟩
  · refine Code.yields_const fun temps₂ _ => (arguments represents).mono ?_
    rintro _ _ machine ⟨rfl, represents⟩
    refine ⟨value, machine.withOutput (middle.output ++ line ++ "\n"), .of_forall fun fuel => ?_,
      fun _ => rfl, matched, represents.print line⟩
    rw [calls_builtin]
    exact prints represents

/-! ### Functions -/

theorem achieves_call (furnished : Furnished program table chunks start)
    (isLive : IsLive program table start (here :: older)) {callee : Source.Function}
    {routine : Routine} (can : CanCall program table (callsOf (here :: older)) callee routine)
    (room : start.memory.staticTop ≤
      (newCall start (callsOf (here :: older)) callee routine).top)
    (noBuiltin : NoBuiltin routine.frame.label)
    (found : start.routine? routine.frame.label = some routine)
    (noTemp : ∀ operand ∈ operands, operand.lastTemp? = none)
    (arguments : AchievesAll table start (here :: older) (.ofBody statements jumps) bound world
      values middle operands)
    (returns : ∀ {machine : Machine}, Represents table start (here :: older) middle machine →
      ∃ value final,
        Returns routine (Call.linkOf callee (callsOf (here :: older)) :: values) machine value
          final ∧
        (∀ found ∈ result, value = found) ∧ Represents table start (here :: older) after final) :
    Achieves table start (here :: older) (.ofBody statements jumps) bound world result after
      (.expr (call here.call.function.depth
        ⟨routine.frame.label, routine.frame.level, some routine.frame.savedPointerOffset⟩
        operands)) := by
  have hosts := furnished.toHosts
  have newStack := isLive.stack.cons hosts can room
  obtain ⟨labels, laid⟩ := hosts.laidOut can.member
  have level : routine.frame.level = callee.depth := by
    obtain ⟨label, -, isFrame⟩ := laid.frame
    rw [Option.some_inj.mp (can.runs.frame.symm.trans isFrame)]
    rfl
  obtain ⟨noFrame, noStack⟩ := hosts.noPointer callee can.member _ can.runs.frame
  obtain ⟨low, high⟩ := isLive.stack.stackPointerOf_fits hosts
  have savedAt : (newCall start (callsOf (here :: older)) callee routine).savedAt =
      here.call.top - routine.frame.savedPointerOffset :=
    (hosts.frame_at can.member can.runs.frame low high).2
  obtain ⟨scratch, whole⟩ := newStack.isScratch_savedAt hosts
  rw [savedAt] at scratch whole
  obtain ⟨-, saves⟩ := isLive.stack.denotes_saved hosts
    ⟨callee, can.member, _, can.runs.frame, rfl⟩
  have linked := isLive.stack.denotes_staticLink hosts.scope.distinct can.member can.passed.1
  obtain ⟨linkPlain, linkCalls⟩ := staticLink_isPlain here.call.function.depth callee.depth
  intro temps machine represents
  rw [level]
  refine yields_eseq (performs_move_mem (by simp [IR.Expr.lastTemp?])
    (yields_of_denotes rfl rfl saves represents.keeps fun temps₁ _ =>
      yields_of_denotes rfl rfl (fun _ _ _ => eval_framePointer) represents.keeps
        fun temps₂ _ => ?_))
  obtain ⟨valid, saved⟩ := represents.scratch furnished isLive scratch whole
    here.call.framePointer
  refine ⟨valid, yields_call ⟨by simp [staticLink_lastTemp?], steady_of_lastTemp? noTemp⟩
    (yields_of_denotes linkPlain linkCalls linked saved.keeps fun temps₃ _ =>
      (arguments saved).mono ?_)⟩
  rintro _ _ machine ⟨rfl, represents⟩
  obtain ⟨value, final, ends, matched, after⟩ := returns represents
  exact ⟨value, final, ends.callLabel noBuiltin (represents.routine? noFrame noStack found) _ _,
    represents.keeps.sameLabels after.keeps, matched, after⟩

end Calls

end TreeBackend
