import TreeBackend.Proofs.Machine.FlatRun

/-!
# Runs through conditionals and loops

The effects of the pieces of a conditional or a loop, put together to the effect of
the whole.  A round of a loop ends where the loop began, so the effect of a loop is
that of one round followed by the loop again.
-/

namespace TreeBackend.Machine.Code

open Filter IR

variable {code : Code} {temps temps' temps₁ temps₂ : Temps}
  {machine machine' machine₁ machine₂ machine₃ : Machine} {condition : Expr} {value : Int}

/-! ### Jumps -/

theorem reaches_jump {position target : Nat} {label : Label}
    (found : code.statements[position]? = some (.jump label))
    (known : code.jumps.get? label = some target) :
    code.Reaches ⟨position, temps, machine⟩ ⟨target, temps, machine⟩ :=
  .single (.jump found (.of_forall fun _ => execute_jump_eq_ok.mpr ⟨rfl, rfl⟩) known)

theorem reaches_cjump_of_ne {position target : Nat} {whenTrue whenFalse : Label}
    (found : code.statements[position]? = some (.cjump condition whenTrue whenFalse))
    (evaluates : code.Evaluates temps condition machine value machine') (notZero : value ≠ 0)
    (known : code.jumps.get? whenTrue = some target) :
    code.Reaches ⟨position, temps, machine⟩ ⟨target, temps, machine'⟩ := by
  refine .single (.jump found (evaluates.result.mono fun _ result => ?_) known)
  exact execute_cjump_eq_ok.mpr ⟨value, result, by rw [if_neg notZero]⟩

theorem reaches_cjump_of_eq {position target : Nat} {whenTrue whenFalse : Label}
    (found : code.statements[position]? = some (.cjump condition whenTrue whenFalse))
    (evaluates : code.Evaluates temps condition machine value machine') (isZero : value = 0)
    (known : code.jumps.get? whenFalse = some target) :
    code.Reaches ⟨position, temps, machine⟩ ⟨target, temps, machine'⟩ := by
  refine .single (.jump found (evaluates.result.mono fun _ result => ?_) known)
  exact execute_cjump_eq_ok.mpr ⟨value, result, by rw [if_pos isZero]⟩

theorem reaches_label {position : Nat} {label : Label} {rest : List Stmt}
    (placed : code.Placed position (.label label :: rest)) :
    code.Reaches ⟨position, temps, machine⟩ ⟨position + 1, temps, machine⟩ :=
  .single (.next placed.head (.of_forall fun _ => execute_label_eq_ok.mpr ⟨rfl, rfl⟩))

namespace Executes

variable {test branch other body : List Stmt} {first second third : Label}

/-! ### Conditionals -/

theorem ifThen_skip (tests : code.Executes test temps machine temps₁ machine₁)
    (evaluates : code.Evaluates temps₁ condition machine₁ value machine₂) (isZero : value = 0) :
    code.Executes (test ++ .cjump condition first third :: .label first ::
      (branch ++ [.jump third, .label third])) temps machine temps₁ machine₂ where
  idle empty := by simp at empty
  labels := tests.labels.trans evaluates.labels
  reaches position placed := by
    have atCondition := placed.right
    have atEnd := atCondition.tail.tail.right
    have toEnd := (reaches_cjump_of_eq atCondition.head evaluates isZero
      atEnd.tail.head_target).trans (reaches_label atEnd.tail)
    have reached := (tests.reaches position placed.left).trans toEnd
    simpa [Nat.add_assoc, Nat.add_comm, Nat.add_left_comm] using reached

theorem ifThen_run (tests : code.Executes test temps machine temps₁ machine₁)
    (evaluates : code.Evaluates temps₁ condition machine₁ value machine₂) (notZero : value ≠ 0)
    (runs : code.Executes branch temps₁ machine₂ temps' machine') :
    code.Executes (test ++ .cjump condition first third :: .label first ::
      (branch ++ [.jump third, .label third])) temps machine temps' machine' where
  idle empty := by simp at empty
  labels := (tests.labels.trans evaluates.labels).trans runs.labels
  reaches position placed := by
    have atCondition := placed.right
    have atBranch := atCondition.tail
    have atEnd := atBranch.tail.right
    have toBranch := (reaches_cjump_of_ne atCondition.head evaluates notZero
      atBranch.head_target).trans (reaches_label atBranch)
    have toEnd := (runs.reaches _ atBranch.tail.left).trans
      ((reaches_jump atEnd.head atEnd.tail.head_target).trans (reaches_label atEnd.tail))
    have reached := (tests.reaches position placed.left).trans (toBranch.trans toEnd)
    simpa [Nat.add_assoc, Nat.add_comm, Nat.add_left_comm] using reached

theorem ifThenElse_then (tests : code.Executes test temps machine temps₁ machine₁)
    (evaluates : code.Evaluates temps₁ condition machine₁ value machine₂) (notZero : value ≠ 0)
    (runs : code.Executes branch temps₁ machine₂ temps' machine') :
    code.Executes (test ++ .cjump condition first second :: .label first ::
      (branch ++ .jump third :: .label second :: (other ++ [.jump third, .label third])))
      temps machine temps' machine' where
  idle empty := by simp at empty
  labels := (tests.labels.trans evaluates.labels).trans runs.labels
  reaches position placed := by
    have atCondition := placed.right
    have atBranch := atCondition.tail
    have afterBranch := atBranch.tail.right
    have atEnd := afterBranch.tail.tail.right
    have toBranch := (reaches_cjump_of_ne atCondition.head evaluates notZero
      atBranch.head_target).trans (reaches_label atBranch)
    have toEnd := (runs.reaches _ atBranch.tail.left).trans
      ((reaches_jump afterBranch.head atEnd.tail.head_target).trans (reaches_label atEnd.tail))
    have reached := (tests.reaches position placed.left).trans (toBranch.trans toEnd)
    simpa [Nat.add_assoc, Nat.add_comm, Nat.add_left_comm] using reached

theorem ifThenElse_else (tests : code.Executes test temps machine temps₁ machine₁)
    (evaluates : code.Evaluates temps₁ condition machine₁ value machine₂) (isZero : value = 0)
    (runs : code.Executes other temps₁ machine₂ temps' machine') :
    code.Executes (test ++ .cjump condition first second :: .label first ::
      (branch ++ .jump third :: .label second :: (other ++ [.jump third, .label third])))
      temps machine temps' machine' where
  idle empty := by simp at empty
  labels := (tests.labels.trans evaluates.labels).trans runs.labels
  reaches position placed := by
    have atCondition := placed.right
    have atOther := atCondition.tail.tail.right.tail
    have atEnd := atOther.tail.right
    have toOther := (reaches_cjump_of_eq atCondition.head evaluates isZero
      atOther.head_target).trans (reaches_label atOther)
    have toEnd := (runs.reaches _ atOther.tail.left).trans
      ((reaches_jump atEnd.head atEnd.tail.head_target).trans (reaches_label atEnd.tail))
    have reached := (tests.reaches position placed.left).trans (toOther.trans toEnd)
    simpa [Nat.add_assoc, Nat.add_comm, Nat.add_left_comm] using reached

/-! ### Loops -/

theorem whileLoop_done (tests : code.Executes test temps machine temps₁ machine₁)
    (evaluates : code.Evaluates temps₁ condition machine₁ value machine₂) (isZero : value = 0) :
    code.Executes (.label first :: (test ++ .cjump condition second third :: .label second ::
      (body ++ [.jump first, .label third]))) temps machine temps₁ machine₂ where
  idle empty := by simp at empty
  labels := tests.labels.trans evaluates.labels
  reaches position placed := by
    have atCondition := placed.tail.right
    have atEnd := atCondition.tail.tail.right
    have toEnd := (reaches_cjump_of_eq atCondition.head evaluates isZero
      atEnd.tail.head_target).trans (reaches_label atEnd.tail)
    have reached := (reaches_label placed).trans
      ((tests.reaches _ placed.tail.left).trans toEnd)
    simpa [Nat.add_assoc, Nat.add_comm, Nat.add_left_comm] using reached

theorem whileLoop_round (tests : code.Executes test temps machine temps₁ machine₁)
    (evaluates : code.Evaluates temps₁ condition machine₁ value machine₂) (notZero : value ≠ 0)
    (runs : code.Executes body temps₁ machine₂ temps₂ machine₃)
    (again : code.Executes (.label first :: (test ++ .cjump condition second third ::
      .label second :: (body ++ [.jump first, .label third]))) temps₂ machine₃ temps' machine') :
    code.Executes (.label first :: (test ++ .cjump condition second third :: .label second ::
      (body ++ [.jump first, .label third]))) temps machine temps' machine' where
  idle empty := by simp at empty
  labels := ((tests.labels.trans evaluates.labels).trans runs.labels).trans again.labels
  reaches position placed := by
    have atCondition := placed.tail.right
    have atBody := atCondition.tail
    have atEnd := atBody.tail.right
    have toBody := (reaches_cjump_of_ne atCondition.head evaluates notZero
      atBody.head_target).trans (reaches_label atBody)
    have round := (runs.reaches _ atBody.tail.left).trans
      (reaches_jump atEnd.head placed.head_target)
    exact (reaches_label placed).trans ((tests.reaches _ placed.tail.left).trans
      (toBody.trans (round.trans (again.reaches position placed))))

end Executes

end TreeBackend.Machine.Code
