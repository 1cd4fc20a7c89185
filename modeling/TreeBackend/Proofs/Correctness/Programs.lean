import TreeBackend.Proofs.Correctness.Expressions

/-!
# What the code of functions does

A call carries out a new activation: it makes a frame, does in its body what an evaluation of
the body does, and leaves with the result.  By induction on the depth to which calls are
followed this holds of all calls for whose frames there is room.
-/

namespace TreeBackend

open Filter Source Lowering
open Machine (Routine Returns)
open Machine.Code

section Bodies

variable {around : Surroundings} {table : FrameTable} {chunks : List IR.Chunk}
  {start machine : Machine} {here : LiveCall} {older : List LiveCall} {items : List IR.Stmt}
  {world after : World} {result : Option Int}

theorem Scene.exists_runFrom_eq (scene : Scene around table chunks start here older)
    (compiles : here.call.function.CompilesTo around.program table chunks items)
    (once : (Flattening.definedLabels items).Nodup)
    (evaluated : here.call.function.body.evaluate around world = some (result, after))
    (represents : Represents table start (here :: older) world machine) :
    ∃ value final, (∀ found ∈ result, value = found) ∧
      Represents table start (here :: older) after final ∧
      ∀ᶠ fuel in atTop, Machine.runFrom fuel items.toArray (Routine.jumpsOf items) 0 {} machine =
        .ok () (final.writeWord here.call.framePointer (.int value)) := by
  obtain ⟨state, code, middle, first, last, lowered, text, above, flattened⟩ := compiles
  have assign := scene.furnished.scope.assignToReferences
    (scene.isLive.function_mem (List.mem_cons_self ..))
  have achieves : Achieves table start (here :: older)
      (.ofBody items.toArray (Routine.jumpsOf items)) first.issued world result after
      (.expr code) :=
    evaluate_achieves scene here.call.function.body ⟨List.Subset.refl _, assign⟩ ⟨above, text⟩
      lowered evaluated
  have performs : (Machine.Code.ofBody items.toArray (Routine.jumpsOf items)).Performs first.issued
      (functionBody code) {} machine fun _ reached => ∃ value final,
        reached = final.writeWord here.call.framePointer (.int value) ∧
          (∀ found ∈ result, value = found) ∧
          Represents table start (here :: older) after final := by
    refine performs_move_mem (by simp [IR.Expr.lastTemp?, IR.Expr.framePointer])
      (yields_of_denotes rfl rfl (fun _ _ _ => eval_framePointer) represents.keeps fun _ _ =>
        (achieves represents).mono ?_)
    rintro value _ final ⟨matched, represents⟩
    exact ⟨(represents.leave scene.furnished scene.isLive value).1, value, final, rfl, matched,
      represents⟩
  have below : ∀ temp ∈ (functionBody code).temps, temp.number < first.issued := by
    intro temp member
    have inCode : temp ∈ (Lowered.expr code).toStmt.temps := by
      rw [toStmt_temps]
      simpa [functionBody, IR.Stmt.temps, IR.Expr.temps, IR.Expr.framePointer] using member
    have drawn := ofExpr_draws here.call.function.body assign.toCells lowered
    exact (drawn.temp temp inCode).2.trans_le above
  obtain ⟨_, _, executes, -, value, final, rfl, matched, represents⟩ :=
    performs below flattened (Nat.le_refl _) (.refl _ _)
  have reaches := executes.reaches 0 (Routine.placed_ofBody once)
  exact ⟨value, final, matched, represents, reaches.runFrom (by simp)⟩

end Bodies

section Calls

variable {program : Program} {table : FrameTable} {chunks : List IR.Chunk} {start : Machine}
  {rounds : Nat}

/-- Calls do what an evaluation does that follows them to some depth, if there is room for
frames of the largest size to this depth. -/
theorem callsWork (furnished : Furnished program table chunks start) {largest : Int}
    (frames : ∀ function ∈ program.functions,
      function.frameExtent program.resolution ≤ largest)
    (depth : Nat) {live : List LiveCall} (isLive : IsLive program table start live)
    (room : start.memory.staticTop + depth * largest ≤
      Call.stackPointerOf (start.memory.size - Word.size) (callsOf live)) :
    CallsWork program (program.call rounds depth) table start live := by
  induction depth generalizing live with
  | zero =>
      exact ⟨fun {_ _ _ world _ _} called => (@Evaluation.stuck_ne_some _ world _ _ called).elim,
        fun {_ _ _ _ world _ _} called => (@Evaluation.stuck_ne_some _ world _ _ called).elim⟩
  | succ depth ih =>
      refine ⟨fun called => ?_, fun {callee routine scope values world after result} called can
        found inScope => ?_⟩
      · obtain ⟨_, assigned, -⟩ := call_succ_eq_some.mp called
        exact (assignAll_eq_some assigned).1
      obtain ⟨entering, assigned, evaluated⟩ := call_succ_eq_some.mp called
      obtain ⟨frame, items, isFrame, compiles, once, -, isRoutine⟩ :=
        furnished.code callee can.member
      have sameFrame : routine.frame = frame :=
        Option.some_inj.mp (can.runs.frame.symm.trans isFrame)
      rw [sameFrame] at found
      obtain rfl := Option.some_inj.mp (found.symm.trans isRoutine)
      -- The frame takes the room of the largest one at most, which leaves room for all calls in it.
      have size := furnished.size_frame can.member isFrame ▸ frames callee can.member
      obtain ⟨low, high⟩ := isLive.stack.stackPointerOf_fits furnished.toHosts
      have top : (newCall start (callsOf live) callee (.ofBody frame (.seq items))).top =
          Call.stackPointerOf (start.memory.size - Word.size) (callsOf live) - frame.size :=
        (furnished.frame_at can.member isFrame low high).1
      have deeper : start.memory.staticTop + depth * largest ≤
          (newCall start (callsOf live) callee (.ofBody frame (.seq items))).top := by
        rw [Nat.cast_succ, Int.add_mul, Int.one_mul] at room
        omega
      have fits : start.memory.staticTop ≤
          (newCall start (callsOf live) callee (.ofBody frame (.seq items))).top := by
        obtain ⟨-, locals, -, arguments, -, saved, whole, -⟩ :=
          furnished.frame_parts can.member isFrame
        have reserved : 0 ≤ depth * largest := by
          apply Int.mul_nonneg (Int.natCast_nonneg _)
          unfold Word.size at *
          omega
        omega
      refine ⟨fits, fun {machine} represents => ?_⟩
      have flat := Routine.jumps?_ofBody frame compiles.arePlain
      obtain ⟨stored, entered, stores, enters, newIsLive, representsEntered⟩ :=
        represents.enter furnished isLive can fits flat assigned
      have scene : Scene ⟨program, rounds, program.call rounds depth,
          ⟨callee, world.activations⟩ :: scope⟩ table chunks start
          (newLive start live world callee (.ofBody frame (.seq items))) live :=
        ⟨furnished, newIsLive, inScope.cons furnished.scope.distinct isLive can.member,
          ih newIsLive deeper⟩
      obtain ⟨value, final, matched, representsFinal, runs⟩ :=
        scene.exists_runFrom_eq compiles once evaluated representsEntered
      obtain ⟨-, left, leaves, representsLeft, fetched⟩ :=
        representsFinal.leave furnished newIsLive value
      exact ⟨value, left, ⟨stored, stores, runs.mono fun _ runs =>
        Machine.invoke_eq enters runs leaves, fetched⟩, matched, representsLeft⟩

end Calls

end TreeBackend
