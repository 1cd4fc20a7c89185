import TreeBackend.Demo
import TreeBackend.Proofs.Acceptance
import TreeBackend.Proofs.Compilation
import TreeBackend.Proofs.Flattening.Chunks
import TreeBackend.Proofs.Lowering.Harmless
import TreeBackend.Proofs.Machine.Loading
import TreeBackend.Proofs.Machine.Routine
import TreeBackend.Proofs.Machine.Session

/-!
# Compiled code never goes wrong

Whatever a loaded program is asked to run, one call after the other, no call meets
code that is not flat, a store to something that is no cell, a jump to nowhere, a
temporary without a value or a label without an address.
-/

namespace TreeBackend

open Source Lowering Flattening
open Machine (Offer SafeStmt IsHarmless Harmless Interruption Routine)

/-! ### One call -/

namespace Machine

variable {offer : Offer}

/-- A body that can be run from its beginning without anything in temporaries. -/
structure Routine.IsSafe (offer : Offer) (routine : Routine) : Prop where
  leads : ∃ items, routine.statements = items.toArray ∧
    routine.jumps? = some (Routine.jumpsOf items) ∧
    (Code.ofBody items.toArray (Routine.jumpsOf items)).Placed 0 items ∧
    (Code.ofBody items.toArray (Routine.jumpsOf items)).Leads offer ∅ items ∅

theorem Routine.isSafe_ofBody {frame : Frame} {body : IR.Stmt} {supply rest : IR.TempSupply}
    {items : List IR.Stmt} (safe : SafeStmt offer ∅ body ∅) (once : body.labels.Nodup)
    (flattened : ofStmt body supply = .ok (items, rest)) :
    (Routine.ofBody frame (.seq items)).IsSafe offer where
  leads := by
    have placed := placed_ofBody (by rwa [ofStmt_labels body flattened])
    have leads := safe items.toArray (jumpsOf items) flattened ∅ (Set.empty_subset _)
    rw [Set.union_empty] at leads
    exact ⟨items, rfl, jumps?_ofBody frame (ofStmt_arePlain body flattened), placed, leads⟩

/-- If all functions are safe, then they can be run with any amount of fuel. -/
theorem runsHarmlessly (safe : ∀ routine ∈ offer.routines, routine.IsSafe offer) (fuel : Nat) :
    RunsHarmlessly offer fun statements jumps => runFrom fuel statements jumps 0 {} := by
  induction fuel using Nat.strongRecOn with
  | ind fuel ih =>
      intro routine member
      obtain ⟨items, same, isFlat, placed, leads⟩ := (safe routine member).leads
      refine ⟨_, isFlat, ?_⟩
      rw [same]
      have calls : (Code.ofBody items.toArray (Routine.jumpsOf items)).CallsSafely offer fuel :=
        fun less lt label arguments => harmless_callLabel (ih less lt) label arguments
      have atEnd : items.toArray[0 + items.length]? = none := by simp
      have runs := leads 0 placed fuel calls fun less _ => Code.safeFrom_end atEnd
      exact runs {} fun temp member => member.elim

theorem harmless_interpret (safe : ∀ routine ∈ offer.routines, routine.IsSafe offer)
    (fuel : Nat) (entry : Label) : IsHarmless offer (interpret fuel entry) := by
  intro machine offered
  unfold interpret
  cases found : machine.routine? entry with
  | none =>
      refine .inr ⟨.fault (.missingEntry entry), machine, ?_, offered, rfl⟩
      refine Outcome.bind_eq_error.mpr (.inr ⟨machine, machine, rfl, ?_⟩)
      rw [found]
      rfl
  | some routine =>
      have member : routine ∈ offer.routines := offered.routines ▸ mem_of_routine? found
      have runs : IsHarmless offer (do
          storeInt (← get).stackPointer 0
          invoke (fun statements jumps => runFrom fuel statements jumps 0 {}) routine
          loadInt (← get).stackPointer) := by
        refine harmless_get.bind fun _ _ => (harmless_storeInt _ _).bind fun _ _ => ?_
        exact (harmless_invoke (runsHarmlessly safe fuel) member).bind fun _ _ =>
          harmless_get.bind fun _ _ => harmless_loadInt _
      rcases runs machine offered with
        ⟨result, final, done, offered, holds⟩ | ⟨reason, final, failed, offered, expected⟩
      · refine .inl ⟨result, final, Outcome.bind_eq_ok.mpr ⟨machine, machine, rfl, ?_⟩, offered,
          holds⟩
        rw [found]
        exact done
      · refine .inr ⟨reason, final, Outcome.bind_eq_error.mpr (.inr ⟨machine, machine, rfl, ?_⟩),
          offered, expected⟩
        rw [found]
        exact failed

end Machine

/-! ### Compiled programs -/

/-- What a machine offers that is loaded with certain chunks. -/
def offerOf (chunks : List IR.Chunk) : Offer where
  routines := (chunks.filterMap IR.Chunk.routine?).toArray
  known := {label | label = .framePointer ∨ label = .stackPointer ∨
    label ∈ chunks.map IR.Chunk.label}

theorem holds_offerOf {chunks : List IR.Chunk} {config : Machine.Config} {machine : Machine}
    (loaded : Machine.load chunks config = .ok machine) : (offerOf chunks).Holds machine := by
  obtain ⟨routines, known⟩ := Machine.load_eq_ok loaded
  exact ⟨routines, known⟩

section Compiled

variable {program : Program} {chunks : List IR.Chunk}

theorem isSafe_of_compile (distinct : program.definitionIds.Nodup)
    (assign : AssignToReferences program.parts) (compiled : compile program = .ok chunks) :
    ∀ routine ∈ (offerOf chunks).routines, routine.IsSafe (offerOf chunks) := by
  obtain ⟨table, labels, state, rest, layout, lowered, flattened⟩ := compile_eq_ok.mp compiled
  have laid := (Layout.ofProgram_succeeds layout).2 distinct
  have emits := ofDefs_emits program.definitions [] lowered
  have draws := ofDefs_draws program.definitions assign.toCells lowered
  have sound : state.IsSound := draws.sound (by simp [LoweringState.IsSound])
  have known : ∀ chunk ∈ chunks, chunk.label ∈ (offerOf chunks).known := fun chunk member =>
    .inr (.inr (List.mem_map.mpr ⟨chunk, member, rfl⟩))
  have serves : Serves (offerOf chunks) table := by
    refine ⟨.inl rfl, .inr (.inl rfl), fun definition slot found => ?_⟩
    obtain ⟨owned, member, rfl, -⟩ := exists_global laid found
    have emitted := emits.globals owned member slot found
    exact known _ (mem_flattened flattened (by simp) emitted)
  have knows : KnowsTexts (offerOf chunks) state.chunks := fun slot text isThere =>
    known _ (mem_flattened flattened (by simp) isThere)
  intro routine member
  obtain ⟨flat, isFlat, isRoutine⟩ := List.mem_filterMap.mp (List.mem_toArray.mp member)
  obtain ⟨chunk, isThere, flattens⟩ := exists_unflattened flattened isFlat
  cases chunk with
  | data slot text =>
      obtain rfl := flattens
      cases isRoutine
  | global slot =>
      obtain rfl := flattens
      cases isRoutine
  | code frame body =>
      obtain ⟨first, last, items, -, bodyFlat, rfl⟩ := flattens
      obtain rfl := Option.some_inj.mp isRoutine
      rcases emits.stems _ isThere with isOld | ⟨function, isFunction, holds⟩
      · simp at isOld
      · obtain ⟨start, value, middle, _, -, bodyLowered, upTo, -, same⟩ := holds
        obtain ⟨rfl, rfl⟩ := IR.Chunk.code.inj same
        have safe : IsSafe (offerOf chunks) (.expr value) := safe_ofExpr serves function.body
          (assign.mono (Program.parts_body_subset isFunction)) (knows.before upTo) bodyLowered
        have bodySafe : SafeStmt (offerOf chunks) ∅ (functionBody value) ∅ :=
          .moveMem (.name serves.framePointer) safe
        exact Routine.isSafe_ofBody bodySafe (sound _ _ isThere).1 bodyFlat

theorem Machine.Session.holds {offer : Offer} {machine later : Machine}
    (session : machine.Session later) (offered : offer.Holds machine)
    (safe : ∀ routine ∈ offer.routines, routine.IsSafe offer) : offer.Holds later := by
  induction session with
  | start => exact offered
  | @call later final fuel entry result _ done ih =>
      rcases Machine.harmless_interpret safe fuel entry later ih with
        ⟨_, _, same, offered, -⟩ | ⟨_, _, failed, -⟩
      · cases done.symm.trans same
        exact offered
      · cases done.symm.trans failed
  | @failedCall later final fuel entry reason _ failed ih =>
      rcases Machine.harmless_interpret safe fuel entry later ih with
        ⟨_, _, done, -⟩ | ⟨_, _, same, offered, -⟩
      · cases failed.symm.trans done
      · cases failed.symm.trans same
        exact offered
  | redirect sink _ ih => exact ⟨ih.routines, ih.known⟩
  | overwrite address value _ ih => exact ih.writeWord address value

/-- No call in a session with a compiled program goes wrong. -/
theorem interpret_never_wrong {config : Machine.Config} {machine later final : Machine}
    {fuel : Nat} {entry : Label} {fault : Machine.Fault}
    (distinct : program.definitionIds.Nodup) (assign : AssignToReferences program.parts)
    (compiled : compile program = .ok chunks)
    (loaded : Machine.load chunks config = .ok machine) (session : machine.Session later)
    (failed : Machine.interpret fuel entry later = .error (.fault fault) final) :
    fault.isWrong = false := by
  have safe := isSafe_of_compile distinct assign compiled
  have offered := session.holds (holds_offerOf loaded) safe
  rcases Machine.harmless_interpret safe fuel entry later offered with
    ⟨_, _, done, -⟩ | ⟨_, _, same, -, expected⟩
  · cases failed.symm.trans done
  · cases failed.symm.trans same
    exact expected

/-- In a memory that is too small the demonstration program runs out of stack, and
again when it is called once more. -/
theorem interpret_never_wrong_demo :
    Demo.program.definitionIds.Nodup ∧ AssignToReferences Demo.program.parts ∧
      ∃ chunks machine later final fault, compile Demo.program = .ok chunks ∧
        Machine.load chunks { memorySize := 64 } = .ok machine ∧ machine.Session later ∧
        Machine.interpret 100 Machine.mainLabel later = .error (.fault fault) final ∧
        fault.isWrong = false := by
  have distinct : Demo.program.definitionIds.Nodup := by decide +kernel
  have assign : AssignToReferences Demo.program.parts := by decide +kernel
  have runs : (match compile Demo.program with
      | .ok chunks => match Machine.load chunks { memorySize := 64 } with
        | .ok machine => match Machine.interpret 100 Machine.mainLabel machine with
          | .error _ later => match Machine.interpret 100 Machine.mainLabel later with
            | .error (.fault _) _ => true
            | _ => false
          | .ok .. => false
        | .error _ => false
      | .error _ => false) = true := by decide +kernel
  refine ⟨distinct, assign, ?_⟩
  split at runs
  · next chunks compiled =>
      split at runs
      · next machine loaded =>
          split at runs
          · next later failed =>
              split at runs
              · next fault final failedAgain =>
                  have session : machine.Session later := .failedCall .start failed
                  exact ⟨chunks, machine, later, final, fault, compiled, loaded, session,
                    failedAgain, interpret_never_wrong distinct assign compiled loaded session
                      failedAgain⟩
              · cases runs
          · cases runs
      · cases runs
  · cases runs

end Compiled

end TreeBackend
