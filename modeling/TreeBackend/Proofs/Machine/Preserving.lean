import TreeBackend.Proofs.Machine.Reached

/-!
# What a run preserves

A run changes the machine only where it stores something, calls a builtin, makes a frame or
removes one.  Something that holds at the beginning and is preserved by each of these in the
states that are reached holds in all of these states.
-/

namespace TreeBackend.Machine

open Outcome
open IR (Expr Stmt)

/-- Something is preserved by whatever a run from an entry does to the machine. -/
structure Preserved (start : Machine) (entry : Label) (holds : Machine → Prop) : Prop where
  begins : ∀ {routine machine}, start.routine? entry = some routine →
    storeInt start.stackPointer 0 start = .ok () machine → holds machine
  store : ∀ {fuel stack machine temps address source place value middle last final},
    Reached start entry fuel stack machine (.execute temps (.move (.mem address) source)) →
    eval (callWith fuel) temps address machine = .ok place middle →
    eval (callWith fuel) temps source middle = .ok value last → holds last →
    storeInt place value last = .ok () final → holds final
  pass : ∀ {fuel stack machine routine address value rest final},
    Reached start entry fuel stack machine (.pass routine address (value :: rest)) →
    holds machine → storeInt address value machine = .ok () final → holds final
  builtin : ∀ {machine builtin arguments result final}, holds machine →
    callBuiltin builtin arguments machine = .ok result final → holds final
  enter : ∀ {fuel stack machine routine jumps final},
    Reached start entry fuel stack machine (.invoke routine) → holds machine →
    Machine.enter routine machine = .ok jumps final → holds final
  leave : ∀ {fuel activation stack machine jumps position temps final},
    Reached start entry fuel (activation :: stack) machine (.run jumps position temps) →
    holds machine → Machine.leave activation.routine machine = .ok () final → holds final

section Preserving

variable {start : Machine} {entry : Label} {holds : Machine → Prop} {fuel : Nat}
  {stack : List Activation} {machine final : Machine} {temps : Temps}

/-- Calls with a number of statements to run preserve something. -/
def CallsPreserve (start : Machine) (entry : Label) (holds : Machine → Prop) (fuel : Nat) : Prop :=
  ∀ ⦃stack machine label values result final⦄,
    Reached start entry fuel stack machine (.call label values) → holds machine →
      callWith fuel label values machine = .ok result final → holds final

mutual

theorem eval_preserves (calls : CallsPreserve start entry holds fuel) : (expression : Expr) →
    {machine final : Machine} → {value : Int} →
    Reached start entry fuel stack machine (.evaluate temps expression) → holds machine →
    eval (callWith fuel) temps expression machine = .ok value final → holds final
  | .const _, _, _, _, _, here, evaluated => by
      obtain ⟨-, rfl⟩ := eval_const_eq_ok.mp evaluated
      exact here
  | .name _, _, _, _, _, here, evaluated => by
      rw [eval_name] at evaluated
      obtain ⟨-, rfl⟩ := labelAddress_eq_ok.mp evaluated
      exact here
  | .temp _, _, _, _, _, here, evaluated => by
      rw [eval_temp] at evaluated
      obtain ⟨-, rfl⟩ := readTemp_eq_ok.mp evaluated
      exact here
  | .mem address, _, _, _, reached, here, evaluated => by
      obtain ⟨_, places, -⟩ := eval_mem_eq_ok.mp evaluated
      exact eval_preserves calls address reached.address here places
  | .binop _ left right, _, _, _, reached, here, evaluated => by
      obtain ⟨_, _, _, lefts, rights, -⟩ := eval_binop_eq_ok.mp evaluated
      exact eval_preserves calls right (reached.right lefts)
        (eval_preserves calls left reached.left here lefts) rights
  | .call _ arguments, _, _, _, reached, here, evaluated => by
      obtain ⟨_, _, evaluates, called⟩ := eval_call_eq_ok.mp evaluated
      exact calls (reached.call evaluates)
        (evalAll_preserves calls arguments reached.arguments here evaluates) called
  | .eseq .., _, _, _, _, _, evaluated => by
      rw [eval] at evaluated
      exact (throw_ne_ok evaluated).elim

theorem evalAll_preserves (calls : CallsPreserve start entry holds fuel) :
    (expressions : List Expr) → {machine final : Machine} → {values : List Int} →
    Reached start entry fuel stack machine (.evaluateAll temps expressions) → holds machine →
    evalAll (callWith fuel) temps expressions machine = .ok values final → holds final
  | [], _, _, _, _, here, evaluated => by
      obtain ⟨-, rfl⟩ := evalAll_nil_eq_ok.mp evaluated
      exact here
  | expression :: rest, _, _, _, reached, here, evaluated => by
      obtain ⟨_, _, _, first, others, -⟩ := evalAll_cons_eq_ok.mp evaluated
      exact evalAll_preserves calls rest (reached.others first)
        (eval_preserves calls expression reached.first here first) others

end

namespace Preserved

variable (preserved : Preserved start entry holds)

include preserved

theorem execute (calls : CallsPreserve start entry holds fuel) {statement : Stmt}
    {next : Continuation}
    (reached : Reached start entry fuel stack machine (.execute temps statement))
    (here : holds machine)
    (executed : Machine.execute (callWith fuel) temps statement machine = .ok next final) :
    holds final := by
  match statement with
  | .label _ =>
      obtain ⟨-, rfl⟩ := execute_label_eq_ok.mp executed
      exact here
  | .jump _ =>
      obtain ⟨-, rfl⟩ := execute_jump_eq_ok.mp executed
      exact here
  | .cjump condition _ _ =>
      obtain ⟨_, tested, -⟩ := execute_cjump_eq_ok.mp executed
      exact eval_preserves calls condition reached.condition here tested
  | .exp value =>
      obtain ⟨_, evaluated, -⟩ := execute_exp_eq_ok.mp executed
      exact eval_preserves calls value reached.expression here evaluated
  | .move (.temp _) source =>
      obtain ⟨_, evaluated, -⟩ := execute_move_temp_eq_ok.mp executed
      exact eval_preserves calls source reached.assigned here evaluated
  | .move (.mem address) source =>
      obtain ⟨_, _, _, _, places, values, valid, rfl, -⟩ := execute_move_mem_eq_ok.mp executed
      have placed := eval_preserves calls address reached.place here places
      have valued := eval_preserves calls source (reached.stored places) placed values
      exact preserved.store reached places values valued (storeInt_eq_ok.mpr ⟨valid, rfl⟩)
  | .move (.const _) _ | .move (.name _) _ | .move (.binop ..) _ | .move (.call ..) _
  | .move (.eseq ..) _ | .seq _ =>
      rw [Machine.execute] at executed
      · exact (throw_ne_ok executed).elim
      all_goals simp

theorem storeInts {routine : Routine} {address : Int} {arguments : List Int}
    (reached : Reached start entry fuel stack machine (.pass routine address arguments))
    (here : holds machine) (stored : Machine.storeInts address arguments machine = .ok () final) :
    holds final := by
  induction arguments generalizing machine address with
  | nil =>
      obtain ⟨-, rfl⟩ := pure_eq_ok.mp stored
      exact here
  | cons value rest ih =>
      obtain ⟨⟨⟩, middle, first, others⟩ := bind_eq_ok.mp stored
      exact ih (reached.passed first) (preserved.pass reached here first) others

/-- If bodies preserve something and end in states that are reached, then calls preserve it. -/
theorem callsPreserve_of_bodies
    (bodies : ∀ {activation : Activation} {stack : List Activation} {machine final : Machine}
      {jumps : Table Label Nat},
      Reached start entry fuel (activation :: stack) machine (.run jumps 0 {}) → holds machine →
        Machine.runFrom fuel activation.routine.statements jumps 0 {} machine = .ok () final →
          holds final ∧ ∃ less position temps,
            Reached start entry less (activation :: stack) final (.run jumps position temps)) :
    CallsPreserve start entry holds fuel := by
  intro stack machine label values result final reached here called
  rcases callLabel_eq_ok called with ⟨builtin, called⟩ | ⟨noBuiltin, called⟩
  · exact preserved.builtin here called
  · obtain ⟨routine, stored, found, stores, invoked, -⟩ := callRoutine_eq_ok.mp called
    have passes := reached.pass noBuiltin found
    have invokes := passes.of_storeInts stores
    obtain ⟨jumps, entered, left, enters, runs, leaves⟩ := invoke_eq_ok.mp invoked
    have begun := preserved.enter invokes (preserved.storeInts passes here stores) enters
    obtain ⟨ended, _, _, _, atEnd⟩ := bodies (invokes.enter enters) begun runs
    exact preserved.leave atEnd ended leaves

/-- Running the rest of a body preserves something, and ends in a state that is reached. -/
theorem runFrom {activation : Activation} {jumps : Table Label Nat} {position : Nat}
    (reached : Reached start entry fuel (activation :: stack) machine (.run jumps position temps))
    (here : holds machine)
    (ran : Machine.runFrom fuel activation.routine.statements jumps position temps machine =
      .ok () final) :
    holds final ∧ ∃ less position temps,
      Reached start entry less (activation :: stack) final (.run jumps position temps) := by
  induction fuel generalizing activation stack machine jumps position temps final with
  | zero => exact (throw_ne_ok ran).elim
  | succ fuel ih =>
      have calls := preserved.callsPreserve_of_bodies ih
      rcases runFrom_eq_ok ran with ⟨-, rfl⟩ | ⟨statement, next, middle, target, found, executed,
        goesOn, rest⟩
      · exact ⟨here, _, _, _, reached⟩
      · have there := preserved.execute calls (reached.execute found) here executed
        rcases goesOn with ⟨noJump, rfl⟩ | ⟨label, jumped, isThere⟩
        · exact ih (reached.next found executed noJump) there rest
        · exact ih (reached.jump found executed jumped isThere) there rest

theorem callsPreserve (fuel : Nat) : CallsPreserve start entry holds fuel :=
  preserved.callsPreserve_of_bodies preserved.runFrom

/-- What is preserved by all that a run does holds in all states of the run. -/
theorem of_reached {task : Task} (reached : Reached start entry fuel stack machine task) :
    holds machine := by
  induction reached with
  | start found stored => exact preserved.begins found stored
  | enter reached enters ih => exact preserved.enter reached ih enters
  | next reached found executed _ ih | jump reached found executed _ _ ih =>
      exact preserved.execute (preserved.callsPreserve _) (reached.execute found) ih executed
  | stored reached places ih =>
      exact eval_preserves (preserved.callsPreserve _) _ reached.place ih places
  | right reached lefts ih =>
      exact eval_preserves (preserved.callsPreserve _) _ reached.left ih lefts
  | others reached evaluated ih =>
      exact eval_preserves (preserved.callsPreserve _) _ reached.first ih evaluated
  | proceed reached evaluated ih =>
      exact eval_preserves (preserved.callsPreserve _) _ reached ih evaluated
  | call reached evaluated ih =>
      exact evalAll_preserves (preserved.callsPreserve _) _ reached.arguments ih evaluated
  | passed reached stored ih => exact preserved.pass reached ih stored
  | execute _ _ ih | condition _ ih | expression _ ih | assigned _ ih | place _ ih | address _ ih
  | left _ ih | arguments _ ih | first _ ih | pass _ _ _ ih | invoke _ ih => exact ih

end Preserved

end Preserving

end TreeBackend.Machine
