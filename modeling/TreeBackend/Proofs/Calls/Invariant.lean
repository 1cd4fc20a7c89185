import TreeBackend.Proofs.Calls.Hosting
import TreeBackend.Proofs.Calls.Running
import TreeBackend.Proofs.Machine.Reached

/-!
# What holds in all states of a run

In every state of a run of a lexically scoped program, the frames of the activations that
have not ended lie one below the other, and the kept words of all of them hold what they
should.
-/

namespace TreeBackend

open Source (Program)
open Lowering Machine Outcome
open IR (Expr Stmt)

def Call.activation (call : Call) : Activation := ⟨call.routine, call.framePointer⟩

section Invariant

variable {program : Program} {table : FrameTable} {start machine final : Machine} {call : Call}
  {older calls : List Call} {fuel : Nat}

/-- What the innermost call has to know about its code to run a part of it. -/
structure Works (start : Machine) (calls : List Call) (code : List Stmt) (temps : Temps)
    (machine : Machine) : Prop where
  hold : TempsHold start calls code temps
  keeps : Keeps start calls (keptWordsIn start calls) machine

/-- The arguments of a call are being stored: none of them yet, or the static link and some
of the others. -/
def Passes (program : Program) (table : FrameTable) (start : Machine) (call : Call)
    (older : List Call) (machine : Machine) (routine : Routine) (address : Int)
    (arguments : List Int) : Prop :=
  ∃ callee, CanCall program table (call :: older) callee routine ∧
    address + Word.size * arguments.length = call.top + callSize callee.parameters.length ∧
    ((address = call.top ∧ (∃ rest, arguments = Call.linkOf callee (call :: older) :: rest) ∧
        Keeps start (call :: older) (keptWordsIn start (call :: older)) machine) ∨
      (call.top < address ∧ Keeps start (call :: older)
        ((call.top, Call.linkOf callee (call :: older)) :: keptWordsIn start (call :: older))
          machine))

/-- What holds for certain open calls before something is done. -/
def Machine.Task.Holds (program : Program) (table : FrameTable) (start : Machine)
    (calls : List Call) (machine : Machine) (task : Task) : Prop :=
  match task, calls with
  | .run _ position temps, call :: older => StandsAt start call older position temps machine
  | .execute temps statement, call :: older =>
      ∃ before result, KeepsBody (call.function.discipline program table) before result ∧
        statement ∈ bodyOf before result ∧
        Works start (call :: older) (bodyOf before result) temps machine
  | .evaluate temps expression, call :: older =>
      ∃ code, (call.function.discipline program table).AllowsCalls code expression.calls ∧
        Works start (call :: older) code temps machine
  | .evaluateAll temps expressions, call :: older =>
      ∃ code, (call.function.discipline program table).AllowsCalls code
          (Expr.callsOfList expressions) ∧
        Works start (call :: older) code temps machine
  | .proceed, calls => Keeps start calls (keptWordsIn start calls) machine
  | .call label arguments, call :: older =>
      IsPassed program table (call :: older) label arguments ∧
        Keeps start (call :: older) (keptWordsIn start (call :: older)) machine
  | .pass routine address arguments, call :: older =>
      Passes program table start call older machine routine address arguments
  | .invoke routine, calls => ∃ callee, CanCall program table calls callee routine ∧
      Keeps start calls
        ((Call.stackPointerOf (start.memory.size - Word.size) calls, Call.linkOf callee calls) ::
          keptWordsIn start calls) machine
  | _, [] => False

def HoldsIn (program : Program) (table : FrameTable) (start : Machine) (stack : List Activation)
    (machine : Machine) (task : Task) : Prop :=
  ∃ calls, stack = calls.map Call.activation ∧ IsStack program table start calls ∧
    task.Holds program table start calls machine

/-- A run starts with a call of a function outside all others that has no parameters. -/
theorem holdsIn_start (hosts : Hosts program table start) {routine : Routine}
    (found : start.routine? mainLabel = some routine)
    (stored : storeInt start.stackPointer 0 start = .ok () machine) :
    HoldsIn program table start [] machine (.invoke routine) := by
  obtain ⟨labelled, function, member, runs⟩ :=
    hosts.routine mainLabel routine (by decide) (by decide) found
  obtain ⟨labels, laid⟩ := hosts.laidOut member
  obtain ⟨label, hasLabel, isFrame⟩ := laid.frame
  obtain rfl : label = mainLabel := by
    rw [Option.some_inj.mp (runs.frame.symm.trans isFrame)] at labelled
    exact labelled
  have outermost : function.around = [] := by
    by_contra nested
    obtain ⟨number, -, same⟩ := hasLabel.eq_anonymous nested
    cases same
  have named : function.name = "main" := (Label.named.inj (hasLabel.eq_named outermost)).symm
  have noParameters := hosts.scope.main function member outermost named
  have keeps : Keeps start [] [] start := ⟨.refl start, hosts.points, by simp⟩
  rw [hosts.points.stackPointer] at stored
  refine ⟨[], rfl, ⟨trivial, trivial, by simp⟩, function, ⟨member, runs, outermost, noParameters⟩, ?_⟩
  have keeps := keeps.of_storeInt (by simp) stored
  rwa [Call.linkOf, outermost]

theorem HoldsIn.imp {stack : List Activation} {task next : Task}
    (holds : HoldsIn program table start stack machine task)
    (step : ∀ calls, IsStack program table start calls →
      task.Holds program table start calls machine → next.Holds program table start calls final) :
    HoldsIn program table start stack final next := by
  obtain ⟨calls, same, stack, holds⟩ := holds
  exact ⟨calls, same, stack, step calls stack holds⟩

/-- Most of what a run does, it does inside some call. -/
theorem HoldsIn.imp_innermost {stack : List Activation} {task next : Task}
    (holds : HoldsIn program table start stack machine task)
    (isInside : ¬ task.Holds program table start [] machine)
    (step : ∀ call older, IsStack program table start (call :: older) →
      task.Holds program table start (call :: older) machine →
      next.Holds program table start (call :: older) final) :
    HoldsIn program table start stack final next := by
  refine holds.imp fun calls stack holds => ?_
  cases calls with
  | nil => exact (isInside holds).elim
  | cons call older => exact step call older stack holds

theorem HoldsIn.imp_activation {activation : Activation} {stack : List Activation}
    {task next : Task}
    (holds : HoldsIn program table start (activation :: stack) machine task)
    (step : ∀ call older, call.activation = activation →
      IsStack program table start (call :: older) →
      task.Holds program table start (call :: older) machine →
      next.Holds program table start (call :: older) final) :
    HoldsIn program table start (activation :: stack) final next := by
  obtain ⟨calls, same, stack, holds⟩ := holds
  cases calls with
  | nil => cases same
  | cons call older =>
      obtain ⟨rfl, rfl⟩ := List.cons.inj same
      exact ⟨call :: older, rfl, stack, step call older rfl stack holds⟩

/-- Calls keep the words of the open calls, however many statements may be run. -/
theorem callWith_keeps (hosts : Hosts program table start)
    (stack : IsStack program table start (call :: older)) (fuel : Nat) :
    CallsKeep program table start (call :: older) (callWith fuel) :=
  callLabel_keeps hosts (bodiesKeep_runFrom hosts fuel) stack

theorem Lowering.KeepsBody.allowsCalls {discipline : Discipline} {before : List Stmt}
    {result : Expr} (body : KeepsBody discipline before result) {statement : Stmt}
    (member : statement ∈ bodyOf before result) :
    discipline.AllowsCalls (bodyOf before result) statement.calls := by
  rcases List.mem_append.mp member with inside | isLast
  · exact (body.allows statement inside).calls
  · obtain rfl := List.mem_singleton.mp isLast
    exact body.calls

theorem StandsAt.works (stack : IsStack program table start (call :: older)) {position : Nat}
    {temps : Temps} (stands : StandsAt start call older position temps machine) {statement : Stmt}
    (found : call.routine.statements[position]? = some statement) :
    ∃ before result, KeepsBody (call.function.discipline program table) before result ∧
      statement ∈ bodyOf before result ∧
      Works start (call :: older) (bodyOf before result) temps machine := by
  obtain ⟨before, result, code, body⟩ := (stack.routines call (List.mem_cons_self ..)).code
  obtain ⟨less, -⟩ := Array.getElem?_eq_some_iff.mp found
  have hold := stands.hold less
  rw [code] at found hold
  exact ⟨before, result, body, List.mem_of_getElem? (List.getElem?_toArray ▸ found), hold,
    stands.kept less⟩

theorem Works.evaluated (hosts : Hosts program table start)
    (stack : IsStack program table start (call :: older)) {code : List Stmt} {temps : Temps}
    (works : Works start (call :: older) code temps machine) {expression : Expr} {value : Int}
    (evaluated : eval (callWith fuel) temps expression machine = .ok value final)
    (allowed : (call.function.discipline program table).AllowsCalls code expression.calls) :
    Works start (call :: older) code temps final :=
  ⟨works.hold, eval_keeps hosts stack (callWith_keeps hosts stack fuel) works.hold expression
    allowed works.keeps evaluated⟩

/-- A frame is made for a call that can be made. -/
theorem HoldsIn.enter (hosts : Hosts program table start) {stack : List Activation}
    {routine : Routine} {jumps : Table Label Nat} {entered : Machine}
    (holds : HoldsIn program table start stack machine (.invoke routine))
    (enters : enter routine machine = .ok jumps entered) :
    HoldsIn program table start (⟨routine, entered.framePointer⟩ :: stack) entered
      (.run jumps 0 {}) := by
  obtain ⟨calls, rfl, stack, callee, can, keeps⟩ := holds
  obtain ⟨stack, keeps⟩ := enter_keeps hosts stack can keeps enters
  refine ⟨_ :: calls, ?_, stack, standsAt_of_keeps 0 keeps (tempsHold_empty _)⟩
  rw [keeps.points.framePointer]
  rfl

/-- What a call is given can be stored. -/
theorem passes_of_isPassed (hosts : Hosts program table start) {label : Label}
    {values : List Int} {routine : Routine}
    (passed : IsPassed program table (call :: older) label values) (noBuiltin : NoBuiltin label)
    (keeps : Keeps start (call :: older) (keptWordsIn start (call :: older)) machine)
    (found : machine.routine? label = some routine) :
    Passes program table start call older machine routine machine.stackPointer values := by
  obtain ⟨callee, rest, rfl, counted, can⟩ :=
    canCall_of_isPassed hosts passed noBuiltin keeps found
  have top : machine.stackPointer = call.top := keeps.points.stackPointer
  refine ⟨callee, can, ?_, .inl ⟨top, ⟨rest, rfl⟩, keeps⟩⟩
  rw [top, List.length_cons, counted]
  unfold callSize Word.size
  omega

/-- The arguments of a call are stored one by one. -/
theorem HoldsIn.passed {stack : List Activation} {routine : Routine} {address value : Int}
    {rest : List Int}
    (holds : HoldsIn program table start stack machine (.pass routine address (value :: rest)))
    (stored : storeInt address value machine = .ok () final) :
    HoldsIn program table start stack final (.pass routine (address + Word.size) rest) := by
  refine holds.imp_innermost id fun call older stack ⟨callee, can, counted, cases⟩ => ?_
  have room := can.passed.2
  have free : address < call.top + callSize callee.parameters.length →
      ∀ word ∈ keptWordsIn start (call :: older), word.1 ≠ address := by
    intro less
    refine stack.stacked.ne_of_lt ?_
    rintro _ ⟨rfl⟩
    unfold Word.size
    omega
  have below : address < call.top + callSize callee.parameters.length := by
    rw [← counted, List.length_cons]
    unfold Word.size
    omega
  refine ⟨callee, can, ?_, .inr ?_⟩
  · rw [← counted, List.length_cons]
    unfold Word.size
    omega
  · rcases cases with ⟨rfl, ⟨_, same⟩, keeps⟩ | ⟨above, keeps⟩
    · obtain ⟨rfl, rfl⟩ := List.cons.inj same
      exact ⟨by unfold Word.size; omega, keeps.of_storeInt (free below) stored⟩
    · refine ⟨by unfold Word.size; omega,
        (keeps.of_storeInt ?_ stored).mono (List.subset_cons_self ..)⟩
      exact List.forall_mem_cons.mpr ⟨by dsimp only; omega, free below⟩

/-- In every state of a run the frames of the activations are in order. -/
theorem holdsIn_of_reached (hosts : Hosts program table start) {stack : List Activation}
    {task : Task} (reached : Reached start mainLabel fuel stack machine task) :
    HoldsIn program table start stack machine task := by
  induction reached with
  | start found stored => exact holdsIn_start hosts found stored
  | enter _ enters ih => exact ih.enter hosts enters
  | execute _ found ih =>
      refine ih.imp_activation ?_
      rintro call older rfl stack holds
      exact holds.works stack found
  | @next fuel _ _ _ _ _ _ _ _ _ _ found executed _ ih =>
      refine ih.imp_activation ?_
      rintro call older rfl stack holds
      exact (holds.execute hosts stack (callWith_keeps hosts stack fuel) found executed).1
  | @jump fuel _ _ _ _ _ _ target _ _ _ _ _ found executed jumped _ ih =>
      refine ih.imp_activation ?_
      rintro call older rfl stack holds
      exact (holds.execute hosts stack (callWith_keeps hosts stack fuel) found executed).2
        (by simp [jumped]) target
  | condition _ ih | expression _ ih =>
      exact ih.imp_innermost id fun _ _ _ ⟨_, _, body, member, works⟩ =>
        ⟨_, body.allowsCalls member, works⟩
  | assigned _ ih =>
      exact ih.imp_innermost id fun _ _ _ ⟨_, _, body, member, works⟩ =>
        ⟨_, (List.forall_mem_append.mp (body.allowsCalls member)).2, works⟩
  | place _ ih =>
      exact ih.imp_innermost id fun _ _ _ ⟨_, _, body, member, works⟩ =>
        ⟨_, (List.forall_mem_append.mp (body.allowsCalls member)).1, works⟩
  | stored _ places ih =>
      refine ih.imp_innermost id fun _ _ stack ⟨_, _, body, member, works⟩ => ?_
      obtain ⟨place, source⟩ := List.forall_mem_append.mp (body.allowsCalls member)
      exact ⟨_, source, works.evaluated hosts stack places place⟩
  | address _ ih => exact ih.imp_innermost id fun _ _ _ => id
  | left _ ih =>
      exact ih.imp_innermost id fun _ _ _ ⟨code, allowed, works⟩ =>
        ⟨code, (List.forall_mem_append.mp allowed).1, works⟩
  | right _ lefts ih =>
      refine ih.imp_innermost id fun _ _ stack ⟨code, allowed, works⟩ => ?_
      obtain ⟨left, right⟩ := List.forall_mem_append.mp allowed
      exact ⟨code, right, works.evaluated hosts stack lefts left⟩
  | arguments _ ih =>
      exact ih.imp_innermost id fun _ _ _ ⟨code, allowed, works⟩ =>
        ⟨code, (List.forall_mem_cons.mp allowed).2, works⟩
  | first _ ih =>
      exact ih.imp_innermost id fun _ _ _ ⟨code, allowed, works⟩ =>
        ⟨code, (List.forall_mem_append.mp allowed).1, works⟩
  | others _ evaluated ih =>
      refine ih.imp_innermost id fun _ _ stack ⟨code, allowed, works⟩ => ?_
      obtain ⟨first, others⟩ := List.forall_mem_append.mp allowed
      exact ⟨code, others, works.evaluated hosts stack evaluated first⟩
  | proceed _ evaluated ih =>
      exact ih.imp_innermost id fun _ _ stack ⟨_, allowed, works⟩ =>
        (works.evaluated hosts stack evaluated allowed).keeps
  | @call fuel _ _ _ _ _ arguments _ _ evaluated ih =>
      refine ih.imp_innermost id fun _ _ stack ⟨_, allowed, works⟩ => ?_
      obtain ⟨here, inside⟩ := List.forall_mem_cons.mp allowed
      exact ⟨isPassed_of_allowsCall hosts stack here works.hold works.keeps evaluated,
        evalAll_keeps hosts stack (callWith_keeps hosts stack fuel) works.hold arguments inside
          works.keeps evaluated⟩
  | pass _ noBuiltin found ih =>
      exact ih.imp_innermost id fun _ _ _ ⟨isPassed, keeps⟩ =>
        passes_of_isPassed hosts isPassed noBuiltin keeps found
  | passed _ stored ih => exact ih.passed stored
  | invoke _ ih =>
      refine ih.imp_innermost id fun _ _ _ ⟨callee, can, _, cases⟩ => ⟨callee, can, ?_⟩
      rcases cases with ⟨-, ⟨_, same⟩, -⟩ | ⟨-, keeps⟩
      · cases same
      · exact keeps

end Invariant

end TreeBackend
