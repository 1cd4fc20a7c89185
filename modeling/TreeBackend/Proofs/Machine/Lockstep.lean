import TreeBackend.Proofs.Machine.Invocation

/-!
# Runs in lockstep

Two machines differ in nothing but where their output goes: the left one has a writer that
accepts everything, and the right one has any writer that has taken the same, or none.  Whatever
both do, they do in lockstep, unless the writer of the right one refuses an offer.  Then the right
one stops, and what it has written is where the output of the left one begins.
-/

namespace TreeBackend

def Outcome.mapState {ε σ α : Type} (change : σ → σ) :
    EStateM.Result ε σ α → EStateM.Result ε σ α
  | .ok value final => .ok value (change final)
  | .error problem final => .error problem (change final)

namespace Machine

open Outcome
open IR (Expr Stmt)

def withSink (machine : Machine) (sink : Sink) : Machine := { machine with output := some sink }

/-- The left machine has a writer that accepts everything, and is like the right one in all else.
If the right one has a sink, then as much has been written to it. -/
def InStep (left right : Machine) : Prop :=
  ∃ sink, left = right.withSink sink ∧ sink.writer.Accepts ∧
    ∀ other ∈ right.output, other.written = sink.written

/-- A computation has the same outcome on both sides and leaves machines in step. -/
inductive Alike {α : Type} :
    EStateM.Result Interruption Machine α → EStateM.Result Interruption Machine α → Prop where
  | ok {value : α} {left right : Machine} :
      InStep left right → Alike (.ok value left) (.ok value right)
  | error {reason : Interruption} {left right : Machine} :
      InStep left right → Alike (.error reason left) (.error reason right)

/-- A machine whose writer accepts everything has written certain bytes, and perhaps more. -/
def Extends (bytes : ByteArray) (machine : Machine) : Prop :=
  ∃ sink rest, machine.output = some sink ∧ sink.writer.Accepts ∧ sink.written = bytes ++ rest

/-- The writer of the right machine has refused an offer, and what it took before is where the
output of the left machine begins. -/
inductive Refused {α : Type} :
    EStateM.Result Interruption Machine α → EStateM.Result Interruption Machine α → Prop where
  | intro {outcome : EStateM.Result Interruption Machine α} {right : Machine} {sink : Sink}
      {offered : List UInt8} {reason : String} (isThere : right.output = some sink)
      (refuses : sink.writer.Refuses offered reason)
      (longer : Extends sink.written (state outcome)) :
      Refused outcome (.error (.fault (.output reason)) right)

/-- A computation keeps machines in step until a writer refuses an offer, and adds to what a writer
has taken that accepts everything. -/
structure Lockstep {α : Type} (part : Exec α) : Prop where
  paired : ∀ {left right}, InStep left right →
    Alike (part left) (part right) ∨ Refused (part left) (part right)
  grows : ∀ {machine bytes}, Extends bytes machine → Extends bytes (state (part machine))

namespace Lockstep

variable {α β : Type} {part : Exec α} {next : α → Exec β}

/-- A computation does not depend on where output goes, and leaves that as it is. -/
def Blind (part : Exec α) : Prop :=
  ∀ machine output, part { machine with output } =
    mapState (fun final => { final with output }) (part machine)

theorem output_eq_of_blind (blind : Blind part) (machine : Machine) :
    (state (part machine)).output = machine.output := by
  have unchanged := blind machine machine.output
  cases done : part machine with
  | ok value final =>
      rw [done] at unchanged
      have kept := congrArg Machine.output (EStateM.Result.ok.inj unchanged).2
      exact kept
  | error reason final =>
      rw [done] at unchanged
      have kept := congrArg Machine.output (EStateM.Result.error.inj unchanged).2
      exact kept

theorem of_blind (blind : Blind part) : Lockstep part where
  paired := by
    rintro _ right ⟨sink, rfl, accepts, same⟩
    have kept := output_eq_of_blind blind right
    rw [withSink, blind right]
    left
    cases done : part right with
    | ok value final =>
        rw [done] at kept
        exact .ok ⟨sink, rfl, accepts, kept ▸ same⟩
    | error reason final =>
        rw [done] at kept
        exact .error ⟨sink, rfl, accepts, kept ▸ same⟩
  grows := by
    rintro machine bytes ⟨sink, rest, isThere, written⟩
    exact ⟨sink, rest, (output_eq_of_blind blind machine).trans isThere, written⟩

theorem pure (value : α) : Lockstep (pure value : Exec α) := of_blind fun _ _ => rfl

theorem fails (reason : Interruption) : Lockstep (throw reason : Exec α) := of_blind fun _ _ => rfl

theorem bind (first : Lockstep part) (second : ∀ value, Lockstep (next value)) :
    Lockstep (part >>= next) where
  paired := by
    intro left right inStep
    change Alike (EStateM.bind part next left) (EStateM.bind part next right) ∨
      Refused (EStateM.bind part next left) (EStateM.bind part next right)
    unfold EStateM.bind
    rcases first.paired inStep with alike | stopped
    · cases outcome : part left <;> cases other : part right <;> rw [outcome, other] at alike
      · cases alike with
        | ok inStep => exact (second _).paired inStep
      · cases alike
      · cases alike
      · cases alike with
        | error inStep => exact .inl (.error inStep)
    · cases outcome : part left <;> cases other : part right <;> rw [outcome, other] at stopped
      · cases stopped
      · cases stopped with
        | intro isThere refuses longer =>
            exact .inr (.intro isThere refuses ((second _).grows longer))
      · cases stopped
      · cases stopped with
        | intro isThere refuses longer => exact .inr (.intro isThere refuses longer)
  grows := by
    intro machine bytes written
    have middle := first.grows written
    change Extends bytes (state (EStateM.bind part next machine))
    unfold EStateM.bind
    cases outcome : part machine with
    | ok value final =>
        rw [outcome] at middle
        exact (second value).grows middle
    | error reason final =>
        rw [outcome] at middle
        exact middle

/-- A computation that looks at the machine, but not at where its output goes. -/
theorem look {next : Machine → Exec β} (steps : ∀ machine, Lockstep (next machine))
    (blind : ∀ machine output, next { machine with output } = next machine) :
    Lockstep (get >>= next) where
  paired := by
    rintro _ right ⟨sink, rfl, accepts, same⟩
    have sameNext : next (right.withSink sink) = next right := blind right _
    change Alike (next (right.withSink sink) _) (next right right) ∨
      Refused (next (right.withSink sink) _) (next right right)
    rw [sameNext]
    exact (steps right).paired ⟨sink, rfl, accepts, same⟩
  grows := (steps _).grows

/-! ### What the machine does itself -/

theorem loadInt (address : Int) : Lockstep (loadInt address) :=
  of_blind fun machine output => by
    unfold Machine.loadInt
    cases machine.memory.loadInt address <;> rfl

theorem loadText (address : Int) : Lockstep (loadText address) :=
  of_blind fun machine output => by
    unfold Machine.loadText
    cases machine.memory.load address with
    | ok value => cases value <;> rfl
    | error => rfl

theorem storeInt (address value : Int) : Lockstep (storeInt address value) :=
  of_blind fun machine output => by
    unfold Machine.storeInt
    cases machine.memory.isAddress address <;> rfl

theorem storeInts (address : Int) (values : List Int) : Lockstep (storeInts address values) := by
  induction values generalizing address with
  | nil => exact pure ()
  | cons value rest ih => exact (storeInt address value).bind fun _ => ih _

theorem labelAddress (label : Label) : Lockstep (labelAddress label) :=
  of_blind fun machine output => by
    unfold Machine.labelAddress
    cases machine.memory.address? label <;> rfl

theorem readTemp (temps : Temps) (temp : IR.Temp) : Lockstep (readTemp temps temp) := by
  unfold Machine.readTemp
  split
  · exact pure _
  · exact fails _

theorem compute (operator : Operator) (left right : Int) :
    Lockstep (compute operator left right) := by
  unfold Machine.compute
  split
  · exact pure _
  · exact fails _

/-- A writer that accepts everything takes the whole of a text, and any other one a beginning. -/
theorem write (piece : String) : Lockstep (write piece) where
  paired := by
    rintro _ ⟨memory, routines, random, output, framePointer, stackPointer⟩
      ⟨sink, rfl, accepts, same⟩
    obtain ⟨later, writes, writer, written⟩ := sink.exists_write_eq_ok accepts piece
    have accepts : later.writer.Accepts := writer ▸ accepts
    cases output with
    | none =>
        left
        simp only [withSink, Machine.write, writes]
        exact .ok ⟨later, rfl, accepts, by simp⟩
    | some other =>
        have wrote := other.wrote_write piece
        simp only [withSink, Machine.write, writes]
        generalize other.write piece = outcome at wrote
        obtain sameWritten := same other rfl
        cases wrote with
        | @all final _ whole =>
            left
            refine .ok ⟨later, rfl, accepts, ?_⟩
            rintro _ ⟨rfl⟩
            rw [whole, written, sameWritten, toByteArray_utf8]
        | @part final _ taken rest next parts sameWriter part refuses =>
            right
            refine .intro rfl (sameWriter ▸ refuses)
              ⟨later, (next :: rest).toByteArray, rfl, accepts, ?_⟩
            rw [written, part, sameWritten, ByteArray.append_assoc, ← List.toByteArray_append,
              ← parts, toByteArray_utf8]
  grows := by
    rintro ⟨memory, routines, random, output, framePointer, stackPointer⟩ bytes
      ⟨sink, rest, rfl, accepts, already⟩
    obtain ⟨later, writes, writer, written⟩ := sink.exists_write_eq_ok accepts piece
    simp only [Machine.write, writes]
    refine ⟨later, rest ++ piece.toUTF8, rfl, writer ▸ accepts, ?_⟩
    rw [written, already, ByteArray.append_assoc]

theorem printLine (line : String) : Lockstep (printLine line) :=
  (write line).bind fun _ => write "\n"

theorem drawInt (low high : Int) : Lockstep (drawInt low high) :=
  of_blind fun machine output => by
    unfold Machine.drawInt
    by_cases holds : low < high
    · simp only [holds, if_true]
      cases machine.random.draw? low high <;> rfl
    · simp only [holds, if_false]
      rfl

theorem reseed (seed : Int) : Lockstep (reseed seed) := of_blind fun _ _ => rfl

theorem callBuiltin (builtin : Builtin) (arguments : List Int) :
    Lockstep (callBuiltin builtin arguments) := by
  unfold Machine.callBuiltin
  split
  · exact (printLine _).bind fun _ => pure _
  · exact (loadText _).bind fun _ => (printLine _).bind fun _ => pure _
  · exact (printLine _).bind fun _ => pure _
  · exact drawInt _ _
  · exact (reseed _).bind fun _ => pure _
  · exact fails _

theorem enter (routine : Routine) : Lockstep (enter routine) :=
  of_blind fun machine output => by
    unfold Machine.enter
    cases routine.jumps? with
    | none => rfl
    | some jumps =>
        dsimp only
        split
        · rfl
        · split <;> rfl

theorem leave (routine : Routine) : Lockstep (leave routine) := by
  refine (of_blind fun _ _ => rfl).bind fun _ => look (fun machine => ?_) fun _ _ => rfl
  exact (loadInt _).bind fun saved => of_blind fun _ _ => rfl

/-! ### Statements -/

section Statements

variable {call : Label → List Int → Exec Int} {temps : Temps}

mutual

theorem eval (calls : ∀ label arguments, Lockstep (call label arguments)) :
    (expression : Expr) → Lockstep (eval call temps expression)
  | .const value => pure value
  | .name label => labelAddress label
  | .temp temp => readTemp temps temp
  | .mem address => (eval calls address).bind fun _ => loadInt _
  | .binop operator left right =>
      (eval calls left).bind fun _ => (eval calls right).bind fun _ => compute operator _ _
  | .call label arguments => (evalAll calls arguments).bind fun values => calls label values
  | .eseq .. => fails _

theorem evalAll (calls : ∀ label arguments, Lockstep (call label arguments)) :
    (expressions : List Expr) → Lockstep (evalAll call temps expressions)
  | [] => pure []
  | expression :: rest =>
      (eval calls expression).bind fun _ => (evalAll calls rest).bind fun _ => pure _

end

theorem execute (calls : ∀ label arguments, Lockstep (call label arguments)) (statement : Stmt) :
    Lockstep (execute call temps statement) := by
  match statement with
  | .label _ | .jump _ => exact pure _
  | .cjump condition _ _ => exact (eval calls condition).bind fun _ => pure _
  | .exp value => exact (eval calls value).bind fun _ => pure _
  | .move (.temp _) source => exact (eval calls source).bind fun _ => pure _
  | .move (.mem address) source =>
      exact (eval calls address).bind fun place => (eval calls source).bind fun value =>
        (storeInt place value).bind fun _ => pure _
  | .move (.const _) _ | .move (.name _) _ | .move (.binop ..) _ | .move (.call ..) _
  | .move (.eseq ..) _ | .seq _ => exact fails _

end Statements

/-! ### Calls -/

section Calls

variable {body : Array Stmt → Table Label Nat → Exec Unit}
  (bodies : ∀ statements jumps, Lockstep (body statements jumps))

include bodies

theorem invoke (routine : Routine) : Lockstep (invoke body routine) :=
  (enter routine).bind fun jumps => (bodies routine.statements jumps).bind fun _ => leave routine

/-- The caller fetches the result from where its stack pointer is after the call. -/
theorem fetches (routine : Routine) :
    Lockstep (do Machine.invoke body routine; Machine.loadInt (← get).stackPointer) :=
  (invoke bodies routine).bind fun _ => look (fun _ => loadInt _) fun _ _ => rfl

theorem callRoutine (label : Label) (arguments : List Int) :
    Lockstep (callLabel.callRoutine body label arguments) := by
  refine look (fun machine => ?_) fun _ _ => rfl
  cases machine.routine? label with
  | none => exact fails _
  | some routine =>
      refine look (fun machine => ?_) fun _ _ => rfl
      exact (storeInts _ _).bind fun _ => fetches bodies routine

theorem callLabel (label : Label) (arguments : List Int) :
    Lockstep (callLabel body label arguments) := by
  unfold Machine.callLabel
  split
  · split
    · exact callBuiltin _ _
    · exact callRoutine bodies _ _
  · exact callRoutine bodies _ _

end Calls

theorem runFrom (fuel : Nat) (statements : Array Stmt) (jumps : Table Label Nat) (position : Nat)
    (temps : Temps) : Lockstep (runFrom fuel statements jumps position temps) := by
  induction fuel generalizing statements jumps position temps with
  | zero => exact fails _
  | succ fuel ih =>
      unfold Machine.runFrom
      cases statements[position]? with
      | none => exact pure ()
      | some statement =>
          have calls := callLabel fun statements jumps => ih statements jumps 0 {}
          refine (execute calls statement).bind fun next => ?_
          cases next.jump with
          | none => exact ih ..
          | some label =>
              dsimp only
              cases jumps.get? label with
              | none => exact fails _
              | some target => exact ih ..

/-- A whole run is done in lockstep. -/
theorem interpret (fuel : Nat) (entry : Label) : Lockstep (interpret fuel entry) := by
  refine look (fun machine => ?_) fun _ _ => rfl
  cases machine.routine? entry with
  | none => exact fails _
  | some routine =>
      refine look (fun machine => ?_) fun _ _ => rfl
      exact (storeInt _ _).bind fun _ => fetches (fun _ _ => runFrom ..) routine

end Lockstep

end Machine

end TreeBackend
