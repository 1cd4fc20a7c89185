import TreeBackend.Proofs.Machine.Harmless
import TreeBackend.Proofs.Machine.Loading
import TreeBackend.Proofs.Machine.Maintaining

/-!
# What stays as it was

Whatever code runs, and wherever it stores integers, some things stay as they were when the
program was loaded: the size of the memory, the end of the static area, the functions and all
labels but those of the two pointers.  A word that is no integer is one that has never been
stored to.  The labels of the pointers follow them from the moment a function is entered.
-/

namespace TreeBackend.Machine

/-- What a run leaves as it was when the program was loaded: all labels but those of the
pointers, and no function comes to stand where none stood. -/
structure Steady (start machine : Machine) : Prop where
  size : machine.memory.size = start.memory.size
  staticTop : machine.memory.staticTop = start.memory.staticTop
  routines : machine.routines = start.routines
  labels : ∀ label, label ≠ .framePointer → label ≠ .stackPointer →
    machine.memory.address? label = start.memory.address? label
  codes : ∀ address number, machine.memory.read? address = some (.code number) →
    start.memory.read? address = some (.code number)

variable {start machine : Machine}

theorem Steady.refl (machine : Machine) : Steady machine machine :=
  ⟨rfl, rfl, rfl, fun _ _ _ => rfl, fun _ _ => id⟩

/-- A function that is found was there from the start. -/
theorem Steady.routine? (steady : Steady start machine) {label : Label} {routine : Routine}
    (noFrame : label ≠ .framePointer) (noStack : label ≠ .stackPointer)
    (found : machine.routine? label = some routine) : start.routine? label = some routine := by
  unfold Machine.routine? at found ⊢
  rw [steady.labels label noFrame noStack] at found
  split at found
  · next number isCode =>
      obtain ⟨address, known, isCode⟩ := Option.bind_eq_some_iff.mp isCode
      rw [known, Option.bind_some, steady.codes address number isCode, ← steady.routines]
      exact found
  · cases found

theorem Steady.writeWord (steady : Steady start machine) {address : Int} (value : Int)
    (valid : machine.memory.isAddress address = true) :
    Steady start (machine.writeWord address (.int value)) where
  size := (size_writeWord ..).trans steady.size
  staticTop := steady.staticTop
  routines := steady.routines
  labels := steady.labels
  codes other number found := by
    rw [read?_writeWord _ _ _ valid] at found
    split at found
    · cases found
    · exact steady.codes other number found

theorem Steady.withPointers (steady : Steady start machine) (framePointer stackPointer : Int) :
    Steady start (machine.withPointers framePointer stackPointer) where
  size := steady.size
  staticTop := steady.staticTop
  routines := steady.routines
  labels label noFrame noStack := by
    rw [address?_withPointers, if_neg (Ne.symm noStack), if_neg (Ne.symm noFrame)]
    exact steady.labels label noFrame noStack
  codes := steady.codes

/-- What all calls leave as it was when the program was loaded: in addition, a word becomes an
integer or stays the text or the function that was placed there. -/
structure Standing (start machine : Machine) : Prop extends Steady start machine where
  words : ∀ address value, machine.memory.read? address = some value →
    (∃ number, value = .int number) ∨ start.memory.read? address = some value

/-- The labels of the pointers have the addresses that the pointers hold. -/
abbrev KnowsPointers (machine : Machine) : Prop :=
  machine.Points machine.framePointer machine.stackPointer

theorem Standing.refl (machine : Machine) : Standing machine machine :=
  ⟨.refl machine, fun _ _ => .inr⟩

theorem Standing.writeWord (standing : Standing start machine) {address : Int} (number : Int)
    (valid : machine.memory.isAddress address = true) :
    Standing start (machine.writeWord address (.int number)) where
  toSteady := standing.toSteady.writeWord number valid
  words other value found := by
    rw [read?_writeWord _ _ _ valid] at found
    split at found
    · exact .inl ⟨number, (Option.some_inj.mp found).symm⟩
    · exact standing.words other value found

/-- Output and random numbers are apart from memory. -/
theorem Standing.withEffects (standing : Standing start machine) (random : Random.Source)
    (output : Option Sink) : Standing start { machine with random, output } :=
  ⟨⟨standing.size, standing.staticTop, standing.routines, standing.labels, standing.codes⟩,
    standing.words⟩

theorem Standing.withPointers (standing : Standing start machine)
    (framePointer stackPointer : Int) :
    Standing start (machine.withPointers framePointer stackPointer) :=
  ⟨standing.toSteady.withPointers framePointer stackPointer, standing.words⟩

theorem maintained_standing (start : Machine) :
    Maintained (Standing start) (Standing start) where
  weaken := id
  store number standing valid := standing.writeWord number valid
  write {machine} piece standing := by
    obtain ⟨output, same, -⟩ := exists_state_write piece machine
    rw [same]
    exact standing.withEffects machine.random output
  random memory standing := standing.withEffects _ _
  enter standing entered := by
    obtain ⟨-, -, valid, rfl⟩ := enter_eq_ok.mp entered
    exact (standing.writeWord _ valid).withPointers _ _
  leave standing left := by
    obtain ⟨saved, -, rfl⟩ := leave_eq_ok.mp left
    exact standing.withPointers _ _
  leaving standing :=
    ⟨⟨standing.size, standing.staticTop, standing.routines, standing.labels, standing.codes⟩,
      standing.words⟩

/-- A frame that cannot be removed leaves the labels of the pointers behind. -/
theorem maintained_knowsPointers : Maintained KnowsPointers fun _ => True where
  weaken _ := trivial
  store _ knows _ := ⟨rfl, rfl, knows.frameLabel, knows.stackLabel⟩
  write {machine} piece knows := by
    obtain ⟨output, same, -⟩ := exists_state_write piece machine
    rw [same]
    exact ⟨rfl, rfl, knows.frameLabel, knows.stackLabel⟩
  random _ knows := ⟨rfl, rfl, knows.frameLabel, knows.stackLabel⟩
  enter _ entered := by
    obtain ⟨-, -, -, rfl⟩ := enter_eq_ok.mp entered
    exact points_withPointers ..
  leave _ left := by
    obtain ⟨saved, -, rfl⟩ := leave_eq_ok.mp left
    exact points_withPointers ..
  leaving _ := trivial

theorem maintained_generator (start : Machine) :
    Maintained (fun machine => machine.random.generator = start.random.generator)
      fun machine => machine.random.generator = start.random.generator :=
  .of_points (fun _ same _ => same)
    (by
      intro machine piece same
      obtain ⟨output, written, -⟩ := exists_state_write piece machine
      rw [written]
      exact same)
    (fun _ same => same) (fun _ _ same => same) fun same => same

theorem maintained_writer (start : Machine) :
    Maintained (fun machine => machine.output.map Sink.writer = start.output.map Sink.writer)
      fun machine => machine.output.map Sink.writer = start.output.map Sink.writer :=
  .of_points (fun _ same _ => same)
    (by
      intro machine piece same
      obtain ⟨output, written, writer⟩ := exists_state_write piece machine
      rw [written]
      exact writer.trans same)
    (fun _ same => same) (fun _ _ same => same) fun same => same

/-! ### Sessions -/

open IR (Chunk)

/-- The state in which a run stores the static link of its first function stands as well. -/
theorem Standing.of_reached {later : Machine} (standing : Standing start later) {entry : Label}
    {fuel : Nat} {stack : List Activation} {task : Task}
    (reached : Reached later entry fuel stack machine task) : Standing start machine := by
  have stands := maintained_standing start
  cases stack with
  | nil =>
      obtain ⟨_, -, -, stored⟩ := reached.of_outside
      exact (stands.storeInt _ _).ok standing stored
  | cons =>
      refine stands.of_reached (fun _ stored entered => ?_) reached (by simp)
      exact stands.enter ((stands.storeInt _ _).ok standing stored) entered

theorem knowsPointers_of_reached {later : Machine} {entry : Label} {fuel : Nat}
    {stack : List Activation} {temps : Temps} {expression : IR.Expr}
    (reached : Reached later entry fuel stack machine (.evaluate temps expression)) :
    machine.KnowsPointers := by
  refine maintained_knowsPointers.of_reached (fun _ _ entered => ?_) reached ?_
  · obtain ⟨-, -, -, rfl⟩ := enter_eq_ok.mp entered
    exact points_withPointers ..
  · rintro rfl
    obtain ⟨_, same, -⟩ := reached.of_outside
    cases same

/-- Calls one after the other, whether they succeed or not, leave everything standing that was
placed when the program was loaded, between two calls and in each state of a call.  Wherever an
expression is evaluated there, the labels of the pointers stand for the pointers. -/
theorem standing_throughout_session (start : Machine) (calls : List (Nat × Label)) :
    Standing start (start.afterCalls calls) ∧
    ∀ entry fuel stack machine task,
      Reached (start.afterCalls calls) entry fuel stack machine task →
        Standing start machine ∧
          ∀ temps expression, task = .evaluate temps expression → machine.KnowsPointers := by
  have standing := (maintained_standing start).afterCalls (.refl start) calls
  refine ⟨standing, fun entry fuel stack machine task reached => ⟨standing.of_reached reached, ?_⟩⟩
  rintro temps expression rfl
  exact knowsPointers_of_reached reached

/-- A function stores to the place of a text and divides by zero.  It is called again from where
it has failed, and then evaluates the address. -/
theorem standing_throughout_session_failed_call :
    let place : IR.Expr := .name (.anonymous 0)
    let items : List IR.Stmt :=
      [.move (.mem place) (.const 5), .exp (.binop .div (.const 1) (.const 0))]
    let chunks : List Chunk :=
      [.data ⟨4, .anonymous 0⟩ "text", .code { label := mainLabel, level := 1 } (.seq items),
        .data ⟨4, .anonymous 1⟩ "other"]
    ∃ start later fuel stack machine, load chunks { memorySize := 64 } = .ok start ∧
      start.afterCalls [(10, mainLabel)] = later ∧ later.stackPointer ≠ start.stackPointer ∧
      later.memory.read? 4 = some (.int 5) ∧ later.memory.read? 12 = some (.str "other") ∧
      Reached later mainLabel fuel stack machine (.evaluate {} place) ∧
      Standing start later ∧ Standing start machine ∧ machine.KnowsPointers := by
  intro place items chunks
  have runs : (do
      let start ← (load chunks { memorySize := 64 }).toOption
      let later := start.afterCalls [(10, mainLabel)]
      let routine ← later.routine? mainLabel
      let (_, stored) ← Outcome.ok? (storeInt later.stackPointer 0 later)
      let _ ← Outcome.ok? (enter routine stored)
      some (later.stackPointer - start.stackPointer, later.memory.read? 4,
        later.memory.read? 12)) = some (-8, some (.int 5), some (.str "other")) := by
    decide +kernel
  obtain ⟨start, loaded, runs⟩ := Option.bind_eq_some_iff.mp runs
  obtain ⟨routine, found, runs⟩ := Option.bind_eq_some_iff.mp runs
  obtain ⟨⟨_, stored⟩, stores, runs⟩ := Option.bind_eq_some_iff.mp runs
  obtain ⟨⟨_, entered⟩, enters, runs⟩ := Option.bind_eq_some_iff.mp runs
  simp only [toOption_eq_some_iff, Outcome.ok?_eq_some_iff] at loaded stores enters
  simp only [Option.some.injEq, Prod.mk.injEq] at runs
  obtain ⟨moved, overwritten, kept⟩ := runs
  obtain ⟨standing, throughout⟩ := standing_throughout_session start [(10, mainLabel)]
  have isStatement : routine.statements[0]? = some (.move (.mem place) (.const 5)) := by
    obtain ⟨frame, body, isThere, rfl⟩ := exists_code_of_mem_routines loaded
      (standing.routines ▸ mem_of_routine? found)
    simp only [chunks, List.mem_cons, reduceCtorEq, List.not_mem_nil, Chunk.code.injEq, false_or,
      or_false] at isThere
    obtain ⟨rfl, rfl⟩ := isThere
    rfl
  have begins : Reached _ _ 1 _ _ _ := .start found stores
  have reached := ((begins.enter enters).execute isStatement).place
  obtain ⟨stands, knows⟩ := throughout _ _ _ _ _ reached
  exact ⟨start, _, _, _, entered, loaded, rfl, by omega, overwritten, kept, reached, standing,
    stands, knows _ _ rfl⟩

end TreeBackend.Machine
