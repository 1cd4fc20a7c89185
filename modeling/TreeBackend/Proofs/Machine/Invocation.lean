import TreeBackend.Proofs.Machine.Inversion
import TreeBackend.Proofs.Machine.Writing

/-!
# What a call leaves behind

The effect of each part of a call on the machine, as an equation: arguments are
stored in words that lie one above the other, a frame is made and removed, and a
builtin prints.  The equations hold under the conditions that keep the part from
ending in a fault.
-/

namespace TreeBackend.Machine

open Outcome

variable {machine : Machine}

/-! ### Words and pointers -/

/-- The machine with integers in words that lie one above the other. -/
def writeWords (machine : Machine) (address : Int) : List Int → Machine
  | [] => machine
  | value :: rest =>
      (machine.writeWord address (.int value)).writeWords (address + Word.size) rest

def withPointers (machine : Machine) (framePointer stackPointer : Int) : Machine :=
  registerPointers { machine with framePointer, stackPointer }

/-- The machine with a sink that takes everything, and has taken a text. -/
def withOutput (machine : Machine) (text : String) : Machine :=
  { machine with output := some { written := text.toUTF8 } }

section Fields

variable (machine : Machine)

@[simp] theorem framePointer_withPointers (framePointer stackPointer : Int) :
    (machine.withPointers framePointer stackPointer).framePointer = framePointer := rfl

@[simp] theorem stackPointer_withPointers (framePointer stackPointer : Int) :
    (machine.withPointers framePointer stackPointer).stackPointer = stackPointer := rfl

@[simp] theorem read?_withPointers (framePointer stackPointer address : Int) :
    (machine.withPointers framePointer stackPointer).memory.read? address =
      machine.memory.read? address := rfl

theorem address?_withPointers (framePointer stackPointer : Int) (label : Label) :
    (machine.withPointers framePointer stackPointer).memory.address? label =
      if Label.stackPointer = label then some stackPointer
      else if Label.framePointer = label then some framePointer
      else machine.memory.address? label := by
  change (Table.insert _ _ _).get? label = _
  rw [Table.get?_insert]
  congr 1
  exact Table.get?_insert ..

/-- The pointers have certain values, and so have their labels. -/
structure Points (base top : Int) : Prop where
  framePointer : machine.framePointer = base
  stackPointer : machine.stackPointer = top
  frameLabel : machine.memory.address? .framePointer = some base
  stackLabel : machine.memory.address? .stackPointer = some top

theorem points_withPointers (framePointer stackPointer : Int) :
    (machine.withPointers framePointer stackPointer).Points framePointer stackPointer where
  framePointer := rfl
  stackPointer := rfl
  frameLabel := by simp [address?_withPointers, Label.framePointer, Label.stackPointer]
  stackLabel := by simp [address?_withPointers]

@[simp] theorem size_writeWord (address : Int) (value : Value) :
    (machine.writeWord address value).memory.size = machine.memory.size :=
  Memory.size_write ..

theorem read?_writeWord {address : Int} (value : Value) (other : Int)
    (valid : machine.memory.isAddress address = true) :
    (machine.writeWord address value).memory.read? other =
      if address = other then some value else machine.memory.read? other :=
  Memory.read?_write _ value other valid

@[simp] theorem isAddress_writeWord (address other : Int) (value : Value) :
    (machine.writeWord address value).memory.isAddress other =
      machine.memory.isAddress other :=
  Memory.isAddress_write ..

end Fields

/-! ### Frames -/

/-- A frame is made if it fits above the static area. -/
theorem enter_eq {routine : Routine} {jumps : Table Label Nat}
    (isFlat : routine.jumps? = some jumps)
    (fits : machine.memory.staticTop ≤ routine.frame.topAt machine.stackPointer)
    (valid : machine.memory.isAddress (routine.frame.savedAt machine.stackPointer) = true) :
    enter routine machine = .ok jumps
      ((machine.writeWord (routine.frame.savedAt machine.stackPointer)
          (.int machine.framePointer)).withPointers
        machine.stackPointer (routine.frame.topAt machine.stackPointer)) := by
  have fits : ¬routine.frame.topAt machine.stackPointer < machine.memory.staticTop := by omega
  simp only [enter, isFlat, fits, if_false, valid, if_true]
  rfl

theorem leave_eq {routine : Routine} {saved : Int}
    (found : machine.memory.read? (routine.frame.savedAt machine.framePointer) =
      some (.int saved)) :
    leave routine machine = .ok () (machine.withPointers saved machine.framePointer) := by
  refine bind_eq_ok.mpr ⟨(), _, modify_eq_ok.mpr rfl, ?_⟩
  refine bind_eq_ok.mpr ⟨_, _, get_eq_ok.mpr ⟨rfl, rfl⟩, ?_⟩
  refine bind_eq_ok.mpr ⟨saved, _, loadInt_eq_ok.mpr ⟨?_, rfl⟩, modify_eq_ok.mpr rfl⟩
  exact memory_loadInt_eq_ok.mpr found

/-- The function that a label stands for, by the word at its address. -/
theorem routine?_eq {label : Label} {address : Int} {number : Nat} {routine : Routine}
    (known : machine.memory.address? label = some address)
    (found : machine.memory.read? address = some (.code number))
    (isThere : machine.routines[number]? = some routine) :
    machine.routine? label = some routine := by
  simp only [routine?, known, Option.bind_some, found, isThere]

section Calls

variable {body : Array IR.Stmt → Table Label Nat → Exec Unit} {routine : Routine}
  {entered left final : Machine} {jumps : Table Label Nat} {label : Label} {result : Int}

theorem invoke_eq (enters : enter routine machine = .ok jumps entered)
    (runs : body routine.statements jumps entered = .ok () left)
    (leaves : leave routine left = .ok () final) :
    invoke body routine machine = .ok () final :=
  bind_eq_ok.mpr ⟨jumps, entered, enters, bind_eq_ok.mpr ⟨(), left, runs, leaves⟩⟩

def NoBuiltin (label : Label) : Prop :=
  ∀ name, label = .named name → Builtin.ofName? name = none

/-- A call stores the arguments, runs the function and fetches the result. -/
theorem callLabel_eq {arguments : List Int} {stored : Machine} (noBuiltin : NoBuiltin label)
    (found : machine.routine? label = some routine)
    (stores : storeInts machine.stackPointer arguments machine = .ok () stored)
    (invokes : invoke body routine stored = .ok () final)
    (fetches : final.memory.read? final.stackPointer = some (.int result)) :
    callLabel body label arguments machine = .ok result final := by
  have calls : callLabel.callRoutine body label arguments machine = .ok result final := by
    refine bind_eq_ok.mpr ⟨machine, machine, get_eq_ok.mpr ⟨rfl, rfl⟩, ?_⟩
    rw [found]
    refine bind_eq_ok.mpr ⟨machine, machine, get_eq_ok.mpr ⟨rfl, rfl⟩, ?_⟩
    refine bind_eq_ok.mpr ⟨(), stored, stores, ?_⟩
    refine bind_eq_ok.mpr ⟨(), final, invokes, ?_⟩
    refine bind_eq_ok.mpr ⟨final, final, get_eq_ok.mpr ⟨rfl, rfl⟩, ?_⟩
    exact loadInt_eq_ok.mpr ⟨memory_loadInt_eq_ok.mpr fetches, rfl⟩
  cases label with
  | anonymous number => exact calls
  | named name =>
      rw [callLabel, noBuiltin name rfl]
      exact calls

/-- The outermost call has nothing but an empty static link. -/
theorem interpret_eq {fuel : Nat} {stored : Machine} (found : machine.routine? label = some routine)
    (stores : storeInts machine.stackPointer [0] machine = .ok () stored)
    (invokes : invoke (fun statements jumps => runFrom fuel statements jumps 0 {}) routine stored =
      .ok () final)
    (fetches : final.memory.read? final.stackPointer = some (.int result)) :
    interpret fuel label machine = .ok result final := by
  refine bind_eq_ok.mpr ⟨machine, machine, get_eq_ok.mpr ⟨rfl, rfl⟩, ?_⟩
  rw [found]
  refine bind_eq_ok.mpr ⟨machine, machine, get_eq_ok.mpr ⟨rfl, rfl⟩, ?_⟩
  obtain ⟨⟨⟩, between, first, rest⟩ := bind_eq_ok.mp stores
  obtain ⟨-, rfl⟩ := pure_eq_ok.mp rest
  refine bind_eq_ok.mpr ⟨(), _, first, ?_⟩
  refine bind_eq_ok.mpr ⟨(), final, invokes, ?_⟩
  refine bind_eq_ok.mpr ⟨final, final, get_eq_ok.mpr ⟨rfl, rfl⟩, ?_⟩
  exact loadInt_eq_ok.mpr ⟨memory_loadInt_eq_ok.mpr fetches, rfl⟩

end Calls

/-! ### What a call consists of -/

section Inversion

variable {machine final : Machine} {routine : Routine} {jumps : Table Label Nat}

/-- A frame is made only if it fits above the static area. -/
theorem enter_eq_ok : enter routine machine = .ok jumps final ↔
    routine.jumps? = some jumps ∧
      machine.memory.staticTop ≤ routine.frame.topAt machine.stackPointer ∧
      machine.memory.isAddress (routine.frame.savedAt machine.stackPointer) = true ∧
      final = (machine.writeWord (routine.frame.savedAt machine.stackPointer)
        (.int machine.framePointer)).withPointers
          machine.stackPointer (routine.frame.topAt machine.stackPointer) := by
  constructor
  · intro entered
    cases isFlat : routine.jumps? with
    | none => simp [enter, isFlat] at entered
    | some known =>
        by_cases fits : machine.memory.staticTop ≤ routine.frame.topAt machine.stackPointer
        · by_cases valid : machine.memory.isAddress
              (routine.frame.savedAt machine.stackPointer) = true
          · rw [enter_eq isFlat fits valid] at entered
            obtain ⟨rfl, rfl⟩ := EStateM.Result.ok.inj entered
            exact ⟨rfl, fits, valid, rfl⟩
          · simp [enter, isFlat, Int.not_lt.mpr fits, valid] at entered
        · simp [enter, isFlat, Int.not_le.mp fits] at entered
  · rintro ⟨isFlat, fits, valid, rfl⟩
    exact enter_eq isFlat fits valid

theorem leave_eq_ok : leave routine machine = .ok () final ↔
    ∃ saved, machine.memory.read? (routine.frame.savedAt machine.framePointer) =
      some (.int saved) ∧ final = machine.withPointers saved machine.framePointer := by
  constructor
  · intro left
    obtain ⟨⟨⟩, _, moved, left⟩ := bind_eq_ok.mp left
    obtain rfl := modify_eq_ok.mp moved
    obtain ⟨_, _, here, left⟩ := bind_eq_ok.mp left
    obtain ⟨rfl, rfl⟩ := get_eq_ok.mp here
    obtain ⟨saved, _, loaded, left⟩ := bind_eq_ok.mp left
    obtain ⟨found, rfl⟩ := loadInt_eq_ok.mp loaded
    obtain rfl := modify_eq_ok.mp left
    exact ⟨saved, memory_loadInt_eq_ok.mp found, rfl⟩
  · rintro ⟨saved, found, rfl⟩
    exact leave_eq found

theorem invoke_eq_ok {body : Array IR.Stmt → Table Label Nat → Exec Unit} :
    invoke body routine machine = .ok () final ↔ ∃ jumps entered left,
      enter routine machine = .ok jumps entered ∧
      body routine.statements jumps entered = .ok () left ∧ leave routine left = .ok () final := by
  constructor
  · intro invoked
    obtain ⟨jumps, entered, enters, invoked⟩ := bind_eq_ok.mp invoked
    obtain ⟨⟨⟩, left, runs, leaves⟩ := bind_eq_ok.mp invoked
    exact ⟨jumps, entered, left, enters, runs, leaves⟩
  · rintro ⟨jumps, entered, left, enters, runs, leaves⟩
    exact invoke_eq enters runs leaves

/-- A call of a function stores the arguments, runs the function and fetches the result. -/
theorem callRoutine_eq_ok {body : Array IR.Stmt → Table Label Nat → Exec Unit} {label : Label}
    {arguments : List Int} {result : Int} :
    callLabel.callRoutine body label arguments machine = .ok result final ↔
      ∃ routine stored, machine.routine? label = some routine ∧
        storeInts machine.stackPointer arguments machine = .ok () stored ∧
        invoke body routine stored = .ok () final ∧
        final.memory.read? final.stackPointer = some (.int result) := by
  simp only [callLabel.callRoutine, bind_eq_ok, get_eq_ok, and_assoc, exists_and_left,
    exists_eq_left]
  cases machine.routine? label with
  | none =>
      simp only [reduceCtorEq, false_and, exists_false, iff_false]
      exact throw_ne_ok
  | some routine =>
      simp only [bind_eq_ok, get_eq_ok, loadInt_eq_ok, memory_loadInt_eq_ok]
      grind

theorem interpret_eq_ok {fuel : Nat} {entry : Label} {result : Int}
    (interpreted : interpret fuel entry machine = .ok result final) :
    ∃ routine stored, machine.routine? entry = some routine ∧
      storeInt machine.stackPointer 0 machine = .ok () stored ∧
      invoke (fun statements jumps => runFrom fuel statements jumps 0 {}) routine stored =
        .ok () final ∧
      final.memory.read? final.stackPointer = some (.int result) := by
  obtain ⟨_, _, here, interpreted⟩ := bind_eq_ok.mp interpreted
  obtain ⟨sameMachine, unchanged⟩ := get_eq_ok.mp here
  rw [sameMachine, unchanged] at interpreted
  cases found : machine.routine? entry with
  | none =>
      rw [found] at interpreted
      exact (throw_ne_ok interpreted).elim
  | some routine =>
      simp only [found, bind_eq_ok, get_eq_ok, loadInt_eq_ok, memory_loadInt_eq_ok] at interpreted
      obtain ⟨_, _, ⟨rfl, rfl⟩, ⟨⟩, stored, stores, ⟨⟩, last, invoked, _, _, ⟨rfl, rfl⟩, fetched,
        rfl⟩ := interpreted
      exact ⟨routine, stored, rfl, stores, invoked, fetched⟩

theorem callLabel_eq_ok {body : Array IR.Stmt → Table Label Nat → Exec Unit} {label : Label}
    {values : List Int} {result : Int}
    (called : callLabel body label values machine = .ok result final) :
    (∃ builtin, callBuiltin builtin values machine = .ok result final) ∨
      NoBuiltin label ∧ callLabel.callRoutine body label values machine = .ok result final := by
  cases label with
  | anonymous _ => exact .inr ⟨nofun, called⟩
  | named name =>
      rw [callLabel] at called
      cases isBuiltin : Builtin.ofName? name with
      | some builtin =>
          rw [isBuiltin] at called
          exact .inl ⟨builtin, called⟩
      | none =>
          rw [isBuiltin] at called
          refine .inr ⟨?_, called⟩
          rintro _ ⟨rfl⟩
          exact isBuiltin

/-- A run is over, or goes on after one statement. -/
theorem runFrom_eq_ok {fuel position : Nat} {statements : Array IR.Stmt} {temps : Temps}
    (ran : runFrom (fuel + 1) statements jumps position temps machine = .ok () final) :
    (statements[position]? = none ∧ final = machine) ∨
      ∃ statement next middle target, statements[position]? = some statement ∧
        execute (callLabel fun statements jumps => runFrom fuel statements jumps 0 {}) temps
          statement machine = .ok next middle ∧
        ((next.jump = none ∧ target = position + 1) ∨
          ∃ label, next.jump = some label ∧ jumps.get? label = some target) ∧
        runFrom fuel statements jumps target next.temps middle = .ok () final := by
  cases found : statements[position]? with
  | none =>
      simp only [runFrom, found] at ran
      exact .inl ⟨rfl, (pure_eq_ok.mp ran).2⟩
  | some statement =>
      simp only [runFrom, found] at ran
      obtain ⟨next, middle, executed, rest⟩ := bind_eq_ok.mp ran
      refine .inr ⟨statement, next, middle, ?_⟩
      cases jumped : next.jump with
      | none =>
          rw [jumped] at rest
          exact ⟨_, rfl, executed, .inl ⟨rfl, rfl⟩, rest⟩
      | some label =>
          rw [jumped] at rest
          cases isThere : jumps.get? label with
          | none =>
              simp only [isThere] at rest
              exact (throw_ne_ok rest).elim
          | some target =>
              simp only [isThere] at rest
              exact ⟨target, rfl, executed, .inr ⟨label, rfl, isThere⟩, rest⟩

end Inversion

/-! ### Builtins -/

section Builtins

variable {final : Machine}

/-- Whether a piece of text is written or refused, only the sink changes, and not its writer. -/
theorem exists_state_write (piece : String) (machine : Machine) :
    ∃ output, state (write piece machine) = { machine with output } ∧
      output.map Sink.writer = machine.output.map Sink.writer := by
  obtain ⟨memory, routines, random, output, framePointer, stackPointer⟩ := machine
  cases output with
  | none => exact ⟨none, rfl, rfl⟩
  | some sink =>
      have wrote := sink.wrote_write piece
      unfold write
      dsimp only
      generalize sink.write piece = outcome at wrote
      cases wrote with
      | @all later writer _ => exact ⟨some later, rfl, congrArg some writer⟩
      | @part later _ _ _ _ _ writer _ _ => exact ⟨some later, rfl, congrArg some writer⟩

theorem write_eq_ok {piece : String} (written : write piece machine = .ok () final) :
    ∃ output, final = { machine with output } := by
  obtain ⟨output, same, -⟩ := exists_state_write piece machine
  rw [written] at same
  exact ⟨output, same⟩

theorem printLine_eq_ok {line : String} (printed : printLine line machine = .ok () final) :
    ∃ output, final = { machine with output } := by
  obtain ⟨⟨⟩, middle, first, second⟩ := bind_eq_ok.mp printed
  obtain ⟨_, rfl⟩ := write_eq_ok first
  obtain ⟨output, rfl⟩ := write_eq_ok second
  exact ⟨output, rfl⟩

theorem loadText_eq_ok {address : Int} {text : String}
    (loaded : loadText address machine = .ok text final) : final = machine := by
  unfold loadText at loaded
  split at loaded
  · exact (EStateM.Result.ok.inj loaded).2.symm
  · cases loaded
  · cases loaded

/-- A builtin changes nothing but the sink and the random numbers. -/
theorem callBuiltin_eq_ok {builtin : Builtin} {arguments : List Int} {result : Int}
    (called : callBuiltin builtin arguments machine = .ok result final) :
    ∃ random output, final = { machine with random, output } := by
  unfold callBuiltin at called
  split at called
  · obtain ⟨⟨⟩, _, printed, ended⟩ := bind_eq_ok.mp called
    obtain ⟨-, rfl⟩ := pure_eq_ok.mp ended
    exact ⟨_, printLine_eq_ok printed⟩
  · obtain ⟨text, _, loaded, prints⟩ := bind_eq_ok.mp called
    obtain rfl := loadText_eq_ok loaded
    obtain ⟨⟨⟩, _, printed, ended⟩ := bind_eq_ok.mp prints
    obtain ⟨-, rfl⟩ := pure_eq_ok.mp ended
    exact ⟨_, printLine_eq_ok printed⟩
  · obtain ⟨⟨⟩, _, printed, ended⟩ := bind_eq_ok.mp called
    obtain ⟨-, rfl⟩ := pure_eq_ok.mp ended
    exact ⟨_, printLine_eq_ok printed⟩
  · unfold drawInt at called
    split at called
    · split at called
      · exact ⟨_, _, (EStateM.Result.ok.inj called).2.symm⟩
      · cases called
    · cases called
  · obtain ⟨⟨⟩, _, seeded, ended⟩ := bind_eq_ok.mp called
    obtain ⟨-, rfl⟩ := pure_eq_ok.mp ended
    exact ⟨_, _, (EStateM.Result.ok.inj seeded).2.symm⟩
  · exact (throw_ne_ok called).elim

end Builtins

/-! ### Printing -/

section Printing

variable {text : String}

theorem write_eq (isOpen : machine.output = some { written := text.toUTF8 }) (piece : String) :
    write piece machine = .ok () (machine.withOutput (text ++ piece)) := by
  obtain ⟨memory, routines, random, output, framePointer, stackPointer⟩ := machine
  obtain rfl := isOpen
  simp only [write, Sink.write_unlimited]
  rfl

theorem printLine_eq (isOpen : machine.output = some { written := text.toUTF8 }) (line : String) :
    printLine line machine = .ok () (machine.withOutput (text ++ line ++ "\n")) :=
  bind_eq_ok.mpr ⟨(), _, write_eq isOpen line, write_eq rfl "\n"⟩

theorem callBuiltin_printInt_eq (isOpen : machine.output = some { written := text.toUTF8 })
    (link value : Int) :
    callBuiltin .printInt [link, value] machine =
      .ok value (machine.withOutput (text ++ toString value ++ "\n")) :=
  bind_eq_ok.mpr ⟨(), _, printLine_eq isOpen _, pure_eq_ok.mpr ⟨rfl, rfl⟩⟩

theorem callBuiltin_printLog_eq (isOpen : machine.output = some { written := text.toUTF8 })
    (link truth : Int) :
    callBuiltin .printLog [link, truth] machine =
      .ok truth (machine.withOutput
        (text ++ (if truth = 0 then "false" else "true") ++ "\n")) :=
  bind_eq_ok.mpr ⟨(), _, printLine_eq isOpen _, pure_eq_ok.mpr ⟨rfl, rfl⟩⟩

theorem callBuiltin_printStr_eq (isOpen : machine.output = some { written := text.toUTF8 })
    (link : Int)
    {address : Int} {constant : String}
    (found : machine.memory.read? address = some (.str constant)) :
    callBuiltin .printStr [link, address] machine =
      .ok address (machine.withOutput (text ++ ("\"" ++ constant ++ "\"") ++ "\n")) := by
  have loads : loadText address machine = .ok constant machine := by
    simp only [loadText, Memory.load, found]
  refine bind_eq_ok.mpr ⟨constant, machine, loads, ?_⟩
  exact bind_eq_ok.mpr ⟨(), _, printLine_eq isOpen _, pure_eq_ok.mpr ⟨rfl, rfl⟩⟩

end Printing

end TreeBackend.Machine
