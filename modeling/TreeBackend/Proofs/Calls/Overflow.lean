import TreeBackend.Proofs.Calls.Protocol
import TreeBackend.Proofs.Machine.Failing
import TreeBackend.Proofs.Machine.Preserving

/-!
# Running out of stack

A call fails if its frame does not fit between the stack pointer and the static area.  The
check comes after the caller has saved the frame pointer where the frame will be, and after
the outermost call has been given its static link.  If these two words lie above the static
area, then nothing in the static area changes but the global variables.
-/

namespace TreeBackend

open Source (Program)
open Lowering Machine Outcome
open IR (Chunk)

/-! ### What must not change -/

namespace Machine

def Value.isConstant : Value → Bool
  | .str _ | .code _ => true
  | .int _ => false

/-- The static area is as at the beginning, but for the global variables. -/
def Intact (table : FrameTable) (start machine : Machine) : Prop :=
  ∀ address < start.memory.staticTop,
    (∀ definition slot, table.storage? definition = some (.global slot) →
      start.memory.address? slot.label ≠ some address) →
    machine.memory.read? address = start.memory.read? address

def SavesAbove (start : Machine) (entry : Label) : Prop :=
  ∀ ⦃fuel stack machine temps offset source⦄,
    Reached start entry fuel stack machine
      (.execute temps (.move (.mem (.binop .sub .stackPointer (.const offset))) source)) →
    machine.memory.staticTop ≤ machine.stackPointer - offset

/-- A run out of stack changes nothing in the static area but global variables. -/
structure OverflowsCleanly (table : FrameTable) (start : Machine) (entry : Label) : Prop where
  /-- In all states the rest of the static area is as at the beginning. -/
  intact : ∀ {fuel stack now task}, Reached start entry fuel stack now task → Intact table start now
  /-- In particular, strings and functions stay where they are. -/
  constants : ∀ {fuel stack now task address value}, Reached start entry fuel stack now task →
    address < start.memory.staticTop → start.memory.read? address = some value →
    value.isConstant = true → now.memory.read? address = some value
  /-- A call whose frame does not fit fails before it changes anything, and the run fails. -/
  fails : ∀ {fuel stack now routine}, Reached start entry fuel stack now (.invoke routine) →
    now.stackPointer - routine.frame.size < now.memory.staticTop →
    invokeWith fuel routine now = .error (.fault (.stackOverflow
        (now.stackPointer - routine.frame.size) now.memory.staticTop)) now ∧
      ∃ total, interpret total entry start = .error (.fault (.stackOverflow
        (now.stackPointer - routine.frame.size) now.memory.staticTop)) now

/-- A frame that does not fit is not made. -/
theorem invokeWith_eq_error {routine : Routine} {machine : Machine} (fuel : Nat)
    (flat : routine.jumps?.isSome = true)
    (overflows : routine.frame.topAt machine.stackPointer < machine.memory.staticTop) :
    invokeWith fuel routine machine = .error (.fault (.stackOverflow
      (routine.frame.topAt machine.stackPointer) machine.memory.staticTop)) machine := by
  obtain ⟨jumps, isFlat⟩ := Option.isSome_iff_exists.mp flat
  refine bind_eq_error.mpr (.inl ?_)
  simp only [enter, isFlat, overflows, if_true]

end Machine

section Overflow

variable {program : Program} {table : FrameTable} {start machine final : Machine} {call : Call}
  {older calls : List Call} {fuel : Nat} {stack : List Activation}

/-- A store outside the static area, or to a global variable, leaves the rest intact. -/
theorem Machine.Intact.writeWord {place : Int} (intact : Intact table start machine) (value : Int)
    (isVariable : IsVariablePlace table start place)
    (valid : machine.memory.isAddress place = true) :
    Intact table start (machine.writeWord place (.int value)) := by
  intro address below notGlobal
  rw [read?_writeWord _ _ _ valid, if_neg, intact address below notGlobal]
  rintro rfl
  rcases isVariable with above | ⟨definition, slot, isGlobal, known⟩
  · omega
  · exact notGlobal definition slot isGlobal known

theorem Machine.Intact.storeInt {place value : Int} (intact : Intact table start machine)
    (isVariable : IsVariablePlace table start place)
    (stored : Machine.storeInt place value machine = .ok () final) : Intact table start final := by
  obtain ⟨valid, rfl⟩ := storeInt_eq_ok.mp stored
  exact intact.writeWord value isVariable valid

/-- Stores of code go where variables live, if frame pointers are saved above the static area. -/
theorem isVariablePlace_of_reached (hosts : Hosts program table start)
    (above : SavesAbove start mainLabel) {temps : Temps} {address source : IR.Expr} {place : Int}
    (reached : Reached start mainLabel fuel stack machine
      (.execute temps (.move (.mem address) source)))
    (places : eval (callWith fuel) temps address machine = .ok place final) :
    IsVariablePlace table start place := by
  obtain ⟨calls, -, isStack, holds⟩ := holdsIn_of_reached hosts reached
  cases calls with
  | nil => exact holds.elim
  | cons call older =>
      obtain ⟨before, result, body, member, works⟩ := holds
      rcases List.mem_append.mp member with inside | isLast
      · have allowed := (body.allows _ inside).place address source rfl
        obtain ⟨-, -, isVariable | ⟨offset, rfl, rfl⟩⟩ :=
          place_eq_ok hosts isStack allowed works.hold works.keeps places
        · exact isVariable
        · have saved := above reached
          rw [works.keeps.points.stackPointer, works.keeps.steady.staticTop] at saved
          exact .inl saved
      · obtain ⟨same, rfl⟩ := IR.Stmt.move.inj (List.mem_singleton.mp isLast)
        obtain rfl := IR.Expr.mem.inj same
        rw [eval_framePointer works.keeps] at places
        obtain ⟨rfl, -⟩ := EStateM.Result.ok.inj places
        obtain ⟨floor, room, -⟩ := isStack.stacked.placed
        have saved := isStack.stacked.1.bounds.1
        refine .inl ?_
        unfold Word.size at *
        omega

/-- The static area stays intact in a run that saves frame pointers above it. -/
theorem preserved_intact (hosts : Hosts program table start)
    (room : start.memory.staticTop ≤ start.memory.size - Word.size)
    (above : SavesAbove start mainLabel) : Preserved start mainLabel (Intact table start) where
  begins _ stored := by
    have intact : Intact table start start := fun _ _ _ => rfl
    rw [hosts.points.stackPointer] at stored
    exact intact.storeInt (.inl room) stored
  store reached places _ intact stored :=
    intact.storeInt (isVariablePlace_of_reached hosts above reached places) stored
  pass reached intact stored := by
    obtain ⟨calls, -, isStack, holds⟩ := holdsIn_of_reached hosts reached
    cases calls with
    | nil => exact holds.elim
    | cons call older =>
        obtain ⟨callee, can, -, cases⟩ := holds
        have floor := isStack.stacked.placed.1
        refine intact.storeInt (.inl ?_) stored
        rcases cases with ⟨rfl, -⟩ | ⟨higher, -⟩ <;> omega
  builtin intact called := by
    obtain ⟨random, output, rfl⟩ := callBuiltin_eq_ok called
    exact intact
  enter {_ _ machine _ _ _} reached intact entered := by
    obtain ⟨calls, -, isStack, callee, can, keeps⟩ := holdsIn_of_reached hosts reached
    obtain ⟨floor, low, -⟩ := (enter_keeps hosts isStack can keeps entered).1.stacked.placed
    obtain ⟨-, -, valid, rfl⟩ := enter_eq_ok.mp entered
    rw [keeps.points.stackPointer] at valid ⊢
    have above := floor.trans ((Int.le_add_of_nonneg_right (by decide)).trans low)
    have intact := intact.writeWord machine.framePointer (.inl above) valid
    exact intact
  leave reached intact left := by
    obtain ⟨saved, -, rfl⟩ := leave_eq_ok.mp left
    exact intact

/-- A lexically scoped program, with tables or without, that runs out of stack leaves strings and
functions as they are, provided that the outermost static link and all frame pointers that are
saved for a call lie above the static area. -/
theorem overflows_cleanly {chunks : List Chunk} {config : Config} {labels : LabelSupply}
    {output : Option Sink} (inScope : program.IsConfined) (framesFit : program.FramesFit)
    (globalsFit : program.GlobalsFit)
    (layout : Layout.ofProgram program {} = .ok (table, labels))
    (compiled : compile program = .ok chunks) (loaded : load chunks config = .ok machine)
    (room : machine.memory.staticTop ≤ config.memorySize - Word.size)
    (above : SavesAbove { machine with output } mainLabel) :
    OverflowsCleanly table { machine with output } mainLabel := by
  obtain ⟨_, _, again, hosts, size⟩ := exists_hosts inScope framesFit globalsFit compiled loaded
  obtain ⟨rfl, rfl⟩ := Prod.mk.inj (Except.ok.inj (layout.symm.trans again))
  have hosts := hosts.withOutput output
  rw [← size] at room
  have preserved := preserved_intact hosts room above
  refine ⟨preserved.of_reached, ?_, ?_⟩
  · intro fuel stack now task address value reached below found constant
    rw [preserved.of_reached reached address below, found]
    intro definition slot isGlobal known
    obtain ⟨-, -, _, -, same, number, isInt⟩ := hosts.global definition slot isGlobal
    obtain rfl := Option.some_inj.mp (known.symm.trans same)
    obtain rfl := Option.some_inj.mp (found.symm.trans isInt)
    cases constant
  · intro fuel stack now routine reached overflows
    obtain ⟨calls, -, isStack, callee, can, keeps⟩ := holdsIn_of_reached hosts reached
    obtain ⟨low, high⟩ := isStack.stackPointerOf_fits hosts
    have top := (hosts.frame_at can.member can.runs.frame low high).1
    rw [← keeps.points.stackPointer] at top
    rw [← top] at overflows ⊢
    have fails := invokeWith_eq_error fuel can.runs.flat overflows
    exact ⟨fails, reached.interpret_fails fails⟩

/-- Frame pointers are saved above the static area if all functions find enough room below all
open calls. -/
theorem savesAbove_of_room (hosts : Hosts program table start)
    (room : ∀ call older, IsStack program table start (call :: older) →
      ∀ function ∈ program.functions, ∀ frame, table.frame? function.node.id = some frame →
        start.memory.staticTop ≤ call.top - frame.savedPointerOffset) :
    SavesAbove start mainLabel := by
  intro fuel stack machine temps offset source reached
  obtain ⟨calls, -, isStack, holds⟩ := holdsIn_of_reached hosts reached
  cases calls with
  | nil => exact holds.elim
  | cons call older =>
      obtain ⟨before, result, body, member, works⟩ := holds
      have isSaved : (call.function.discipline program table).isSaved offset := by
        rcases List.mem_append.mp member with inside | isLast
        · rcases (body.allows _ inside).place _ source rfl with
            ⟨cell, isCell, rfl | ⟨_, same, -⟩⟩ | ⟨other, isSaved, same⟩
          · rcases isCell with ⟨_, _, -, same⟩ | ⟨_, _, -, -, _, -, same⟩ <;> cases same
          · cases same
          · obtain ⟨-, -, same⟩ := IR.Expr.binop.inj same
            rwa [IR.Expr.const.inj same]
        · obtain ⟨same, -⟩ := IR.Stmt.move.inj (List.mem_singleton.mp isLast)
          cases same
      obtain ⟨function, isFunction, frame, found, rfl⟩ := isSaved
      rw [works.keeps.points.stackPointer, works.keeps.steady.staticTop]
      exact room call older isStack function isFunction frame found

end Overflow

namespace Demo

open Source Source.Assembler

/-- A main function with a table that calls itself for ever:

    fun main(): int = main() where { var table: int[2] }
-/
def endless : Program := assemble do
  let main ← declareFunction "main" [] .int
  let table ← declareVariable "table" (.array 2 .int)
  let body ← whereIn (← call main []) [table.toDef]
  return [defineFunction main body]

/-- A main function that prints a string and then calls a function with a large table:

    fun wide(): int = 1 where { var table: int[8] }
    fun main(): int = { print_str("kept"); wide() }
-/
def wide : Program := assemble do
  let wide ← declareFunction "wide" [] .int
  let table ← declareVariable "table" (.array 8 .int)
  let one ← int 1
  let body ← whereIn one [table.toDef]
  let main ← declareFunction "main" [] .int
  let text ← str "kept"
  let printed ← callBuiltin .printStr [text]
  let called ← call wide []
  let sequence ← block [printed, called]
  return [defineFunction wide body, defineFunction main sequence]

end Demo

theorem isConfined_endless : Demo.endless.IsConfined where
  distinct := by decide +kernel
  rooms function member := by
    have rooms : ∀ function ∈ Demo.endless.functions, function.parameters = [] ∧
        ∀ owned ∈ function.contents.locals, Demo.endless.resolution.extent owned.node.id = 8 := by
      decide +kernel
    obtain ⟨noParameters, sizes⟩ := rooms function member
    refine ⟨by simp [noParameters], fun owned isLocal => ?_⟩
    rw [sizes owned isLocal]
    decide
  bodies := by decide +kernel
  names := by decide +kernel
  noPointer := by decide +kernel
  main := by decide +kernel

/-- In a small memory, the frames of the endless program end 20 bytes apart, and none of them where
the static area ends; so all frame pointers are saved above it. -/
theorem savesAbove_endless {chunks : List Chunk} {machine : Machine}
    (compiled : compile Demo.endless = .ok chunks)
    (loaded : load chunks { memorySize := 64 } = .ok machine)
    (staticTop : machine.memory.staticTop = 8) : SavesAbove machine mainLabel := by
  obtain ⟨table, labels, layout, hosts, size⟩ :=
    exists_hosts isConfined_endless (by decide +kernel) (by decide +kernel) compiled loaded
  have frames : ∀ laidOut ∈ (Layout.ofProgram Demo.endless {}).toOption,
      ∀ function ∈ Demo.endless.functions, ∀ frame ∈ laidOut.1.frame? function.node.id,
        frame.localsSize = 8 ∧ frame.argumentsSize = 4 ∧ frame.savedPointerOffset = 12 := by
    decide +kernel
  have frames := frames (table, labels) (by rw [layout]; rfl)
  refine savesAbove_of_room hosts fun call older isStack function member frame found => ?_
  have apart : call.top % 20 = 0 := by
    have stacked := isStack.stacked
    induction older generalizing call with
    | nil =>
        have own := frames _ isStack.function_mem _
          (isStack.routines call (List.mem_cons_self ..)).frame
        have base : call.framePointer = machine.memory.size - Word.size := stacked.1.framePointer
        have bounds := stacked.1.bounds
        rw [size] at base
        simp only [Word.size] at base bounds
        omega
    | cons caller older ih =>
        have own := frames _ isStack.function_mem _
          (isStack.routines call (List.mem_cons_self ..)).frame
        have above := ih caller (@IsStack.of_append _ _ _ _ [call] isStack) stacked.2
        have same : call.framePointer = caller.top := stacked.1.framePointer
        have bounds := stacked.1.bounds
        simp only [Word.size] at bounds
        omega
  have floor := isStack.stacked.1.floor
  rw [(frames function member frame found).2.2, staticTop]
  rw [staticTop] at floor
  omega

/-- The endless program runs out of stack when it calls itself for the third time. -/
theorem overflows_cleanly_endless : Demo.endless.IsConfined ∧ Demo.endless.FramesFit ∧
    Demo.endless.GlobalsFit ∧
    ∃ table labels chunks machine final, Layout.ofProgram Demo.endless {} = .ok (table, labels) ∧
      compile Demo.endless = .ok chunks ∧ load chunks { memorySize := 64 } = .ok machine ∧
      machine.memory.staticTop = 8 ∧ SavesAbove machine mainLabel ∧
      interpret 10 mainLabel machine = .error (.fault (.stackOverflow 0 8)) final ∧
      OverflowsCleanly table machine mainLabel := by
  have framesFit : Demo.endless.FramesFit := by decide +kernel
  have globalsFit : Demo.endless.GlobalsFit := by decide +kernel
  have runs : (do
      let chunks ← (compile Demo.endless).toOption
      let machine ← (load chunks { memorySize := 64 }).toOption
      match interpret 10 mainLabel machine with
      | .error (.fault fault) _ => some (machine.memory.staticTop, fault)
      | _ => none) = some (8, .stackOverflow 0 8) := by decide +kernel
  obtain ⟨chunks, compiled, runs⟩ := Option.bind_eq_some_iff.mp runs
  obtain ⟨machine, loaded, runs⟩ := Option.bind_eq_some_iff.mp runs
  rw [toOption_eq_some_iff] at compiled loaded
  split at runs
  · next fault final failed =>
      obtain ⟨staticTop, rfl⟩ := Prod.mk.inj (Option.some_inj.mp runs)
      obtain ⟨table, labels, _, _, layout, -⟩ := compile_eq_ok.mp compiled
      have above := savesAbove_endless compiled loaded staticTop
      have room : machine.memory.staticTop ≤ 64 - Word.size := by
        rw [staticTop]
        decide
      exact ⟨isConfined_endless, framesFit, globalsFit, table, labels, chunks, machine, final,
        layout, compiled, loaded, staticTop, above, failed,
        @overflows_cleanly _ _ _ _ _ _ machine.output isConfined_endless framesFit globalsFit layout
          compiled loaded room above⟩
  · cases runs

/-- If the word for the saved frame pointer lies in the static area, then the frame pointer
replaces what is there before the call is found not to fit. -/
theorem overflow_replaces_text : ∃ chunks machine final,
    compile Demo.wide = .ok chunks ∧ load chunks { memorySize := 64 } = .ok machine ∧
      machine.memory.staticTop = 16 ∧ machine.memory.read? 8 = some (.str "kept") ∧
      interpret 10 mainLabel machine = .error (.fault (.stackOverflow 4 16)) final ∧
      final.memory.read? 8 = some (.int 60) := by
  have runs : (do
      let chunks ← (compile Demo.wide).toOption
      let machine ← (load chunks { memorySize := 64 }).toOption
      match interpret 10 mainLabel machine with
      | .error (.fault fault) final =>
          some (machine.memory.staticTop, machine.memory.read? 8, fault, final.memory.read? 8)
      | _ => none) =
      some (16, some (.str "kept"), .stackOverflow 4 16, some (.int 60)) := by decide +kernel
  obtain ⟨chunks, compiled, runs⟩ := Option.bind_eq_some_iff.mp runs
  obtain ⟨machine, loaded, runs⟩ := Option.bind_eq_some_iff.mp runs
  rw [toOption_eq_some_iff] at compiled loaded
  split at runs
  · next fault final failed =>
      simp only [Option.some_inj, Prod.mk.injEq] at runs
      obtain ⟨staticTop, before, rfl, after⟩ := runs
      exact ⟨chunks, machine, final, compiled, loaded, staticTop, before, failed, after⟩
  · cases runs

end TreeBackend
