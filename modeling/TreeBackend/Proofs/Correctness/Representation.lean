import TreeBackend.Proofs.Calls.Running
import TreeBackend.Proofs.Correctness.Cells

/-!
# Machines that hold what an evaluation has come to

While the calls of some activations are open, a machine represents the state of an evaluation
if the cells of these activations and of the global variables have their values in memory, the
frames are in order, and the same has been printed.  Assigning, printing, calling and returning
keep it so.
-/

namespace TreeBackend

open Source
open Machine (Memory Keeps SameLabels Routine)
open IR (Chunk)

/-- Memory has the values of the cells that something was assigned to, the constants of the
program are where they were, and the same has been printed. -/
structure Stores (table : FrameTable) (start : Machine) (live : List LiveCall) (world : World)
    (machine : Machine) : Prop where
  cells : ∀ cell address value, cell.LiesAt table start live address →
    world.cells.get? cell = some value → machine.memory.read? address = some (.int value)
  constants : ∀ address value, start.memory.read? address = some value → value.asInt? = none →
    machine.memory.read? address = some value
  output : machine.output = some { written := world.output.toUTF8 }
  /-- Nothing was assigned to the cells of activations to come. -/
  begun : ∀ cell value, world.cells.get? cell = some value → cell.activation < world.activations
  numbered : ∀ here ∈ live, here.activation < world.activations
  counted : 0 < world.activations

/-- A machine holds what an evaluation has come to, while certain calls are open. -/
structure Represents (table : FrameTable) (start : Machine) (live : List LiveCall) (world : World)
    (machine : Machine) : Prop extends Stores table start live world machine where
  keeps : Keeps start (callsOf live) (keptWordsIn start (callsOf live)) machine

section Machines

variable {program : Program} {table : FrameTable} {chunks : List Chunk}
  {start machine : Machine} {live : List LiveCall} {world : World} {calls : List Call}
  {words : List (Int × Int)} {address value : Int}

/-! ### What machines have in common -/

theorem Machine.Keeps.isAddress (keeps : Keeps start calls words machine)
    (valid : start.memory.isAddress address = true) :
    machine.memory.isAddress address = true := by
  rw [Memory.isAddress_iff] at valid ⊢
  rwa [keeps.steady.size]

/-- A function that could be called at the start can be called. -/
theorem Represents.routine? (represents : Represents table start live world machine)
    {label : Label} {routine : Routine} (noFrame : label ≠ .framePointer)
    (noStack : label ≠ .stackPointer) (found : start.routine? label = some routine) :
    machine.routine? label = some routine := by
  have steady := represents.keeps.steady
  unfold Machine.routine? at found ⊢
  rw [steady.labels label noFrame noStack]
  split at found
  · next number isCode =>
      obtain ⟨place, known, isCode⟩ := Option.bind_eq_some_iff.mp isCode
      rw [known, Option.bind_some, represents.constants place _ isCode rfl, steady.routines]
      exact found
  · cases found

theorem Stores.loadInt (stores : Stores table start live world machine) {cell : Cell}
    (lies : cell.LiesAt table start live address) (assigned : world.cells.get? cell = some value) :
    machine.memory.loadInt address = .ok value :=
  Machine.memory_loadInt_eq_ok.mpr (stores.cells cell address value lies assigned)

/-! ### Storing -/

theorem Source.Cell.LiesAt.start_word (furnished : Furnished program table chunks start)
    (isLive : IsLive program table start live) {cell : Cell}
    (lies : cell.LiesAt table start live address) :
    start.memory.read? address = some (.int 0) := by
  have valid := lies.isAddress furnished.toHosts isLive
  cases lies with
  | global _ stored known =>
      obtain ⟨place, knownPlace, found⟩ := furnished.zero _ _ stored
      rwa [Option.some_inj.mp (known.symm.trans knownPlace)]
  | stack member _ owned same =>
      have above := isLive.staticTop_lt furnished.toHosts member owned
      exact furnished.blank address (by omega) valid

/-- A store to a word where there was a zero at the start leaves the constants. -/
theorem constants_writeWord
    (constants : ∀ address value, start.memory.read? address = some value →
      value.asInt? = none → machine.memory.read? address = some value)
    (valid : machine.memory.isAddress address = true)
    (blank : start.memory.read? address = some (.int 0)) (place : Int) (constant : Machine.Value)
    (found : start.memory.read? place = some constant) (noInt : constant.asInt? = none) :
    (machine.writeWord address (.int value)).memory.read? place = some constant := by
  have differ : address ≠ place := by
    rintro rfl
    rw [← Option.some_inj.mp (blank.symm.trans found)] at noInt
    cases noInt
  rw [Machine.read?_writeWord _ _ _ valid, if_neg differ]
  exact constants place constant found noInt

theorem Stores.writeWord (stores : Stores table start live world machine)
    (valid : machine.memory.isAddress address = true)
    (blank : start.memory.read? address = some (.int 0))
    (free : ∀ (cell : Cell) (place : Int), cell.LiesAt table start live place → place ≠ address)
    (value : Int) :
    Stores table start live world (machine.writeWord address (.int value)) where
  cells cell place assigned lies found := by
    rw [Machine.read?_writeWord _ _ _ valid, if_neg (free cell place lies).symm]
    exact stores.cells cell place assigned lies found
  constants := constants_writeWord stores.constants valid blank
  output := stores.output
  begun := stores.begun
  numbered := stores.numbered
  counted := stores.counted

theorem Represents.assign (furnished : Furnished program table chunks start)
    (isLive : IsLive program table start live)
    (represents : Represents table start live world machine)
    {cell : Cell} (lies : cell.LiesAt table start live address) (value : Int) :
    Represents table start live { world with cells := world.cells.insert cell value }
      (machine.writeWord address (.int value)) := by
  have hosts := furnished.toHosts
  have valid := represents.keeps.isAddress (lies.isAddress hosts isLive)
  refine ⟨⟨?_, constants_writeWord represents.constants valid (lies.start_word furnished isLive),
    represents.output, ?_, represents.numbered, represents.counted⟩,
    represents.keeps.writeWord value valid (lies.ne_of_mem_keptWords hosts isLive)⟩
  · intro other place assigned otherLies found
    rw [Machine.read?_writeWord _ _ _ valid]
    rw [Table.get?_insert] at found
    -- No two cells share a word, so the store changes the one that is assigned and no other.
    by_cases same : cell = other
    · subst same
      rw [if_pos rfl] at found
      rw [if_pos (lies.address_eq isLive otherLies), Option.some_inj.mp found]
    · rw [if_neg same] at found
      have differ : address ≠ place := by
        rintro rfl
        exact same (lies.cell_eq furnished isLive otherLies)
      rw [if_neg differ]
      exact represents.cells other place assigned otherLies found
  · intro other assigned found
    rw [Table.get?_insert] at found
    split at found
    · next same =>
        subst same
        cases lies with
        | global outermost =>
            rw [outermost]
            exact represents.counted
        | stack member activation =>
            rw [activation]
            exact represents.numbered _ member
    · exact represents.begun other assigned found

/-- A store where no cell and no frame needs the word. -/
theorem Represents.scratch (furnished : Furnished program table chunks start)
    (isLive : IsLive program table start live)
    (represents : Represents table start live world machine)
    (scratch : IsScratch start (callsOf live) address) (aligned : address % Word.size = 0)
    (value : Int) :
    machine.memory.isAddress address = true ∧
      Represents table start live world (machine.writeWord address (.int value)) := by
  have hosts := furnished.toHosts
  have startValid := scratch.isAddress hosts aligned
  have valid := represents.keeps.isAddress startValid
  refine ⟨valid, ⟨represents.toStores.writeWord valid (furnished.blank address scratch.1 startValid)
    (fun cell place lies => lies.ne_of_isScratch hosts isLive scratch) value, ?_⟩⟩
  exact represents.keeps.writeWord value valid
    (scratch.ne_of_mem_keptWords isLive.stack.stacked)

theorem Represents.print (represents : Represents table start live world machine) (line : String) :
    Represents table start live { world with output := world.output ++ line ++ "\n" }
      (machine.withOutput (world.output ++ line ++ "\n")) where
  cells := represents.cells
  constants := represents.constants
  output := rfl
  begun := represents.begun
  numbered := represents.numbered
  counted := represents.counted
  keeps := represents.keeps.withEffects machine.random _

end Machines

end TreeBackend
