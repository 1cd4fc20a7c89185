import TreeBackend.Proofs.Calls.Keeping
import TreeBackend.Proofs.CompiledChunks
import TreeBackend.Proofs.Machine.Placement
import TreeBackend.Proofs.Machine.Routine

/-!
# Loaded programs

A machine into which the chunks of a lexically scoped program have been loaded finds the
functions of the program at their labels, and nothing else that can be called.
-/

namespace TreeBackend

open Source (Program)
open Lowering Machine
open IR (Chunk)

section Hosting

variable {program : Program} {table : FrameTable} {chunks : List Chunk} {machine : Machine}
  {config : Config}

/-- The body of a function keeps its discipline. -/
theorem runsAs_of_compilesTo (inScope : program.IsConfined) {labels : LabelSupply}
    (laid : program.LaidOut table labels) {function : Source.Function}
    (member : function ∈ program.functions) {frame : Frame} {items : List IR.Stmt}
    (found : table.frame? function.node.id = some frame)
    (compiles : function.CompilesTo program table chunks items) :
    function.RunsAs program table (.ofBody frame (.seq items)) := by
  have isFlat := Routine.jumps?_ofBody frame compiles.arePlain
  obtain ⟨state, value, middle, first, last, lowered, -, above, flattened⟩ := compiles
  have keeps := ofExpr_keeps laid inScope member function.body (inScope.bodies function member)
    (List.Subset.refl _) lowered
  obtain ⟨before, result, rfl, body⟩ := keepsBody_of_flattened keeps
    (fun _ between => between.2.trans_le above) flattened
  exact ⟨found, by rw [isFlat]; rfl, before, result, rfl, body⟩

theorem noPointer_of_compiledTo (inScope : program.IsConfined)
    (compiled : program.CompiledTo table chunks) {label : Label}
    (member : label ∈ chunks.map Chunk.label) : label ≠ .framePointer ∧ label ≠ .stackPointer := by
  cases label with
  | anonymous number => exact ⟨nofun, nofun⟩
  | named name => exact inScope.noPointer name (compiled.named name member)

/-- A label that leads to a function is that of its chunk. -/
theorem exists_code_of_routine? (loaded : Loaded chunks config machine) {label : Label}
    {routine : Routine} (noFrame : label ≠ .framePointer) (noStack : label ≠ .stackPointer)
    (found : machine.routine? label = some routine) :
    ∃ frame body, .code frame body ∈ chunks ∧ frame.label = label ∧
      routine = .ofBody frame body := by
  unfold Machine.routine? at found
  split at found
  · next number isCode =>
      obtain ⟨address, known, holdsCode⟩ := Option.bind_eq_some_iff.mp isCode
      have labelled : label ∈ chunks.map Chunk.label := by
        by_contra notThere
        rw [loaded.unknown label notThere noFrame noStack] at known
        cases known
      obtain ⟨_, isThere, rfl⟩ := List.mem_map.mp labelled
      obtain ⟨⟨chunk, address, placeNumber⟩, member, rfl, isLabel, isWord⟩ :=
        loaded.exists_place isThere
      obtain rfl := Option.some_inj.mp (known.symm.trans isLabel)
      have word := Option.some_inj.mp (holdsCode.symm.trans isWord)
      cases chunk with
      | code frame body =>
          obtain rfl : number = placeNumber := Value.code.inj word
          have atNumber := @routine?_of_mem_places _ _ _ #[] (.ofBody frame body) member rfl
          rw [Array.empty_append, ← loaded.routines, found] at atNumber
          exact ⟨frame, body, isThere, rfl, Option.some_inj.mp atNumber⟩
      | data slot text => cases word
      | global slot => cases word
  · cases found

theorem hosts_of_loaded (inScope : program.IsConfined) (compiled : program.CompiledTo table chunks)
    (fits : program.FramesFit) (valid : config.validate = .ok ())
    (loaded : Loaded chunks config machine) :
    Hosts program table machine where
  scope := inScope
  laid := compiled.laid
  fits := fits
  size := by
    obtain ⟨positive, -, limited⟩ := config.validate_eq_ok_iff.mp valid
    rw [loaded.size]
    unfold memoryLimit at limited
    unfold Word.Fits
    omega
  staticTop := by
    have above := staticArea_nonneg chunks
    rw [loaded.staticTop]
    unfold Word.size
    omega
  points := by
    rw [loaded.size]
    exact loaded.points
  routine label routine noFrame noStack found := by
    obtain ⟨frame, body, member, rfl, rfl⟩ := exists_code_of_routine? loaded noFrame noStack found
    obtain ⟨function, isFunction, isFrame, items, rfl, compiles⟩ := compiled.stems frame body member
    obtain ⟨labels, laid⟩ := compiled.laid
    exact ⟨rfl, function, isFunction, runsAs_of_compilesTo inScope laid isFunction isFrame compiles⟩
  apart := compiled.apart
  noPointer function member frame found := by
    obtain ⟨other, items, isFrame, isThere⟩ := compiled.functions function member
    obtain rfl := Option.some_inj.mp (found.symm.trans isFrame)
    exact noPointer_of_compiledTo inScope compiled (List.mem_map.mpr ⟨_, isThere, rfl⟩)
  global definition slot found := by
    have isThere := compiled.globals definition slot found
    obtain ⟨noFrame, noStack⟩ :=
      noPointer_of_compiledTo inScope compiled (List.mem_map.mpr ⟨_, isThere, rfl⟩)
    obtain ⟨⟨_, address, _⟩, member, rfl, known, word⟩ := loaded.exists_place isThere
    have bounds := bounds_of_mem_places member rfl
    dsimp only at bounds
    refine ⟨noFrame, noStack, address, ?_, known, 0, word⟩
    rw [loaded.staticTop]
    unfold Word.size at *
    omega

/-- What is printed does not matter to a loaded program. -/
theorem Hosts.withOutput (hosts : Hosts program table machine) (output : Option Sink) :
    Hosts program table { machine with output } where
  scope := hosts.scope
  laid := hosts.laid
  fits := hosts.fits
  size := hosts.size
  staticTop := hosts.staticTop
  points := ⟨hosts.points.framePointer, hosts.points.stackPointer, hosts.points.frameLabel,
    hosts.points.stackLabel⟩
  routine := hosts.routine
  apart := hosts.apart
  noPointer := hosts.noPointer
  global := hosts.global

theorem exists_hosts (inScope : program.IsConfined) (framesFit : program.FramesFit)
    (globalsFit : program.GlobalsFit) (compiles : compile program = .ok chunks)
    (loads : load chunks config = .ok machine) :
    ∃ table labels, Layout.ofProgram program {} = .ok (table, labels) ∧
      Hosts program table machine ∧ machine.memory.size = config.memorySize := by
  obtain ⟨table, labels, layout, compiled⟩ :=
    compiledTo_of_compile inScope.distinct inScope.names compiles
  have noPointer {label : Label} := @noPointer_of_compiledTo _ _ _ inScope compiled label
  have sizes := sizesFit_of_compile inScope.distinct globalsFit compiles
  obtain ⟨valid, loaded⟩ := loaded_of_load sizes loads compiled.distinct
    (fun member => (noPointer member).1 rfl) fun member => (noPointer member).2 rfl
  exact ⟨table, labels, layout,
    hosts_of_loaded inScope compiled framesFit valid loaded, loaded.size⟩

end Hosting

end TreeBackend
