import TreeBackend.Proofs.Correctness.Programs
import TreeBackend.Proofs.LabelHygiene

/-!
# Loaded programs

A machine into which the chunks of a program have been loaded has the code of each function at
its label, the text of each string constant, and zeros in all words that are variables.
-/

namespace TreeBackend

open Source (Program)
open Lowering Machine
open IR (Chunk Stmt)

def Source.Program.KeepsBuiltins (program : Program) : Prop :=
  ∀ function ∈ program.functions, function.around = [] → Builtin.ofName? function.name = none

instance (program : Program) : Decidable program.KeepsBuiltins :=
  inferInstanceAs (Decidable (∀ function ∈ program.functions, _ → _))

section Furnishing

variable {program : Program} {table : FrameTable} {chunks : List Chunk} {config : Config}
  {machine : Machine}

/-- The code of a loaded function can be called. -/
theorem Machine.Loaded.routine?_eq (loaded : Loaded chunks config machine) {frame : Frame}
    {body : Stmt} (member : .code frame body ∈ chunks) :
    machine.routine? frame.label = some (.ofBody frame body) := by
  obtain ⟨⟨_, address, number⟩, isThere, rfl, known, found⟩ := loaded.exists_place member
  refine Machine.routine?_eq known found ?_
  have atNumber := @routine?_of_mem_places _ _ _ #[] (.ofBody frame body) isThere rfl
  rwa [Array.empty_append, ← loaded.routines] at atNumber

theorem noBuiltin_label {labels : LabelSupply} (keeps : program.KeepsBuiltins)
    (laid : program.LaidOut table labels) {function : Source.Function}
    (member : function ∈ program.functions) {frame : Frame}
    (found : table.frame? function.node.id = some frame) : NoBuiltin frame.label := by
  obtain ⟨label, hasLabel, isFrame⟩ := (laid.functions.each function member).frame
  obtain rfl := Option.some_inj.mp (found.symm.trans isFrame)
  intro name same
  have same : label = .named name := same
  by_cases outermost : function.around = []
  · obtain rfl := Label.named.inj (same.symm.trans (hasLabel.eq_named outermost))
    exact keeps function member outermost
  · obtain ⟨number, -, anonymous⟩ := hasLabel.eq_anonymous outermost
    cases same.symm.trans anonymous

/-- A loaded program has its code, its constants and its variables in place. -/
theorem furnished_of_loaded (hosts : Hosts program table machine)
    (compiled : program.CompiledTo table chunks) (keeps : program.KeepsBuiltins)
    (loaded : Loaded chunks config machine) : Furnished program table chunks machine where
  toHosts := hosts
  code function member := by
    obtain ⟨frame, items, isFrame, isThere⟩ := compiled.functions function member
    obtain ⟨other, otherMember, isOther, _, same, compiles⟩ := compiled.stems frame _ isThere
    obtain rfl := IR.Stmt.seq.inj same
    obtain rfl := compiled.apart function member other otherMember frame frame isFrame isOther rfl
    obtain ⟨labels, laid⟩ := compiled.laid
    exact ⟨frame, items, isFrame, compiles,
      compiles.nodup_definedLabels (hosts.scope.assignToReferences member).toCells,
      noBuiltin_label keeps laid member isFrame, loaded.routine?_eq isThere⟩
  text slot text isThere := by
    obtain ⟨noFrame, noStack⟩ :=
      noPointer_of_compiledTo hosts.scope compiled (List.mem_map.mpr ⟨_, isThere, rfl⟩)
    obtain ⟨⟨_, address, _⟩, -, rfl, known, found⟩ := loaded.exists_place isThere
    exact ⟨noFrame, noStack, address, known, found⟩
  zero definition slot stored := by
    obtain ⟨⟨_, address, _⟩, -, rfl, known, found⟩ :=
      loaded.exists_place (compiled.globals definition slot stored)
    exact ⟨address, known, found⟩
  apartGlobals definition slot other otherSlot stored otherStored same := by
    obtain ⟨place, member, isChunk, known, -⟩ :=
      loaded.exists_place (compiled.globals definition slot stored)
    obtain ⟨otherPlace, otherMember, isOther, otherKnown, -⟩ :=
      loaded.exists_place (compiled.globals other otherSlot otherStored)
    have address : place.address = otherPlace.address :=
      Option.some_inj.mp (known.symm.trans (same.trans otherKnown))
    obtain rfl := eq_of_address_eq member otherMember rfl address
    obtain rfl := Chunk.global.inj (isChunk.symm.trans isOther)
    obtain ⟨labels, laid⟩ := compiled.laid
    obtain ⟨owned, isOwned, rfl, named⟩ := exists_global laid stored
    obtain ⟨otherOwned, isOtherOwned, rfl, otherNamed⟩ := exists_global laid otherStored
    have names := (List.nodup_append.mp hosts.scope.names).1
    rw [List.inj_on_of_nodup_map names isOwned isOtherOwned
      (Label.named.inj (named.symm.trans otherNamed))]
  blank := loaded.blank

/-- What is printed does not matter to a loaded program. -/
theorem Furnished.withOutput (furnished : Furnished program table chunks machine)
    (output : Option Sink) : Furnished program table chunks { machine with output } where
  toHosts := furnished.toHosts.withOutput output
  code := furnished.code
  text := furnished.text
  zero := furnished.zero
  apartGlobals := furnished.apartGlobals
  blank := furnished.blank

end Furnishing

end TreeBackend
