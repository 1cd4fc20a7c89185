import Mathlib.Order.Filter.AtTopBot.Basic
import Mathlib.Order.Filter.Finite
import Mathlib.Order.WellFoundedSet
import TreeBackend.Pipeline
import TreeBackend.Proofs.CompiledChunks
import TreeBackend.Proofs.Machine.Ending
import TreeBackend.Proofs.Machine.Failing
import TreeBackend.Proofs.Machine.Fuel
import TreeBackend.Proofs.Machine.Placement
import TreeBackend.Proofs.Machine.Steady
import TreeBackend.Source.Assembly

/-!
# Programs without loops

The code of a program without loops jumps forward only, so an activation runs each statement of
its function at most once.  If moreover no function calls itself, directly or through others,
then there is an amount of fuel with which the program is not broken off, however it is
configured.  Calls are found by labels, so functions have to differ by their labels, and none of
them may have that of a pointer: where such a label leads depends on the pointer.
-/

namespace TreeBackend

open Filter
open IR (Stmt Chunk)
open Machine (Standing Maintained Ends Routine runFrom visits)

/-! ### Code without loops -/

/-- The jumps in the code of a chunk all lead to a higher position, by the table with which the
machine runs the code, and each activation runs statements at higher and higher positions. -/
def IR.Chunk.RunsForward : Chunk → Prop
  | .code frame body => ∃ items jumps, body = .seq items ∧
      (Routine.ofBody frame body).jumps? = some jumps ∧
      (∀ index statement, items[index]? = some statement → ∀ target ∈ statement.exits,
        ∃ place, jumps.get? target = some place ∧ index < place) ∧
      ∀ fuel machine, (visits fuel items.toArray jumps 0 {} machine).Pairwise (· < ·)
  | .data .. | .global _ => True

section Compiled

variable {program : Source.Program} {table : FrameTable} {chunks : List Chunk}
  {function : Source.Function} {items : List Stmt}

theorem Source.Function.CompilesTo.advances
    (compiles : function.CompilesTo program table chunks items)
    (loopFree : ∀ part ∈ function.body.ownParts, part.isLoop = false) :
    Lowering.Advances ⟨program.resolution, table⟩ function.body.ownParts
      (Stmt.eventsOfList items) := by
  obtain ⟨_, value, _, first, _, lowered, -, -, flattened⟩ := compiles
  have advances := Lowering.ofExpr_advances loopFree function.body (List.Subset.refl _) lowered
  exact (Lowering.advances_functionBody advances).congr
    (Flattening.ofStmt_events _ ⟨rfl, fun _ _ => rfl⟩ flattened)

theorem Source.Program.isLoop_ownParts
    (loopFree : ∀ part ∈ program.parts, part.isLoop = false)
    (member : function ∈ program.functions) :
    ∀ part ∈ function.body.ownParts, part.isLoop = false := by
  intro part isOwn
  refine loopFree part (Program.parts_body_subset member ?_)
  exact Expr.parts_subset_of_mem_ownParts function.body isOwn part.mem_parts

theorem Lowering.Advances.jumpsForward {context : LoweringContext} {parts : List Source.Expr}
    (advances : Advances context parts (Stmt.eventsOfList items))
    (plain : Flattening.ArePlain items) : Flattening.JumpsForward items :=
  Flattening.jumpsForward_of_leadsForward plain advances.forward

theorem Flattening.JumpsForward.runsForward (forward : JumpsForward items) (plain : ArePlain items)
    (frame : Frame) : Chunk.RunsForward (.code frame (.seq items)) :=
  ⟨items, _, rfl, Routine.jumps?_ofBody frame plain,
    fun _ _ found _ isExit => Machine.exists_later_target forward found isExit,
    fun fuel machine => (Machine.pairwise_visits forward fuel 0 {} machine).2⟩

end Compiled

/-! ### What was loaded -/

/-- A machine in which chunks have been loaded, and what was loaded still stands.  Its generator
does what is documented. -/
def Machine.HasLoaded (chunks : List Chunk) (machine : Machine) : Prop :=
  ∃ config start, Machine.load chunks config = .ok start ∧ start.random.generator.IsDocumented ∧
    Standing start machine ∧ machine.random.generator = start.random.generator

theorem Machine.HasLoaded.isDocumented {chunks : List Chunk} {machine : Machine}
    (hasLoaded : HasLoaded chunks machine) : machine.random.generator.IsDocumented := by
  obtain ⟨config, start, loaded, documented, standing, same⟩ := hasLoaded
  exact same ▸ documented

theorem Machine.maintained_standing_generator (start : Machine) :
    Maintained
      (fun machine => Standing start machine ∧
        machine.random.generator = start.random.generator)
      fun machine => Standing start machine ∧
        machine.random.generator = start.random.generator :=
  (maintained_standing start).and (maintained_generator start)

theorem Machine.maintained_hasLoaded (chunks : List Chunk) :
    Maintained (HasLoaded chunks) (HasLoaded chunks) where
  weaken := id
  store := by
    rintro machine address value ⟨config, start, loaded, documented, stays⟩ valid
    exact ⟨config, start, loaded, documented,
      (maintained_standing_generator start).store value stays valid⟩
  write := by
    rintro machine piece ⟨config, start, loaded, documented, stays⟩
    exact ⟨config, start, loaded, documented,
      (maintained_standing_generator start).write piece stays⟩
  random := by
    rintro machine memory ⟨config, start, loaded, documented, stays⟩
    exact ⟨config, start, loaded, documented,
      (maintained_standing_generator start).random memory stays⟩
  enter := by
    rintro machine routine jumps final ⟨config, start, loaded, documented, stays⟩ entered
    exact ⟨config, start, loaded, documented,
      (maintained_standing_generator start).enter stays entered⟩
  leave := by
    rintro machine routine final ⟨config, start, loaded, documented, stays⟩ left
    exact ⟨config, start, loaded, documented,
      (maintained_standing_generator start).leave stays left⟩
  leaving := by
    rintro machine ⟨config, start, loaded, documented, stays⟩
    exact ⟨config, start, loaded, documented,
      (maintained_standing_generator start).leaving stays⟩

/-- A label that leads to a function is that of its chunk. -/
theorem Machine.HasLoaded.exists_code {chunks : List Chunk} {machine : Machine}
    (sizes : SizesFit chunks) (hasLoaded : HasLoaded chunks machine) {label : Label}
    {routine : Routine} (noFrame : label ≠ .framePointer) (noStack : label ≠ .stackPointer)
    (found : machine.routine? label = some routine) :
    ∃ frame body, .code frame body ∈ chunks ∧ frame.label = label ∧
      routine = .ofBody frame body := by
  obtain ⟨config, start, loaded, -, standing, -⟩ := hasLoaded
  exact exists_code_of_load sizes loaded noFrame noStack (standing.routine? noFrame noStack found)

/-! ### The call graph -/

def Source.Expr.callee? (resolution : Source.Resolution) : Source.Expr → Option NodeId
  | .call node called _ =>
      if (Builtin.ofName? called).isNone then resolution.definitionOf? node.id else none
  | _ => none

def Source.Program.Calls (program : Source.Program) (caller callee : Source.Function) : Prop :=
  caller ∈ program.functions ∧ callee ∈ program.functions ∧
    ∃ part ∈ caller.body.ownParts, part.callee? program.resolution = some callee.node.id

/-- No function calls itself, directly or through others. -/
def Source.Program.IsAcyclic (program : Source.Program) : Prop :=
  ∀ function, ¬ Relation.TransGen program.Calls function function

/-- What holds of each function if it holds of those that it calls holds of all functions of a
program in which no function calls itself. -/
theorem Source.Program.IsAcyclic.induction {program : Source.Program}
    (acyclic : program.IsAcyclic) {motive : Source.Function → Prop}
    (step : ∀ caller ∈ program.functions,
      (∀ callee, program.Calls caller callee → motive callee) → motive caller)
    {function : Source.Function} (member : function ∈ program.functions) : motive function := by
  have order : IsStrictOrder Source.Function
      fun callee caller => Relation.TransGen program.Calls caller callee :=
    { irrefl := acyclic, trans := fun _ _ _ first second => second.trans first }
  have founded := @Set.Finite.wellFoundedOn _ _ order _ (List.finite_toSet program.functions)
  refine founded.induction member fun caller isThere ih => step caller isThere fun callee calls => ?_
  exact ih callee calls.2.1 (.single calls)

theorem Source.Program.isAcyclic_of_rank {program : Source.Program} (rank : NodeId → Nat)
    (descends : ∀ caller ∈ program.functions, ∀ part ∈ caller.body.ownParts,
      ∀ callee ∈ part.callee? program.resolution, rank callee < rank caller.node.id) :
    program.IsAcyclic := by
  intro function cycle
  have lower (caller callee : Source.Function)
      (calls : Relation.TransGen program.Calls caller callee) :
      rank callee.node.id < rank caller.node.id := by
    induction calls with
    | single calls =>
        obtain ⟨member, -, part, isPart, isCallee⟩ := calls
        exact descends caller member part isPart _ isCallee
    | tail _ calls ih =>
        obtain ⟨member, -, part, isPart, isCallee⟩ := calls
        exact (descends _ member part isPart _ isCallee).trans ih
  exact Nat.lt_irrefl _ (lower function function cycle)

/-! ### Fuel -/

def Source.Program.AvoidsPointers (program : Source.Program) : Prop :=
  ∀ name ∈ program.topFunctionNames,
    Label.named name ≠ .framePointer ∧ Label.named name ≠ .stackPointer

instance (program : Source.Program) : Decidable program.AvoidsPointers :=
  inferInstanceAs (Decidable (∀ name ∈ program.topFunctionNames, _))

section Ending

variable {program : Source.Program} {table : FrameTable} {labels : LabelSupply}
  {chunks : List Chunk} (laid : program.LaidOut table labels)
  (names : program.topFunctionNames.Nodup) (avoids : program.AvoidsPointers)
  (stems : ∀ frame body, .code frame body ∈ chunks → ∃ function ∈ program.functions,
    table.frame? function.node.id = some frame ∧
      ∃ items, body = .seq items ∧ function.CompilesTo program table chunks items)
  (sizes : Machine.SizesFit chunks)

include laid avoids in
theorem label_ne_pointer {function : Source.Function} (member : function ∈ program.functions)
    {frame : Frame} (found : table.frame? function.node.id = some frame) :
    frame.label ≠ .framePointer ∧ frame.label ≠ .stackPointer := by
  obtain ⟨label, labelled, isFrame⟩ := (laid.functions.each function member).frame
  obtain rfl := Option.some_inj.mp (found.symm.trans isFrame)
  change label ≠ .framePointer ∧ label ≠ .stackPointer
  by_cases outermost : function.around = []
  · rw [labelled.eq_named outermost]
    refine avoids function.name (List.mem_map.mpr ⟨function, ?_, rfl⟩)
    exact List.mem_filter.mpr ⟨member, by simp [outermost]⟩
  · obtain ⟨number, -, rfl⟩ := labelled.eq_anonymous outermost
    exact ⟨nofun, nofun⟩

include laid names avoids stems sizes in
theorem exists_callee {caller : Source.Function} (member : caller ∈ program.functions)
    {label : Label} (noBuiltin : Machine.NoBuiltin label)
    (isCallee : Lowering.IsCallee ⟨program.resolution, table⟩ caller.body.ownParts label)
    {machine : Machine} (hasLoaded : machine.HasLoaded chunks) {routine : Routine}
    (found : machine.routine? label = some routine) :
    ∃ callee frame items, program.Calls caller callee ∧ .code frame (.seq items) ∈ chunks ∧
      table.frame? callee.node.id = some frame ∧ Flattening.ArePlain items ∧
      routine = .ofBody frame (.seq items) := by
  obtain ⟨node, name, arguments, isCall, ⟨builtin, -, rfl⟩ | ⟨none, definition, frame, bound,
    isFrame, rfl⟩⟩ := isCallee
  · cases (noBuiltin _ rfl).symm.trans (Builtin.ofName?_eq_some_iff.mpr rfl)
  · have isFunction := (laid.frames definition).mp (by
      change table.frame? definition = some frame at isFrame
      simp [isFrame])
    rw [← program.map_functions] at isFunction
    obtain ⟨callee, calleeMember, rfl⟩ := List.mem_map.mp isFunction
    obtain ⟨noFrame, noStack⟩ := label_ne_pointer laid avoids calleeMember isFrame
    obtain ⟨other, body, isThere, sameLabel, rfl⟩ := hasLoaded.exists_code sizes noFrame noStack
      found
    obtain ⟨function, functionMember, otherFrame, items, rfl, compiles⟩ := stems other body isThere
    obtain rfl := eq_of_frame_label_eq laid names functionMember calleeMember otherFrame isFrame
      sameLabel
    have calls : program.Calls caller function :=
      ⟨member, calleeMember, _, isCall, by simp [Source.Expr.callee?, none, bound]⟩
    exact ⟨function, other, items, calls, isThere, otherFrame, compiles.arePlain, rfl⟩

/-- With some amount of fuel, the code of a function ends wherever the chunks have been loaded. -/
def Source.Function.EndsWithin (table : FrameTable) (chunks : List Chunk) (fuel : Nat)
    (function : Source.Function) : Prop :=
  ∀ frame items, .code frame (.seq items) ∈ chunks → table.frame? function.node.id = some frame →
    Ends (Machine.HasLoaded chunks) (runFrom fuel items.toArray (Routine.jumpsOf items) 0 {})

include laid names avoids stems sizes in
/-- A function without loops ends with as much fuel as those that it calls need, and one more for
each statement and for the end. -/
theorem ends_of_callees {caller : Source.Function} (member : caller ∈ program.functions)
    (loopFree : ∀ part ∈ caller.body.ownParts, part.isLoop = false)
    {enough : Nat}
    (callees : ∀ fuel, enough ≤ fuel → ∀ callee, program.Calls caller callee →
      callee.EndsWithin table chunks fuel)
    {frame : Frame} {items : List Stmt} (isThere : .code frame (.seq items) ∈ chunks)
    (isFrame : table.frame? caller.node.id = some frame) {fuel : Nat}
    (large : enough + items.length < fuel) :
    Ends (Machine.HasLoaded chunks) (runFrom fuel items.toArray (Routine.jumpsOf items) 0 {}) := by
  obtain ⟨function, isFunction, found, _, same, compiles⟩ := stems frame _ isThere
  obtain rfl := Stmt.seq.inj same
  obtain rfl := eq_of_frame_label_eq laid names isFunction member found isFrame rfl
  have advances := compiles.advances loopFree
  have maintained := Machine.maintained_hasLoaded chunks
  refine Machine.runFrom_ends (advances.jumpsForward compiles.arePlain)
    (fun fuel (above : enough ≤ fuel) statement isStatement temps => ?_) items.length (by omega)
    large {}
  refine Machine.execute_ends maintained statement fun label number called values => ?_
  have isCalled : .call label number ∈ Stmt.eventsOfList items :=
    Stmt.mem_eventsOfList.mpr ⟨statement, isStatement, called⟩
  refine Machine.callLabel_ends maintained Machine.HasLoaded.isDocumented
    (fun noBuiltin machine routine jumps hasLoaded isRoutine flat => ?_) values
  obtain ⟨callee, other, others, calls, otherThere, otherFrame, plain, rfl⟩ :=
    exists_callee laid names avoids stems sizes member noBuiltin
      (advances.callees label number isCalled) hasLoaded isRoutine
  rw [Routine.jumps?_ofBody other plain] at flat
  obtain rfl := Option.some_inj.mp flat
  exact callees fuel above callee calls other others otherThere otherFrame

include laid names avoids stems sizes in
theorem eventually_endsWithin (loopFree : ∀ part ∈ program.parts, part.isLoop = false)
    (acyclic : program.IsAcyclic) {function : Source.Function}
    (member : function ∈ program.functions) :
    ∀ᶠ fuel in atTop, function.EndsWithin table chunks fuel := by
  refine acyclic.induction (fun caller isCaller calleesEnd => ?_) member
    (motive := fun function => ∀ᶠ fuel in atTop, function.EndsWithin table chunks fuel)
  have together : ∀ᶠ fuel in atTop, ∀ callee ∈ program.functions, program.Calls caller callee →
      callee.EndsWithin table chunks fuel :=
    (eventually_all_finite (List.finite_toSet program.functions)).mpr fun callee _ =>
      eventually_imp_distrib_left.mpr (calleesEnd callee)
  obtain ⟨enough, together⟩ := eventually_atTop.mp together
  -- The chunks may hold more than one piece of code for the function, each with its own length.
  have each : ∀ chunk ∈ chunks, ∀ᶠ fuel in atTop, ∀ frame items, chunk = .code frame (.seq items) →
      table.frame? caller.node.id = some frame →
      Ends (Machine.HasLoaded chunks)
        (runFrom fuel items.toArray (Routine.jumpsOf items) 0 {}) := by
    intro chunk isThere
    by_cases isCode : ∃ frame items, chunk = .code frame (.seq items)
    · obtain ⟨frame, items, rfl⟩ := isCode
      refine eventually_atTop.mpr
        ⟨enough + items.length + 1, fun fuel large other others same isFrame => ?_⟩
      obtain ⟨rfl, sameBody⟩ := Chunk.code.inj same
      obtain rfl := Stmt.seq.inj sameBody
      exact ends_of_callees laid names avoids stems sizes isCaller
        (Source.Program.isLoop_ownParts loopFree isCaller)
        (fun fuel above callee calls => together fuel above callee calls.2.1 calls) isThere isFrame
        large
    · exact .of_forall fun fuel frame items same => absurd ⟨frame, items, same⟩ isCode
  have everywhere := (eventually_all_finite (List.finite_toSet chunks)).mpr each
  exact everywhere.mono fun fuel ends frame items isThere => ends _ isThere frame items rfl

include laid names avoids stems sizes in
/-- With enough fuel, an acyclic program without loops ends. -/
theorem eventually_interpret_ends (loopFree : ∀ part ∈ program.parts, part.isLoop = false)
    (acyclic : program.IsAcyclic) :
    ∀ᶠ fuel in atTop,
      Ends (Machine.HasLoaded chunks) (Machine.interpret fuel Machine.mainLabel) := by
  have functions : ∀ᶠ fuel in atTop, ∀ function ∈ program.functions,
      function.EndsWithin table chunks fuel :=
    (eventually_all_finite (List.finite_toSet program.functions)).mpr fun _ member =>
      eventually_endsWithin laid names avoids stems sizes loopFree acyclic member
  refine functions.mono fun fuel ends => ?_
  have maintained := Machine.maintained_hasLoaded chunks
  refine (Ends.of_isDefinite .get maintained.get).bind fun {machine _ _} hasLoaded isThere => ?_
  obtain ⟨rfl, -⟩ := Outcome.get_eq_ok.mp isThere
  cases found : machine.routine? Machine.mainLabel with
  | none => exact .raise _
  | some routine =>
      obtain ⟨frame, body, isCode, -, rfl⟩ :=
        hasLoaded.exists_code sizes (by decide) (by decide) found
      obtain ⟨function, member, isFrame, items, rfl, compiles⟩ := stems frame body isCode
      refine (Ends.of_isDefinite .get maintained.get).bind fun _ _ => ?_
      refine (Ends.of_isDefinite (.storeInt _ _) (maintained.storeInt _ _)).bind fun _ _ => ?_
      refine (Machine.invoke_ends maintained fun jumps flat => ?_).bind fun _ _ => ?_
      · rw [Routine.jumps?_ofBody frame compiles.arePlain] at flat
        obtain rfl := Option.some_inj.mp flat
        exact ends function member frame items isCode isFrame
      · exact (Ends.of_isDefinite .get maintained.get).bind fun _ _ =>
          .of_isDefinite (.loadInt _) (maintained.loadInt _)

end Ending

/-- A run of compiled chunks is not broken off if no run of a machine is in which they have been
loaded. -/
theorem runChunks_ne_outOfFuel {chunks : List Chunk} {fuel : Nat}
    (ends : Ends (Machine.HasLoaded chunks) (Machine.interpret fuel Machine.mainLabel))
    {config : Machine.Config} (documented : config.generator.IsDocumented) (sink : Machine.Sink) :
    (runChunks fuel chunks config sink).result ≠ .error (.interrupted .outOfFuel) := by
  unfold runChunks
  cases loaded : Machine.load chunks config with
  | error fault => simp
  | ok start =>
      have hasLoaded : Machine.HasLoaded chunks { start with output := some sink } :=
        ⟨config, start, loaded, (Machine.generator_of_load loaded).symm ▸ documented,
          (Standing.refl start).withEffects start.random (some sink), rfl⟩
      dsimp only
      unfold Machine.runMain
      cases outcome : (Machine.interpret fuel Machine.mainLabel).run
          { start with output := some sink } with
      | ok result final => simp
      | error reason final =>
          dsimp only
          intro same
          obtain rfl := RunError.interrupted.inj (Except.error.inj same)
          exact ends.ends hasLoaded outcome

/-- The code of a program without loops runs forward.  If definitions have different numbers and
outermost functions different names, none of them that of a pointer, if no function calls itself,
directly or through others, and if the ends of the global variables fit into words, then there is an
amount of fuel with which the program is not broken off, however the machine is configured, if only
its generator does what is documented. -/
theorem loopFree_program_ends {program : Source.Program} {chunks : List Chunk}
    (compiled : compile program = .ok chunks)
    (loopFree : ∀ part ∈ program.parts, part.isLoop = false) :
    (∀ chunk ∈ chunks, chunk.RunsForward) ∧
    (program.definitionIds.Nodup → program.topFunctionNames.Nodup → program.AvoidsPointers →
      program.IsAcyclic → program.GlobalsFit →
      ∃ bound, ∀ fuel, bound ≤ fuel → ∀ config sink, config.generator.IsDocumented →
        (run fuel program config sink).result ≠ .error (.interrupted .outOfFuel)) := by
  obtain ⟨table, labels, state, rest, layout, lowered, flattened⟩ := compile_eq_ok.mp compiled
  have stems {frame : Frame} {body : Stmt} (member : .code frame body ∈ chunks) :=
    exists_compilesTo lowered flattened member
  constructor
  · intro chunk member
    cases chunk with
    | data | global => trivial
    | code frame body =>
        obtain ⟨function, isFunction, -, items, rfl, compiles⟩ := stems member
        have advances := compiles.advances (Source.Program.isLoop_ownParts loopFree isFunction)
        exact (advances.jumpsForward compiles.arePlain).runsForward compiles.arePlain frame
  · intro distinct names avoids acyclic globalsFit
    have laid := (Layout.ofProgram_succeeds layout).2 distinct
    obtain ⟨bound, ends⟩ := eventually_atTop.mp (eventually_interpret_ends laid names avoids
      (fun frame body => stems) (sizesFit_of_compile distinct globalsFit compiled) loopFree acyclic)
    refine ⟨bound, fun fuel large config sink documented => ?_⟩
    rw [run, compiled]
    exact runChunks_ne_outOfFuel (ends fuel large) documented sink

namespace Demo

open Source Source.Assembler

/-- A main function that decides twice, once within the argument of a call, by a number that it
has drawn:

    fun main(): int = {
        r = rand_int(0, 2);
        if r < 1 then r = double({ if r < 2 then r = 4 else r = 5; r });
        r
    } where {
        var r: int
        fun double(x: int): int = x * 2
    }
-/
def decisions : Program := assemble do
  let main ← declareFunction "main" [] .int
  let r ← declareVariable "r" .int
  let x ← declareParameter "x" .int
  let double ← declareFunction "double" [x] .int
  let product ← binary (.compute .mul) (← name x) (← int 2)
  let choice ← ifThenElse (← binary (.compute .lt) (← name r) (← int 2))
    (← binary .assign (← name r) (← int 4)) (← binary .assign (← name r) (← int 5))
  let doubled ← call double [← block [choice, ← name r]]
  let decision ← ifThen (← binary (.compute .lt) (← name r) (← int 1))
    (← binary .assign (← name r) doubled)
  let draw ← binary .assign (← name r) (← callBuiltin .randInt [← int 0, ← int 2])
  let body ← block [draw, decision, ← name r]
  return [defineFunction main (← whereIn body [r.toDef, defineFunction double product])]

end Demo

/-- A program of conditionals on a drawn number ends with as much fuel as its chunks need,
whatever the keystream is that its numbers are drawn from. -/
theorem loopFree_program_ends_decisions : ∃ chunks bound, compile Demo.decisions = .ok chunks ∧
    (∀ chunk ∈ chunks, chunk.RunsForward) ∧ ∀ fuel, bound ≤ fuel → ∀ memorySize seed entropy sink,
      (run fuel Demo.decisions ⟨memorySize, seed, .keystream entropy⟩ sink).result ≠
        .error (.interrupted .outOfFuel) := by
  have isThere : (compile Demo.decisions).toOption.isSome = true := by decide +kernel
  obtain ⟨chunks, compiled⟩ := Option.isSome_iff_exists.mp isThere
  rw [toOption_eq_some_iff] at compiled
  obtain ⟨forward, ends⟩ := loopFree_program_ends compiled (by decide +kernel)
  obtain ⟨bound, ends⟩ := ends (by decide +kernel) (by decide +kernel) (by decide +kernel)
    (Source.Program.isAcyclic_of_rank (fun id => 100 - id) (by decide +kernel)) (by decide +kernel)
  exact ⟨chunks, bound, compiled, forward, fun fuel large memorySize seed entropy sink =>
    ends fuel large _ sink (Random.Generator.isDocumented_keystream entropy)⟩

/-! ### Functions that are not where their labels lead -/

namespace Machine

open Outcome

def passRow (fuel : Nat) (statements : Array Stmt) :
    (count position : Nat) → Temps → Machine → Option (Temps × Machine)
  | 0, _, temps, machine => some (temps, machine)
  | count + 1, position, temps, machine => do
      let statement ← statements[position]?
      let (next, later) ← ok? (execute (callWith fuel) temps statement machine)
      guard (next.jump = none)
      passRow fuel statements count (position + 1) next.temps later

theorem runFrom_eq_error_of_passRow {fuel more : Nat} (enough : fuel ≤ more)
    {statements : Array Stmt} {jumps : Table Label Nat} {reason : Interruption}
    {final behind : Machine} {later : Temps} (count : Nat) {position : Nat} {temps : Temps}
    {machine : Machine}
    (passed : passRow fuel statements count position temps machine = some (later, behind))
    (fails : runFrom more statements jumps (position + count) later behind = .error reason final) :
    runFrom (more + count) statements jumps position temps machine = .error reason final := by
  induction count generalizing position temps machine with
  | zero =>
      obtain ⟨rfl, rfl⟩ := Prod.mk.inj (Option.some_inj.mp passed)
      exact fails
  | succ count ih =>
      obtain ⟨statement, found, passed⟩ := Option.bind_eq_some_iff.mp passed
      obtain ⟨⟨next, middle⟩, executed, passed⟩ := Option.bind_eq_some_iff.mp passed
      obtain ⟨⟨⟩, noJump, passed⟩ := Option.bind_eq_some_iff.mp passed
      have noJump : next.jump = none := by simpa using noJump
      have calls : CallsProlong (callWith fuel) (callWith (more + count)) :=
        callLabel_prolongs fun _ _ => runFrom_prolongs (by omega) _ _ _ _
      refine runFrom_eq_error_of_next found
        ((execute_prolongs calls statement).ok (ok?_eq_some_iff.mp executed))
        (.inl ⟨noJump, rfl⟩) ?_
      refine ih passed ?_
      rwa [Nat.add_right_comm]

/-- All of a machine but its functions and what it is given from outside. -/
structure Snapshot where
  words : Array Value
  labels : List (Label × Int)
  staticTop : Int
  random : List Nat
  output : Option (List Nat × List UInt8)
  framePointer : Int
  stackPointer : Int
  deriving DecidableEq

def snapshot (machine : Machine) : Snapshot where
  words := machine.memory.words
  labels := machine.memory.labels.entries
  staticTop := machine.memory.staticTop
  random := machine.random.memory
  output := machine.output.map fun sink => (sink.memory, sink.written.data.toList)
  framePointer := machine.framePointer
  stackPointer := machine.stackPointer

theorem eq_of_snapshot_eq {machine other : Machine} (routines : machine.routines = other.routines)
    (generator : machine.random.generator = other.random.generator)
    (writer : machine.output.map Sink.writer = other.output.map Sink.writer)
    (same : machine.snapshot = other.snapshot) :
    machine = other := by
  obtain ⟨⟨_, ⟨_⟩, _⟩, _, ⟨_, _⟩, output, _, _⟩ := machine
  obtain ⟨⟨_, ⟨_⟩, _⟩, _, ⟨_, _⟩, otherOutput, _, _⟩ := other
  cases output <;> cases otherOutput <;> simp_all [snapshot, Sink.ext_iff, ByteArray.ext_iff]

/-- The reason for which a computation fails. -/
def reason? {α : Type} : EStateM.Result Interruption Machine α → Option Interruption
  | .ok .. => none
  | .error reason _ => some reason

theorem reason?_eq_some_iff {α : Type} {result : EStateM.Result Interruption Machine α}
    {reason : Interruption} :
    reason? result = some reason ↔ ∃ final, result = .error reason final := by
  cases result <;> simp [reason?]

/-- Whether a statement stores where the frame pointer is what a function outside all others
results in that has no parameters. -/
def endsWithCall (label : Label) : Stmt → Bool
  | .move (.mem (.name place)) (.call called [.const 0]) =>
      place = .framePointer && called = label
  | _ => false

theorem endsWithCall_eq_true {label : Label} {statement : Stmt}
    (calls : endsWithCall label statement = true) :
    statement = .move (.mem (.name .framePointer)) (.call label [.const 0]) := by
  unfold endsWithCall at calls
  split at calls
  · simp_all
  · cases calls

/-- The machine at the last statement of a function that was entered with an empty static link and
passes three statements before, if that one calls the function with a label. -/
def atCall? (label : Label) (routine : Routine) (machine : Machine) : Option Machine := do
  let (_, stored) ← ok? (storeInt machine.stackPointer 0 machine)
  let (_, entered) ← ok? (enter routine stored)
  let (_, behind) ← passRow 30 routine.statements 3 0 {} entered
  let statement ← routine.statements[3]?
  guard (endsWithCall label statement ∧ (behind.memory.address? .framePointer).isSome)
  return behind

theorem Maintained.passRow {holds : Machine → Prop} (maintained : Maintained holds holds)
    {machine behind : Machine} {fuel : Nat} {statements : Array Stmt} {temps later : Temps}
    {count position : Nat} (here : holds machine)
    (passed : passRow fuel statements count position temps machine = some (later, behind)) :
    holds behind := by
  induction count generalizing position temps machine with
  | zero =>
      obtain ⟨-, rfl⟩ := Prod.mk.inj (Option.some_inj.mp passed)
      exact here
  | succ count ih =>
      obtain ⟨statement, -, passed⟩ := Option.bind_eq_some_iff.mp passed
      obtain ⟨⟨next, middle⟩, executed, passed⟩ := Option.bind_eq_some_iff.mp passed
      obtain ⟨⟨⟩, -, passed⟩ := Option.bind_eq_some_iff.mp passed
      have executed := ok?_eq_some_iff.mp executed
      exact ih ((maintained.execute (maintained.callWith fuel) statement).ok here executed) passed

section AtCall

variable {label : Label} {routine : Routine} {machine behind : Machine}

theorem Maintained.atCall? {holds : Machine → Prop} (maintained : Maintained holds holds)
    (here : holds machine) (reached : atCall? label routine machine = some behind) :
    holds behind := by
  obtain ⟨⟨_, stored⟩, stores, reached⟩ := Option.bind_eq_some_iff.mp reached
  obtain ⟨⟨_, entered⟩, enters, reached⟩ := Option.bind_eq_some_iff.mp reached
  obtain ⟨⟨_, last⟩, passed, reached⟩ := Option.bind_eq_some_iff.mp reached
  obtain ⟨statement, -, reached⟩ := Option.bind_eq_some_iff.mp reached
  obtain ⟨⟨⟩, -, same⟩ := Option.bind_eq_some_iff.mp reached
  obtain rfl := Option.some_inj.mp same
  have stored := (maintained.storeInt _ _).ok here (ok?_eq_some_iff.mp stores)
  exact maintained.passRow (maintained.enter stored (ok?_eq_some_iff.mp enters)) passed

/-- If that call runs out of fuel, then so does the function. -/
theorem starves_of_atCall? (reached : atCall? label routine machine = some behind) {fuel : Nat}
    (enough : 30 ≤ fuel) {final : Machine}
    (starves : callWith fuel label [0] behind = .error .outOfFuel final) :
    ∃ stored, storeInt machine.stackPointer 0 machine = .ok () stored ∧
      invokeWith (fuel + 4) routine stored = .error .outOfFuel final := by
  obtain ⟨⟨⟨⟩, stored⟩, stores, reached⟩ := Option.bind_eq_some_iff.mp reached
  obtain ⟨⟨jumps, entered⟩, enters, reached⟩ := Option.bind_eq_some_iff.mp reached
  obtain ⟨⟨later, last⟩, passed, reached⟩ := Option.bind_eq_some_iff.mp reached
  obtain ⟨statement, found, reached⟩ := Option.bind_eq_some_iff.mp reached
  obtain ⟨⟨⟩, isCall, same⟩ := Option.bind_eq_some_iff.mp reached
  obtain rfl := Option.some_inj.mp same
  obtain ⟨calls, known⟩ : endsWithCall label statement = true ∧
      (last.memory.address? .framePointer).isSome = true := by simpa using isCall
  obtain rfl := endsWithCall_eq_true calls
  obtain ⟨place, isPlace⟩ := Option.isSome_iff_exists.mp known
  have evaluated : evalAll (callWith fuel) later [.const 0] last = .ok [0] last :=
    evalAll_cons_eq_ok.mpr ⟨0, last, [], eval_const_eq_ok.mpr ⟨rfl, rfl⟩,
      evalAll_nil_eq_ok.mpr ⟨rfl, rfl⟩, rfl⟩
  have evaluates : eval (callWith fuel) later (.call label [.const 0]) last =
      .error .outOfFuel final := by
    rw [eval]
    exact bind_eq_error.mpr (.inr ⟨_, _, evaluated, starves⟩)
  have executes : execute (callWith fuel) later
      (.move (.mem (.name .framePointer)) (.call label [.const 0])) last =
        .error .outOfFuel final := by
    rw [execute, eval_name]
    exact bind_eq_error.mpr (.inr ⟨place, last, labelAddress_eq_ok.mpr ⟨isPlace, rfl⟩,
      bind_eq_error.mpr (.inl evaluates)⟩)
  have body : runFrom (fuel + 4) routine.statements jumps 0 {} entered =
      .error .outOfFuel final :=
    runFrom_eq_error_of_passRow (show 30 ≤ fuel + 1 by omega) 3 passed
      (runFrom_eq_error found executes)
  exact ⟨stored, ok?_eq_some_iff.mp stores, bind_eq_error.mpr (.inr ⟨jumps, entered,
    ok?_eq_some_iff.mp enters, bind_eq_error.mpr (.inl body)⟩)⟩

end AtCall

/-- If such a call finds a function that comes to the same call on the same machine, then it runs
out of fuel, however much there is. -/
theorem starves_of_round {label : Label} (noBuiltin : NoBuiltin label) {routine : Routine}
    {machine behind : Machine} (found : machine.routine? label = some routine)
    (reached : atCall? label routine machine = some behind)
    (same : behind.snapshot = machine.snapshot) {final : Machine}
    (starves : callWith 34 label [0] machine = .error .outOfFuel final) (fuel : Nat) :
    ∃ final, callWith fuel label [0] machine = .error .outOfFuel final := by
  have standing := (maintained_standing machine).atCall? (.refl machine) reached
  have generator := (maintained_generator machine).atCall? rfl reached
  have writer := (maintained_writer machine).atCall? rfl reached
  obtain rfl := eq_of_snapshot_eq standing.routines generator writer same
  induction fuel using Nat.strong_induction_on with
  | _ fuel ih =>
      by_cases little : fuel ≤ 34
      · have prolongs : CallsProlong (callWith fuel) (callWith 34) :=
          callLabel_prolongs fun _ _ => runFrom_prolongs little _ _ _ _
        exact (prolongs _ _).starves starves
      · obtain ⟨rest, rfl⟩ : ∃ rest, fuel = rest + 4 := ⟨fuel - 4, by omega⟩
        obtain ⟨last, starves⟩ := ih rest (by omega)
        obtain ⟨stored, stores, fails⟩ := starves_of_atCall? reached (by omega) starves
        refine ⟨last, callWith_eq_error noBuiltin found ?_⟩
        have storesAll : storeInts behind.stackPointer [0] behind = .ok () stored :=
          bind_eq_ok.mpr ⟨(), stored, stores, pure_eq_ok.mpr ⟨rfl, rfl⟩⟩
        exact bind_eq_error.mpr (.inr ⟨(), stored, storesAll, fails⟩)

end Machine

namespace Demo

open Source Source.Assembler

/-- A program in which a function has the label of the frame pointer.  Another function stores
behind its array and replaces the saved frame pointer of the main function by the address at which
the main function stands, so the call of the first function leads to the main function:

    fun main(): int = { h(); FP() }
    fun h(): int = k()
    fun k(): int = { a[-1] = 252; a[6] = 4; 5 } where { var a: [1]int }
    fun FP(): int = 9
-/
def namedLikePointer : Program := assemble do
  let main ← declareFunction "main" [] .int
  let h ← declareFunction "h" [] .int
  let k ← declareFunction "k" [] .int
  let pointer ← declareFunction "\x7bFP\x7d" [] .int
  let a ← declareVariable "a" (.array 1 .int)
  let mainBody ← block [← call h [], ← call pointer []]
  let hBody ← call k []
  let below ← binary .assign (← binary .index (← name a) (← int (-1))) (← int 252)
  let above ← binary .assign (← binary .index (← name a) (← int 6)) (← int 4)
  let kBody ← block [below, above, ← int 5]
  return [defineFunction main mainBody, defineFunction h hBody,
    defineFunction k (← whereIn kBody [a.toDef]), defineFunction pointer (← int 9)]

/-- A program in which two global variables are so large that the main function behind them is
placed where the first function is.  Another function stores behind its array, so that the main
function comes to the call of the first function, which leads to itself, at the top of the stack:

    fun f(): int = 9
    fun h(): int = k()
    fun k(): int = { a[-1] = 252; a[6] = 252; 5 } where { var a: [1]int }
    var first: [2305843009213693951]int
    var second: [2305843009213693950]int
    fun main(): int = { h(); f() }
-/
def overlaid : Program := assemble do
  let f ← declareFunction "f" [] .int
  let k ← declareFunction "k" [] .int
  let h ← declareFunction "h" [] .int
  let main ← declareFunction "main" [] .int
  let a ← declareVariable "a" (.array 1 .int)
  let first ← declareVariable "first" (.array 2305843009213693951 .int)
  let second ← declareVariable "second" (.array 2305843009213693950 .int)
  let hBody ← call k []
  let below ← binary .assign (← binary .index (← name a) (← int (-1))) (← int 252)
  let above ← binary .assign (← binary .index (← name a) (← int 6)) (← int 252)
  let kBody ← block [below, above, ← int 5]
  let mainBody ← block [← call h [], ← call f []]
  return [defineFunction f (← int 9), defineFunction h hBody,
    defineFunction k (← whereIn kBody [a.toDef]), first.toDef, second.toDef,
    defineFunction main mainBody]

end Demo

/-- Whether a program comes to a call of the function with a label, and that call to the same one
on the same machine. -/
def comesAround? (label : Label) (program : Source.Program) : Option Unit := do
  let chunks ← (compile program).toOption
  let start ← (Machine.load chunks { memorySize := 256 }).toOption
  let start : Machine := { start with output := some {} }
  let main ← start.routine? Machine.mainLabel
  let first ← Machine.atCall? label main start
  let routine ← first.routine? label
  let second ← Machine.atCall? label routine first
  guard (second.snapshot = first.snapshot)
  guard (Machine.reason? (Machine.callWith 34 label [0] first) = some .outOfFuel)

theorem starves_of_comesAround? {label : Label} (noBuiltin : Machine.NoBuiltin label)
    {program : Source.Program} {chunks : List Chunk} (compiled : compile program = .ok chunks)
    (comes : comesAround? label program = some ()) (fuel : Nat) :
    (run fuel program { memorySize := 256 } {}).result = .error (.interrupted .outOfFuel) := by
  obtain ⟨_, compiles, comes⟩ := Option.bind_eq_some_iff.mp comes
  obtain ⟨start, loads, comes⟩ := Option.bind_eq_some_iff.mp comes
  obtain ⟨main, isMain, comes⟩ := Option.bind_eq_some_iff.mp comes
  obtain ⟨first, reached, comes⟩ := Option.bind_eq_some_iff.mp comes
  obtain ⟨routine, found, comes⟩ := Option.bind_eq_some_iff.mp comes
  obtain ⟨second, around, comes⟩ := Option.bind_eq_some_iff.mp comes
  obtain ⟨⟨⟩, same, comes⟩ := Option.bind_eq_some_iff.mp comes
  have same : second.snapshot = first.snapshot := by simpa using same
  have starves := by simpa using comes
  obtain ⟨final, starves⟩ := Machine.reason?_eq_some_iff.mp starves
  rw [toOption_eq_some_iff] at compiles loads
  obtain rfl := Except.ok.inj (compiled.symm.trans compiles)
  -- A larger amount of fuel, with which the call is reached, is not enough either.
  obtain ⟨last, callStarves⟩ :=
    Machine.starves_of_round noBuiltin found around same starves (fuel + 30)
  obtain ⟨stored, stores, fails⟩ :=
    Machine.starves_of_atCall? reached (Nat.le_add_left ..) callStarves
  have later := Machine.interpret_eq_error isMain stores fails
  have prolongs := Machine.interpret_prolongs (show fuel ≤ fuel + 30 + 4 by omega)
  obtain ⟨broken, now⟩ := (prolongs _).starves later
  simp [run, compiled, runChunks, loads, Machine.runMain, EStateM.run, now]

/-- A program without loops, in which definitions have different numbers, outermost functions have
different names and no function calls itself, runs for ever. -/
structure Source.Program.IsEndless (program : Source.Program) : Prop where
  compiles : ∃ chunks, compile program = .ok chunks
  loopFree : ∀ part ∈ program.parts, part.isLoop = false
  distinct : program.definitionIds.Nodup
  names : program.topFunctionNames.Nodup
  acyclic : program.IsAcyclic
  starves : ∀ fuel, (run fuel program { memorySize := 256 } {}).result =
    .error (.interrupted .outOfFuel)

theorem isEndless_of_comesAround? {label : Label} (noBuiltin : Machine.NoBuiltin label)
    {program : Source.Program} (comes : comesAround? label program = some ())
    (loopFree : ∀ part ∈ program.parts, part.isLoop = false)
    (distinct : program.definitionIds.Nodup) (names : program.topFunctionNames.Nodup)
    (acyclic : program.IsAcyclic) : program.IsEndless := by
  obtain ⟨chunks, compiled, -⟩ := Option.bind_eq_some_iff.mp comes
  rw [toOption_eq_some_iff] at compiled
  exact ⟨⟨chunks, compiled⟩, loopFree, distinct, names, acyclic,
    starves_of_comesAround? noBuiltin compiled comes⟩

/-- The main function is called again and again, though there is no loop and no function calls
itself, if a function has the name of a pointer or if functions are placed over one another. -/
theorem loopFree_program_runs_forever : ({} : Machine.Config).generator.IsDocumented ∧
    (Demo.namedLikePointer.IsEndless ∧ Demo.namedLikePointer.GlobalsFit) ∧
    Demo.overlaid.IsEndless ∧ Demo.overlaid.AvoidsPointers := by
  have noBuiltin : ∀ name, Builtin.ofName? name = none → Machine.NoBuiltin (.named name) := by
    rintro name isNone _ ⟨rfl⟩
    exact isNone
  refine ⟨Random.Generator.isDocumented_keystream _, ⟨?_, by decide +kernel⟩, ?_,
    by decide +kernel⟩
  · exact isEndless_of_comesAround? (noBuiltin "\x7bFP\x7d" (by decide)) (by decide +kernel)
      (by decide +kernel) (by decide +kernel) (by decide +kernel)
      (Source.Program.isAcyclic_of_rank (fun id => 3 - id) (by decide +kernel))
  · exact isEndless_of_comesAround? (noBuiltin "f" (by decide)) (by decide +kernel)
      (by decide +kernel) (by decide +kernel) (by decide +kernel)
      (Source.Program.isAcyclic_of_rank id (by decide +kernel))

end TreeBackend
