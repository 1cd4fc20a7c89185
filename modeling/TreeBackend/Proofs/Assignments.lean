import TreeBackend.Demo
import TreeBackend.Proofs.Calls.Traversal
import TreeBackend.Proofs.LabelHygiene
import TreeBackend.Proofs.Machine.Routine
import TreeBackend.Proofs.Machine.Stores

/-!
# Assignments

An assignment to a variable or an element does what it takes to find the target once, then
what it takes to compute the value once, and stores the value once.  This holds of every run
through the code of the assignment, wherever it stands.  Other targets are lowered twice, and
what is done for them is done before the value and once more behind the store.
-/

namespace TreeBackend

open Source (Program Node AssignToCells)
open Lowering Machine
open Flattening (definedLabels JumpsInside)
open IR (Chunk Stmt)
open Outcome (ok? ok?_eq_some_iff)

/-- A flat body as it is run. -/
def Machine.Code.ofItems (items : List Stmt) : Code :=
  .ofBody items.toArray (Routine.jumpsOf items)

def IR.Stmt.callsBuiltins (statement : Stmt) : Bool :=
  statement.calls.all fun made => match made.1 with
    | .named name => (Builtin.ofName? name).isSome
    | .anonymous _ => false

def IR.Chunk.callsBuiltins : Chunk → Bool
  | .code _ (.seq items) => items.all Stmt.callsBuiltins
  | _ => true

theorem Machine.Code.isSteadyFrom_of_builtins {items : List Stmt}
    (builtins : items.all Stmt.callsBuiltins = true) (point : Point) :
    (Code.ofItems items).IsSteadyFrom point := by
  refine isSteadyFrom_of_givesBack ?_ point
  rintro statement member ⟨label, arguments⟩ isMade fuel
  have isBuiltin := List.all_eq_true.mp (List.all_eq_true.mp builtins statement member) _ isMade
  cases label with
  | named name =>
      obtain ⟨builtin, isNamed⟩ := Option.isSome_iff_exists.mp isBuiltin
      obtain rfl := Builtin.ofName?_eq_some_iff.mp isNamed
      exact givesBack_builtin _ builtin
  | anonymous _ => cases isBuiltin

/-- The code of an assignment stands in a row among the statements of a function.  A run that
goes through it finds the target, then computes the value and then stores it, each once, and the
value of the assignment is what was stored.  A run that comes to an end goes through it. -/
structure AssignsOnce (context : LoweringContext) (level : Nat) (items : List Stmt) (node : Node)
    (target value : Source.Expr) : Prop where
  code : ∃ flat cell source,
    HasCode context level (.binary node .assign target value) flat ∧
    HasCode context level target ⟨cell.before, .mem cell.value⟩ ∧
    HasCode context level value source ∧
    flat.before <:+: items ∧
    ∀ front back, items = front ++ (flat.before ++ back) →
      (∀ temps machine temps' machine',
        (Code.ofItems items).Traverses front.length flat.before temps machine temps' machine' →
        ∃ place stored,
          (Code.ofItems items).Stores front.length cell source temps machine place stored temps'
            machine' ∧
          ∀ fuel, eval ((Code.ofItems items).calls fuel) temps' flat.value machine' =
            .ok stored machine') ∧
      ∀ fuel temps machine final,
        (Code.ofItems items).IsSteadyFrom ⟨front.length, temps, machine⟩ →
        runFrom fuel items.toArray (Routine.jumpsOf items) front.length temps machine =
          .ok () final →
        ∃ less temps' machine',
          (Code.ofItems items).Traverses front.length flat.before temps machine temps' machine' ∧
          runFrom less items.toArray (Routine.jumpsOf items)
            (front.length + flat.before.length) temps' machine' = .ok () final

section Compiled

variable {program : Program} {table : FrameTable} {chunks : List Chunk}
  {function : Source.Function} {items : List Stmt}

theorem Source.Function.CompilesTo.exists_assignment
    (compiles : function.CompilesTo program table chunks items) {node : Node}
    {target value : Source.Expr}
    (member : .binary node .assign target value ∈ function.body.ownParts) :
    ∃ state final code flat supply rest,
      ofExpr ⟨program.resolution, table⟩ function.depth (.binary node .assign target value) state =
        .ok (.expr code) final ∧
      final.temps.issued ≤ supply.issued ∧
      Flattening.ofExpr code supply = .ok (flat, rest) ∧ flat.before <:+: items := by
  obtain ⟨_, body, middle, supply, _, lowered, -, above, flattened⟩ := compiles
  obtain ⟨state, final, effect, result, -, assignment, behind, inBody⟩ :=
    (ofExpr_brings function.body member lowered).eseq
  have inside : .eseq effect result ∈ (functionBody body).pieces :=
    List.mem_append_right _ inBody
  obtain ⟨flat, first, last, later, flattens, isThere⟩ :=
    (Flattening.ofStmt_includes _ flattened _ inside).flattened
  exact ⟨state, final, _, flat, first, last, assignment,
    (behind.temps.trans above).trans later, flattens, isThere⟩

theorem Source.Function.CompilesTo.assignsOnce
    (compiles : function.CompilesTo program table chunks items)
    (cells : AssignToCells function.body.parts) {node : Node} {target value : Source.Expr}
    (member : .binary node .assign target value ∈ function.body.ownParts) :
    AssignsOnce ⟨program.resolution, table⟩ function.depth items node target value := by
  have within := Source.Expr.parts_subset_of_mem_ownParts function.body member
  have isCell : target.isCell = true := cells _ (within (Source.Expr.mem_parts _))
  have valueCells : AssignToCells value.parts := (cells.mono within).within.right
  obtain ⟨state, final, code, flat, supply, rest, lowered, above, flattened, isThere⟩ :=
    compiles.exists_assignment member
  obtain ⟨cell, source, targetCode, valueCode, isStore⟩ :=
    isStore_of_lowered isCell valueCells lowered above flattened
  have assignmentCode : HasCode ⟨program.resolution, table⟩ function.depth
      (.binary node .assign target value) flat :=
    ⟨state, final, code, supply, rest, lowered, flattened⟩
  have placed : (Code.ofItems items).Placed 0 items :=
    Routine.placed_ofBody (compiles.nodup_definedLabels cells)
  refine ⟨flat, cell, source, assignmentCode, targetCode, valueCode, isThere, ?_⟩
  intro front back same
  have here : (Code.ofItems items).Placed front.length flat.before := by
    have whole : (Code.ofItems items).Placed 0 (front ++ (flat.before ++ back)) := same ▸ placed
    simpa using whole.right.left
  constructor
  · intro temps machine temps' machine' traverses
    exact Code.stores_of_isStore isStore targetCode.jumpsInside valueCode.jumpsInside traverses
  · intro fuel temps machine final steady ran
    exact Code.exists_traverses_of_runFrom here assignmentCode.jumpsInside steady ran

theorem Source.Function.CompilesTo.repeats
    (compiles : function.CompilesTo program table chunks items) {node : Node}
    {target value : Source.Expr}
    (member : .binary node .assign target value ∈ function.body.ownParts)
    (noCell : target.isCell = false) :
    ∃ flat, HasCode ⟨program.resolution, table⟩ function.depth (.binary node .assign target value)
        flat ∧
      flat.before <:+: items ∧
      Repeats ⟨program.resolution, table⟩ function.depth target value flat := by
  obtain ⟨state, final, code, flat, supply, rest, lowered, -, flattened, isThere⟩ :=
    compiles.exists_assignment member
  exact ⟨flat, ⟨state, final, code, supply, rest, lowered, flattened⟩, isThere,
    repeats_of_lowered noCell lowered flattened⟩

/-- In every run of a lexically scoped program whose frames fit, a function that comes to an
assignment, and then to its end, finds the target, computes the value and stores it, each once. -/
theorem run_assigns_once {config : Config} {machine : Machine} (inScope : program.IsConfined)
    (framesFit : program.FramesFit) (globalsFit : program.GlobalsFit)
    (compiled : compile program = .ok chunks) (loaded : load chunks config = .ok machine)
    (output : Option Sink)
    (member : function ∈ program.functions) {node : Node} {target value : Source.Expr}
    (isAssignment : .binary node .assign target value ∈ function.body.ownParts) :
    ∃ table labels frame items flat cell source,
      Layout.ofProgram program {} = .ok (table, labels) ∧
      table.frame? function.node.id = some frame ∧ .code frame (.seq items) ∈ chunks ∧
      HasCode ⟨program.resolution, table⟩ function.depth (.binary node .assign target value)
        flat ∧
      HasCode ⟨program.resolution, table⟩ function.depth target ⟨cell.before, .mem cell.value⟩ ∧
      HasCode ⟨program.resolution, table⟩ function.depth value source ∧
      flat.before <:+: items ∧
      ∀ front back, items = front ++ (flat.before ++ back) →
        ∀ fuel base stack current temps final,
          Reached { machine with output } mainLabel fuel
            (⟨.ofBody frame (.seq items), base⟩ :: stack) current
            (.run (Routine.jumpsOf items) front.length temps) →
          runFrom fuel items.toArray (Routine.jumpsOf items) front.length temps current =
            .ok () final →
          ∃ place stored less temps' current',
            (Code.ofItems items).Stores front.length cell source temps current place stored temps'
              current' ∧
            (∀ fuel, eval ((Code.ofItems items).calls fuel) temps' flat.value current' =
              .ok stored current') ∧
            runFrom less items.toArray (Routine.jumpsOf items)
              (front.length + flat.before.length) temps' current' = .ok () final := by
  obtain ⟨table, labels, state, rest, layout, lowered, flattened⟩ := compile_eq_ok.mp compiled
  obtain ⟨frame, items, found, isThere, compiles⟩ :=
    exists_chunk_compilesTo lowered flattened member
  have cells : AssignToCells function.body.parts := (inScope.assignToReferences member).toCells
  obtain ⟨flat, cell, source, code, targetCode, valueCode, inside, through⟩ :=
    (compiles.assignsOnce cells isAssignment).code
  refine ⟨table, labels, frame, items, flat, cell, source, layout, found, isThere, code,
    targetCode, valueCode, inside, ?_⟩
  intro front back same fuel base stack current temps final reached ran
  obtain ⟨stores, finishes⟩ := through front back same
  have steady := isSteadyFrom_of_reached inScope framesFit globalsFit compiled loaded output
    reached
  obtain ⟨less, temps', current', traverses, later⟩ := finishes _ _ _ _ steady ran
  obtain ⟨place, stored, storing, result⟩ := stores _ _ _ _ traverses
  exact ⟨place, stored, less, temps', current', storing, result, later⟩

/-- In a compiled program, the assignments of a function all of which go to variables and
elements find their targets once, compute their values once and store them once.  An assignment
to anything else does what is done for its target twice, the second time behind the store. -/
theorem compile_assigns_once (compiled : compile program = .ok chunks)
    (member : function ∈ program.functions) :
    ∃ table labels frame items, Layout.ofProgram program {} = .ok (table, labels) ∧
      table.frame? function.node.id = some frame ∧ .code frame (.seq items) ∈ chunks ∧
      (Routine.ofBody frame (.seq items)).jumps? = some (Routine.jumpsOf items) ∧
      ∀ node target value, .binary node .assign target value ∈ function.body.ownParts →
        (AssignToCells function.body.parts →
          AssignsOnce ⟨program.resolution, table⟩ function.depth items node target value) ∧
        (target.isCell = false → ∃ flat,
          HasCode ⟨program.resolution, table⟩ function.depth (.binary node .assign target value)
            flat ∧
          flat.before <:+: items ∧
          Repeats ⟨program.resolution, table⟩ function.depth target value flat) := by
  obtain ⟨table, labels, state, rest, layout, lowered, flattened⟩ := compile_eq_ok.mp compiled
  obtain ⟨frame, items, found, isThere, compiles⟩ :=
    exists_chunk_compilesTo lowered flattened member
  have plain : Flattening.ArePlain items := by
    obtain ⟨_, _, _, _, _, -, -, -, flattens⟩ := id compiles
    exact Flattening.ofStmt_arePlain _ flattens
  exact ⟨table, labels, frame, items, layout, found, isThere, Routine.jumps?_ofBody frame plain,
    fun _ _ _ isAssignment => ⟨fun cells => compiles.assignsOnce cells isAssignment,
      compiles.repeats isAssignment⟩⟩

end Compiled

namespace Demo

open Source Source.Assembler

/-- A main function that stores in an element of an array, and prints the index and the value:

    fun main(): int = { cells[print_int(1)] = print_int(2); cells[1] } where { var cells: int[3] }
-/
def printedIndex : Program := assemble do
  let main ← declareFunction "main" [] .int
  let cells ← declareVariable "cells" (.array 3 .int)
  let element ← binary .index (← name cells) (← callBuiltin .printInt [← int 1])
  let store ← binary .assign element (← callBuiltin .printInt [← int 2])
  let result ← binary .index (← name cells) (← int 1)
  let body ← block [store, result]
  return [defineFunction main (← whereIn body [cells.toDef])]

/-- A main function that assigns to a block that prints:

    fun main(): int = { { print_int(1); x } = 5; x } where { var x: int }
-/
def printingTarget : Program := assemble do
  let main ← declareFunction "main" [] .int
  let x ← declareVariable "x" .int
  let target ← block [← callBuiltin .printInt [← int 1], ← name x]
  let store ← binary .assign target (← int 5)
  let body ← block [store, ← name x]
  return [defineFunction main (← whereIn body [x.toDef])]

end Demo

/-- The result of a program that is compiled, loaded into a small memory and run, with what it
prints. -/
def printedRun? (program : Program) : Option (Int × ByteArray) := do
  let chunks ← (compile program).toOption
  let machine ← (load chunks { memorySize := 64 }).toOption
  let (result, final) ← ok? (interpret 20 mainLabel (machine.withOutput ""))
  return (result, final.printed)

theorem exists_of_printedRun? {program : Program} {result : Int} {output : ByteArray}
    (runs : printedRun? program = some (result, output)) : ∃ chunks machine final,
      compile program = .ok chunks ∧ load chunks { memorySize := 64 } = .ok machine ∧
        interpret 20 mainLabel (machine.withOutput "") = .ok result final ∧
        final.printed = output := by
  obtain ⟨chunks, compiled, runs⟩ := Option.bind_eq_some_iff.mp runs
  obtain ⟨machine, loaded, runs⟩ := Option.bind_eq_some_iff.mp runs
  obtain ⟨⟨_, final⟩, ran, runs⟩ := Option.bind_eq_some_iff.mp runs
  obtain ⟨rfl, printed⟩ := Prod.mk.inj (Option.some_inj.mp runs)
  rw [toOption_eq_some_iff] at compiled loaded
  exact ⟨chunks, machine, final, compiled, loaded, ok?_eq_some_iff.mp ran, printed⟩

/-- The first assignment in the first function of a program, unless an assignment in this function
goes to something else than a cell. -/
def firstAssignment? (program : Program) :
    Option (Source.Function × Node × Source.Expr × Source.Expr) := do
  let function ← program.functions.head?
  guard (AssignToCells function.body.parts)
  function.body.ownParts.findSome? fun
    | .binary node .assign target value => some (function, node, target, value)
    | _ => none

theorem mem_of_firstAssignment? {program : Program} {function : Source.Function} {node : Node}
    {target value : Source.Expr}
    (found : firstAssignment? program = some (function, node, target, value)) :
    function ∈ program.functions ∧ AssignToCells function.body.parts ∧
      .binary node .assign target value ∈ function.body.ownParts := by
  obtain ⟨first, isFirst, found⟩ := Option.bind_eq_some_iff.mp found
  obtain ⟨_, cells, found⟩ := Option.bind_eq_some_iff.mp found
  obtain ⟨part, inBody, isPart⟩ := List.exists_of_findSome?_eq_some found
  have cells : AssignToCells first.body.parts := by simpa using cells
  split at isPart
  · obtain ⟨rfl, rfl, rfl, rfl⟩ := by simpa using isPart
    exact ⟨List.mem_of_head? isFirst, cells, inBody⟩
  · cases isPart

/-- An assignment to an element prints the index first and then the value, and stores the value
once.  It calls nothing but builtins, so all its runs are steady. -/
theorem compile_assigns_once_printed_index : ∃ chunks machine final table frame items function node
    target value, compile Demo.printedIndex = .ok chunks ∧
      function ∈ Demo.printedIndex.functions ∧ AssignToCells function.body.parts ∧
      .binary node .assign target value ∈ function.body.ownParts ∧
      .code frame (.seq items) ∈ chunks ∧
      AssignsOnce ⟨Demo.printedIndex.resolution, table⟩ function.depth items node target value ∧
      load chunks { memorySize := 64 } = .ok machine ∧
      interpret 20 mainLabel (machine.withOutput "") = .ok 2 final ∧
      final.printed = "1\n2\n".toUTF8 ∧
      ∀ point, (Code.ofItems items).IsSteadyFrom point := by
  have isThere : (firstAssignment? Demo.printedIndex).isSome = true := by decide +kernel
  have runs : printedRun? Demo.printedIndex = some (2, "1\n2\n".toUTF8) := by decide +kernel
  have quiet : ((compile Demo.printedIndex).toOption.all fun chunks =>
      chunks.all Chunk.callsBuiltins) = true := by decide +kernel
  obtain ⟨⟨function, node, target, value⟩, found⟩ := Option.isSome_iff_exists.mp isThere
  obtain ⟨member, cells, inBody⟩ := mem_of_firstAssignment? found
  obtain ⟨chunks, machine, final, compiled, loaded, ran, printed⟩ := exists_of_printedRun? runs
  obtain ⟨table, _, frame, items, -, -, inChunks, -, all⟩ := compile_assigns_once compiled member
  rw [compiled] at quiet
  have builtins : items.all Stmt.callsBuiltins = true := List.all_eq_true.mp quiet _ inChunks
  exact ⟨chunks, machine, final, table, frame, items, function, node, target, value, compiled,
    member, cells, inBody, inChunks, (all node target value inBody).1 cells, loaded, ran, printed,
    Code.isSteadyFrom_of_builtins builtins⟩

/-- A block that prints is gone through again behind the store, so it prints twice. -/
theorem assignment_to_block_prints_twice : ∃ chunks machine final,
    compile Demo.printingTarget = .ok chunks ∧ load chunks { memorySize := 64 } = .ok machine ∧
      interpret 20 mainLabel (machine.withOutput "") = .ok 5 final ∧
      final.printed = "1\n1\n".toUTF8 :=
  exists_of_printedRun? (by decide +kernel)

end TreeBackend
