import TreeBackend.Proofs.Assignments
import TreeBackend.Proofs.Counting.Rounds

/-!
# Counting loops

A counting loop computes its first value, its bound and its stride once each, in this order.  If
its body leaves the counter and what leads to the counter alone, then the loop runs the body as
often as there are values of the counter below the bound, and ends with the first value that is
not.  What the body does to anything else, also to variables from which the bound and the stride
were computed, does not matter.
-/

namespace TreeBackend

open Source (Program Node AssignToCells)
open Flattening (CountingLoop)
open Lowering Machine
open IR (Chunk Stmt)

/-- The code of a counting loop stands in a row among the statements of a function.  A run that
enters it does what comes before the rounds once, one thing after the other.  If then the counter
holds the first value, there is no overflow, writing to the counter does not move it, and the body
always comes to its end and leaves the counter alone, then the loop counts. -/
structure CountsUp (context : LoweringContext) (level : Nat) (items : List Stmt)
    (counter low high step body : Source.Expr) : Prop where
  code : ∃ storage loop,
    IsCountingLoop context level storage counter low high step body loop ∧ loop.code <:+: items
  runs : ∀ storage loop front back,
    IsCountingLoop context level storage counter low high step body loop →
    items = front ++ (loop.code ++ back) →
    (∀ temps machine point,
      (Code.ofItems items).StaysWithin front.length (front.length + loop.code.length)
        ⟨front.length, temps, machine⟩ point →
      (Code.ofItems items).IsUnderWay loop level storage front.length temps machine point) ∧
    ∀ temps machine first bound stride temps' machine' head,
      head = front.length + loop.start.length + loop.limit.length + loop.pace.length →
      (Code.ofItems items).SetsUp loop level storage front.length temps machine first bound stride
        temps' machine' →
      machine'.numberOf? level storage = some first → Word.Fits first → 0 < stride →
      bound + stride ≤ 9223372036854775807 → machine'.IsApart level storage →
      (Code.ofItems items).KeepsCounter loop level storage head ⟨head, temps', machine'⟩ →
      Counts items.toArray (Routine.jumpsOf items) loop level storage head first bound stride
        temps' machine'

section Compiled

variable {program : Program} {table : FrameTable} {chunks : List Chunk}
  {function : Source.Function} {items : List Stmt} {node : Node}
  {counter low high step body : Source.Expr}

theorem Source.Function.CompilesTo.exists_countingLoop
    (compiles : function.CompilesTo program table chunks items)
    (member : .forLoop node counter low high step body ∈ function.body.ownParts) :
    ∃ storage loop, IsCountingLoop ⟨program.resolution, table⟩ function.depth storage counter low
        high step body loop ∧
      loop.code <:+: items := by
  obtain ⟨_, value, middle, supply, _, lowered, -, above, flattened⟩ := compiles
  obtain ⟨state, final, code, -, isLoop, behind, isFound⟩ :=
    (ofExpr_brings function.body member lowered).lowered
  obtain ⟨_, _, _, _, _, _, _, _, _, _, _, -, -, -, -, -, -, -, rfl⟩ :=
    ofExpr_forLoop_eq_ok.mp isLoop
  cases isFound rfl with
  | row isStmt => cases isStmt
  | @front effect _ result isPiece stands =>
      have inside : .eseq effect result ∈ (functionBody value).pieces :=
        List.mem_append_right _ isPiece
      obtain ⟨_, first, _, drawn, flattens, isThere⟩ :=
        (Flattening.ofStmt_includes _ flattened _ inside).flattened
      obtain ⟨flat, _, _, effects, -, rfl⟩ := Flattening.ofExpr_eseq_eq_ok.mp flattens
      obtain ⟨part, next, _, later, isPart, isInfix⟩ :=
        Flattening.ofStmt_of_standsIn stands effects
      obtain ⟨storage, loop, isCounting, rfl⟩ := exists_isCountingLoop isLoop
        (((behind.temps.trans above).trans drawn).trans later) isPart
      exact ⟨storage, loop, isCounting,
        isInfix.trans ((List.prefix_append _ _).isInfix.trans isThere)⟩

/-- If all assignments of a function go to cells, then the labels in its loops stand there once. -/
theorem Source.Function.CompilesTo.placed_loop {loop : CountingLoop} {front back : List Stmt}
    (compiles : function.CompilesTo program table chunks items)
    (cells : AssignToCells function.body.parts) (same : items = front ++ (loop.code ++ back)) :
    (Code.ofItems items).Placed front.length loop.code := by
  have placed : (Code.ofItems items).Placed 0 (front ++ (loop.code ++ back)) :=
    same ▸ Routine.placed_ofBody (compiles.nodup_definedLabels cells)
  simpa using placed.right.left

theorem Source.Function.CompilesTo.countsUp
    (compiles : function.CompilesTo program table chunks items)
    (cells : AssignToCells function.body.parts)
    (member : .forLoop node counter low high step body ∈ function.body.ownParts) :
    CountsUp ⟨program.resolution, table⟩ function.depth items counter low high step body := by
  refine ⟨compiles.exists_countingLoop member, ?_⟩
  intro storage loop front back isLoop same
  have here := compiles.placed_loop cells same
  constructor
  · intro temps machine point stays
    exact Code.isUnderWay_of_staysWithin stays isLoop here
  · rintro temps machine first bound stride temps' machine' _ rfl setsUp holds fits positive
      noOverflow apart keeps
    obtain ⟨isBound, isStride⟩ := setsUp.get?_eq isLoop
    exact counts_of_isAtTest isLoop here.right.right.right ⟨holds, isBound, isStride, apart⟩ fits
      positive noOverflow keeps

/-- In a compiled program, the counting loops of a function all of whose assignments go to
variables and elements compute what they need once, and then count. -/
theorem compile_counts_up (compiled : compile program = .ok chunks)
    (member : function ∈ program.functions) (cells : AssignToCells function.body.parts) :
    ∃ table labels frame items, Layout.ofProgram program {} = .ok (table, labels) ∧
      table.frame? function.node.id = some frame ∧ .code frame (.seq items) ∈ chunks ∧
      (Routine.ofBody frame (.seq items)).jumps? = some (Routine.jumpsOf items) ∧
      ∀ node counter low high step body,
        .forLoop node counter low high step body ∈ function.body.ownParts →
        CountsUp ⟨program.resolution, table⟩ function.depth items counter low high step body := by
  obtain ⟨table, labels, frame, items, layout, found, isThere, compiles⟩ :=
    exists_compilesTo_of_compile compiled member
  exact ⟨table, labels, frame, items, layout, found, isThere,
    Routine.jumps?_ofBody frame compiles.arePlain,
    fun _ _ _ _ _ _ isLoop => compiles.countsUp cells isLoop⟩

end Compiled

/-! ### A loop that seeds the random numbers -/

namespace Demo

/-- A loop of three rounds: `for i = 0, 3, 1 do seed(7)`. -/
def seedingLoop : Source.Expr :=
  .forLoop ⟨8, {}⟩ (.name ⟨2, {}⟩ "i") (.literal ⟨3, {}⟩ (.int 0)) (.literal ⟨4, {}⟩ (.int 3))
    (.literal ⟨5, {}⟩ (.int 1)) (.call ⟨7, {}⟩ "seed" [.literal ⟨6, {}⟩ (.int 7)])

/-- A main function that goes through a loop:

    fun main(): int = { for i = 0, 3, 1 do seed(7); i } where { var i: int }
-/
def seedingMain : Source.Function where
  node := ⟨0, {}⟩
  name := "main"
  parameters := []
  body := .whereIn ⟨11, {}⟩ [.var ⟨1, {}⟩ "i"]
    (.block ⟨10, {}⟩ [seedingLoop, .name ⟨9, {}⟩ "i"])
  around := []

def seeding : Program where
  definitions := [.function seedingMain.node seedingMain.name [] seedingMain.body]
  resolution := ((({} : Source.Resolution).setType 1 .int).bind 2 1).bind 9 1

theorem seedingLoop_mem : seedingLoop ∈ seedingMain.body.ownParts := by
  simp [seedingMain, Source.Expr.ownParts, Source.Expr.ownPartsOfList, seedingLoop]

end Demo

/-- What remains of a call of the builtin that seeds the random numbers. -/
theorem Lowering.HasEffect.eq_seed {context : LoweringContext} {node argument : Node} {seed : Int}
    {flat : List Stmt}
    (effect : HasEffect context 1 (.call node "seed" [.literal argument (.int seed)]) flat) :
    flat = [.exp (.call (.named "seed") [.const 0, .const seed])] := by
  obtain ⟨_, _, _, _, _, lowered, flattened⟩ := effect.compiled
  obtain ⟨callee, values, found, arguments, rfl⟩ := ofExpr_call_eq_ok.mp lowered
  obtain ⟨_, _, _, isSeed, nothing, rfl⟩ := ofArguments_cons_eq_ok.mp arguments
  obtain ⟨rfl, -⟩ := ofArguments_nil_eq_ok.mp nothing
  obtain rfl := Lowered.expr.inj (ofExpr_int_eq_ok.mp isSeed).1
  obtain ⟨rfl, -⟩ := Outcome.pure_eq_ok.mp found
  cases flattened
  rfl

/-- Seeding the random numbers leaves memory alone. -/
theorem Machine.Code.exists_passes_seed {items : List Stmt} {position : Nat} {seed : Int}
    (placed : (Code.ofItems items).Placed position
      [.exp (.call (.named "seed") [.const 0, .const seed])]) (temps : Temps) (machine : Machine) :
    ∃ machine', (Code.ofItems items).Passes position
        [.exp (.call (.named "seed") [.const 0, .const seed])] temps machine temps machine' ∧
      machine'.memory = machine.memory := by
  have executed : execute ((Code.ofItems items).calls 0) temps
      (.exp (.call (.named "seed") [.const 0, .const seed])) machine =
        .ok ⟨none, temps⟩ { machine with random := machine.random.reseed (UInt64.ofInt seed) } := rfl
  exact ⟨_, ⟨placed.stands, .single ⟨Nat.le_refl _, Nat.lt_succ_self _,
    .next placed.head executed⟩⟩, rfl⟩

/-- The storage of a variable when a program is laid out. -/
def storageOf? (program : Program) (reference : Source.NodeId) : Option Storage := do
  let (table, _) ← (Layout.ofProgram program {}).toOption
  table.storage? (← program.resolution.definitionOf? reference)

def loaded? (program : Program) : Option Machine := do
  let chunks ← (compile program).toOption
  (load chunks { memorySize := 64 }).toOption

theorem storageOf?_of_locates {program : Program} {table : FrameTable} {labels : LabelSupply}
    (layout : Layout.ofProgram program {} = .ok (table, labels)) {level : Nat} {reference : Node}
    {storage : Storage} {base : IR.Expr}
    (locates : Locates ⟨program.resolution, table⟩ level reference storage base) :
    storageOf? program reference.id = some storage := by
  obtain ⟨definition, refers, stored⟩ := locates.bound
  refine Option.bind_eq_some_iff.mpr ⟨_, toOption_eq_some_iff.mpr layout, ?_⟩
  exact Option.bind_eq_some_iff.mpr ⟨definition, refers, stored⟩

theorem exists_of_loaded? {program : Program} {machine : Machine}
    (found : loaded? program = some machine) : ∃ chunks,
      compile program = .ok chunks ∧ load chunks { memorySize := 64 } = .ok machine := by
  obtain ⟨chunks, compiled, loaded⟩ := Option.bind_eq_some_iff.mp found
  rw [toOption_eq_some_iff] at compiled loaded
  exact ⟨chunks, compiled, loaded⟩

/-- The loop that seeds the random numbers goes through its body with the counter at 0, 1 and 2,
and ends with the counter at 3. -/
theorem compile_counts_up_seeding : ∃ chunks table frame items storage loop front back machine
    temps' machine' head, compile Demo.seeding = .ok chunks ∧
      Demo.seedingMain ∈ Demo.seeding.functions ∧ AssignToCells Demo.seedingMain.body.parts ∧
      .code frame (.seq items) ∈ chunks ∧
      IsCountingLoop ⟨Demo.seeding.resolution, table⟩ 1 storage (.name ⟨2, {}⟩ "i")
        (.literal ⟨3, {}⟩ (.int 0)) (.literal ⟨4, {}⟩ (.int 3)) (.literal ⟨5, {}⟩ (.int 1))
        (.call ⟨7, {}⟩ "seed" [.literal ⟨6, {}⟩ (.int 7)]) loop ∧
      items = front ++ (loop.code ++ back) ∧ load chunks { memorySize := 64 } = .ok machine ∧
      (Code.ofItems items).SetsUp loop 1 storage front.length {} machine 0 3 1 temps' machine' ∧
      machine'.IsApart 1 storage ∧
      (Code.ofItems items).KeepsCounter loop 1 storage head ⟨head, temps', machine'⟩ ∧
      ∃ points final left, (Code.ofItems items).Path head (head + loop.rounds.length)
          ⟨head, temps', machine'⟩ points ⟨head + loop.rounds.length, final, left⟩ ∧
        numbersAt 1 storage (head + 2) points = [some 0, some 1, some 2] ∧
        left.numberOf? 1 storage = some 3 := by
  have ready : (loaded? Demo.seeding).map (fun machine =>
      (machine.cellOf? 1 (.localVar ⟨4, -4, 1⟩), machine.memory.isAddress 56)) =
        some (some 56, true) := by decide +kernel
  have isStored : storageOf? Demo.seeding 2 = some (.localVar ⟨4, -4, 1⟩) := by decide +kernel
  have cells : AssignToCells Demo.seedingMain.body.parts := by decide +kernel
  have member : Demo.seedingMain ∈ Demo.seeding.functions := List.mem_singleton_self _
  obtain ⟨machine, isLoaded, facts⟩ := Option.map_eq_some_iff.mp ready
  obtain ⟨isCell, valid⟩ := Prod.mk.inj facts
  obtain ⟨chunks, compiled, loaded⟩ := exists_of_loaded? isLoaded
  obtain ⟨table, labels, frame, items, layout, -, inChunks, -, all⟩ :=
    compile_counts_up compiled member cells
  obtain ⟨⟨storage, loop, isLoop, front, back, inRow⟩, runs⟩ :=
    all _ _ _ _ _ _ Demo.seedingLoop_mem
  have same : items = front ++ (loop.code ++ back) := by rw [← inRow, List.append_assoc]
  obtain ⟨reference, name, isName, locates⟩ := isLoop.counter
  obtain ⟨rfl, -⟩ := Source.Expr.name.inj isName
  obtain rfl := Option.some_inj.mp ((storageOf?_of_locates layout locates).symm.trans isStored)
  -- The code of the loop follows from what the loop is.
  have body : loop.body = _ := isLoop.body.eq_seed
  have setsUp := Code.SetsUp.of_constants (Code.ofItems items) front.length {}
    isLoop.low.eq_const isLoop.high.eq_const isLoop.step.eq_const isCell valid
  have apart : machine.IsApart 1 (.localVar ⟨4, -4, 1⟩) := isApart_of_near fun slot isSlot => by
    rcases isSlot with isLocal | isParameter
    · obtain rfl := Storage.localVar.inj isLocal
      exact Nat.le_refl _
    · cases isParameter
  have placed : (Code.ofItems items).Placed front.length loop.code := by
    obtain ⟨_, _, -, compiledTo⟩ :=
      compiledTo_of_compile (by decide +kernel) (by decide +kernel) compiled
    obtain ⟨function, isFunction, -, others, isBody, compiles⟩ := compiledTo.stems _ _ inChunks
    obtain rfl := List.mem_singleton.mp isFunction
    obtain rfl := Stmt.seq.inj isBody
    exact compiles.placed_loop cells same
  have keeps (start : Point) : (Code.ofItems items).KeepsCounter loop 1 (.localVar ⟨4, -4, 1⟩)
      (front.length + loop.start.length + loop.limit.length + loop.pace.length) start := by
    intro temps current _
    obtain ⟨left, passes, unchanged⟩ := Code.exists_passes_seed
      (body ▸ placed.right.right.right.tail.tail.tail.left) temps current
    exact ⟨temps, left, body ▸ passes, .of_memory_eq unchanged⟩
  have counts := (runs _ loop front back isLoop same).2 _ _ _ _ _ _ _ _ rfl setsUp
    (apart.numberOf?_writeWord isCell valid 0) (by decide) (by decide) (by decide)
    (apart.writeWord isCell valid _) (keeps _)
  obtain ⟨count, points, final, left, isCount, path, -, numbers, ends, -⟩ := counts.rounds
  obtain rfl : count = 3 := by
    norm_num at isCount
    exact_mod_cast isCount
  exact ⟨chunks, table, frame, items, _, loop, front, back, machine, _, _, _, compiled, member,
    cells, inChunks, isLoop, same, loaded, setsUp, apart.writeWord isCell valid _, keeps _,
    points, final, left, path, numbers, ends⟩

/-! ### A counter among its own links -/

namespace Demo

/-- A loop without a body: `for i = 48, 51, 1 do 0`. -/
def strayLoop : Source.Expr :=
  .forLoop ⟨14, {}⟩ (.name ⟨9, {}⟩ "i") (.literal ⟨10, {}⟩ (.int 48))
    (.literal ⟨11, {}⟩ (.int 51)) (.literal ⟨12, {}⟩ (.int 1)) (.literal ⟨13, {}⟩ (.int 0))

/-- A function that overwrites its own static link and then counts with a variable of the function
around it. -/
def strayInner : Source.Function where
  node := ⟨2, {}⟩
  name := "inner"
  parameters := []
  body := .whereIn ⟨17, {}⟩ [.var ⟨3, {}⟩ "a"]
    (.block ⟨16, {}⟩ [
      .binary ⟨8, {}⟩ .assign
        (.binary ⟨6, {}⟩ .index (.name ⟨4, {}⟩ "a") (.literal ⟨5, {}⟩ (.int 1)))
        (.literal ⟨7, {}⟩ (.int 48)),
      strayLoop, .literal ⟨15, {}⟩ (.int 7)])
  around := [0]

/-- A program that leaves an array at its end:

    fun main(): int = inner() where {
        var i: int
        fun inner(): int = { a[1] = 48; for i = 48, 51, 1 do 0; 7 } where { var a: int[1] }
    }
-/
def stray : Program where
  definitions := [.function ⟨0, {}⟩ "main" [] (.whereIn ⟨19, {}⟩
    [.var ⟨1, {}⟩ "i", .function strayInner.node strayInner.name [] strayInner.body]
    (.call ⟨18, {}⟩ "inner" []))]
  resolution :=
    let declared := (({} : Source.Resolution).setType 1 .int).setType 3 (.array 1 .int)
    let types := (declared.setType 4 (.array 1 .int)).setType 6 .int
    ((types.bind 4 3).bind 9 1).bind 18 2

theorem strayInner_mem : strayInner ∈ stray.functions := .tail _ (.head _)

theorem strayLoop_mem : strayLoop ∈ strayInner.body.ownParts := by
  simp [strayInner, Source.Expr.ownParts, Source.Expr.ownPartsOfList, strayLoop]

end Demo

/-- Nothing remains of a constant whose value is not wanted. -/
theorem Lowering.HasEffect.eq_nil {context : LoweringContext} {level : Nat} {node : Node}
    {number : Int} {flat : List Stmt}
    (effect : HasEffect context level (.literal node (.int number)) flat) : flat = [] := by
  obtain ⟨_, _, _, _, _, lowered, flattened⟩ := effect.compiled
  obtain rfl := (ofExpr_int_eq_ok.mp lowered).1
  cases flattened
  rfl

/-- The machine at the loop: the static link of the inner function has been overwritten, so that
the cell of the counter is the word of this link. -/
def Demo.strayMachine (machine : Machine) : Machine :=
  (machine.withPointers 44 32).writeWord 44 (.int 48)

/-- If the cell of the counter is itself one of the static links that lead there, then advancing
the counter loses it: the program ends with a fault although the body changes nothing. -/
theorem stray_counter_does_not_count : ∃ chunks table frame items storage loop front back initial
    final temps' machine' head, compile Demo.stray = .ok chunks ∧
      Demo.strayInner ∈ Demo.stray.functions ∧
      (∀ function ∈ Demo.stray.functions, AssignToCells function.body.parts) ∧
      Demo.strayLoop ∈ Demo.strayInner.body.ownParts ∧ .code frame (.seq items) ∈ chunks ∧
      IsCountingLoop ⟨Demo.stray.resolution, table⟩ 2 storage (.name ⟨9, {}⟩ "i")
        (.literal ⟨10, {}⟩ (.int 48)) (.literal ⟨11, {}⟩ (.int 51)) (.literal ⟨12, {}⟩ (.int 1))
        (.literal ⟨13, {}⟩ (.int 0)) loop ∧
      items = front ++ (loop.code ++ back) ∧
      head = front.length + loop.start.length + loop.limit.length + loop.pace.length ∧
      load chunks { memorySize := 64 } = .ok initial ∧
      (Code.ofItems items).SetsUp loop 2 storage front.length {} (Demo.strayMachine initial) 48 51 1
        temps' machine' ∧
      machine'.numberOf? 2 storage = some 48 ∧
      (Code.ofItems items).KeepsCounter loop 2 storage head ⟨head, temps', machine'⟩ ∧
      ¬Counts items.toArray (Routine.jumpsOf items) loop 2 storage head 48 51 1 temps' machine' ∧
      interpret 40 mainLabel initial = .error (.fault (.invalidAddress 45)) final := by
  have runs : (do
      let machine ← loaded? Demo.stray
      let stray := Demo.strayMachine machine
      let counter : Storage := .localVar ⟨4, -4, 1⟩
      let started := stray.writeWord 44 (.int 48)
      match interpret 40 mainLabel machine with
      | .error (.fault fault) _ => some ((stray.cellOf? 2 counter, stray.memory.isAddress 44),
          (started.cellOf? 2 counter, started.memory.read? 44),
          (started.writeWord 44 (.int 49)).numberOf? 2 counter, fault)
      | _ => none) =
      some ((some 44, true), (some 44, some (.int 48)), none, .invalidAddress 45) := by
    decide +kernel
  have isStored : storageOf? Demo.stray 9 = some (.localVar ⟨4, -4, 1⟩) := by decide +kernel
  have cells : ∀ function ∈ Demo.stray.functions, AssignToCells function.body.parts := by
    decide +kernel
  obtain ⟨initial, isLoaded, rest⟩ := Option.bind_eq_some_iff.mp runs
  obtain ⟨chunks, compiled, loaded⟩ := exists_of_loaded? isLoaded
  obtain ⟨table, labels, frame, items, layout, -, inChunks, compiles⟩ :=
    exists_compilesTo_of_compile compiled Demo.strayInner_mem
  obtain ⟨storage, loop, isLoop, front, back, inRow⟩ :=
    compiles.exists_countingLoop Demo.strayLoop_mem
  have same : items = front ++ (loop.code ++ back) := by rw [← inRow, List.append_assoc]
  have placed := compiles.placed_loop (cells _ Demo.strayInner_mem) same
  obtain ⟨reference, name, isName, locates⟩ := isLoop.counter
  obtain ⟨rfl, -⟩ := Source.Expr.name.inj isName
  obtain rfl := Option.some_inj.mp ((storageOf?_of_locates layout locates).symm.trans isStored)
  dsimp only at rest
  split at rest
  · next fault final failed =>
      simp only [Option.some_inj, Prod.mk.injEq] at rest
      obtain ⟨⟨isCell, valid⟩, ⟨isCellStill, holds⟩, lost, rfl⟩ := rest
      have isEmpty : loop.body = [] := isLoop.body.eq_nil
      have setsUp := Code.SetsUp.of_constants (Code.ofItems items) front.length {}
        isLoop.low.eq_const isLoop.high.eq_const isLoop.step.eq_const isCell valid
      obtain ⟨bound, stride⟩ := setsUp.get?_eq isLoop
      have keeps (start : Point) : (Code.ofItems items).KeepsCounter loop 2
          (.localVar ⟨4, -4, 1⟩)
          (front.length + loop.start.length + loop.limit.length + loop.pace.length) start :=
        fun temps machine _ => ⟨temps, machine, isEmpty ▸ .nil _ temps machine, .of_memory_eq rfl⟩
      exact ⟨chunks, table, frame, items, _, loop, front, back, initial, final, _, _, _, compiled,
        Demo.strayInner_mem, cells, Demo.strayLoop_mem, inChunks, isLoop, same, rfl, loaded, setsUp,
        numberOf?_eq_some.mpr ⟨44, isCellStill, holds⟩, keeps _,
        not_counts_of_lost isLoop placed.right.right.right isEmpty isCellStill holds bound stride
          (by decide) (by decide) lost, failed⟩
  · cases rest

end TreeBackend
