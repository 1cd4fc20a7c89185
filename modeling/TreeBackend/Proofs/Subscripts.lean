import TreeBackend.Demo
import TreeBackend.Proofs.Calls.Links
import TreeBackend.Proofs.Lowering.Acceptance
import TreeBackend.Proofs.Lowering.Subscripts
import TreeBackend.Proofs.Machine.Passage

/-!
# The elements of arrays

A variable with subscripts behind it stands for an element of the variable.  Its code finds
where the variable begins, through static links if it has to, evaluates the subscripts from
left to right, and goes as many steps as they say.  Subscripts in range stay inside the
variable, and different ones lead to elements that have no byte in common.
-/

namespace TreeBackend

open Source (Program Node NodeId Ty Variable IsSubscripted)
open Lowering Machine
open IR (TempSupply)

/-! ### Where variables begin -/

/-- Where a variable of a type is stored: under its name, or in the frame of a function. -/
inductive Source.Variable.IsStored (program : Program) (owned : Variable) (ty : Ty) :
    Storage → Prop
  | global : owned ∈ program.globals →
      IsStored program owned ty (.global ⟨ty.storageSize, .named owned.name⟩)
  | stack {function : Source.Function} {offset : Int} : function ∈ program.functions →
      owned ∈ function.contents.locals →
      IsStored program owned ty (.localVar ⟨ty.storageSize, offset, function.depth⟩)

/-- Where the storage of a variable begins, for code of a function of some level. -/
def Machine.baseOf? (machine : Machine) (level : Nat) : Storage → Option Int
  | .global slot => machine.memory.address? slot.label
  | .localVar slot | .parameter slot => do
      let frame ← machine.memory.address? .framePointer
      let owner ← machine.memory.follow frame (level - slot.level)
      return owner + slot.offset

section Storage

variable {resolution : Source.Resolution} {table : FrameTable} {level : Nat}

theorem LocalsPlaced.slot {used : Int} {locals : List Variable}
    (placed : LocalsPlaced resolution table level used locals) {owned : Variable}
    (member : owned ∈ locals) :
    ∃ offset, table.storage? owned.node.id =
      some (.localVar ⟨resolution.storageSize owned.node.id, offset, level⟩) := by
  induction locals generalizing used with
  | nil => cases member
  | cons head rest ih =>
      rcases List.mem_cons.mp member with rfl | member
      · exact ⟨_, placed.1⟩
      · exact ih placed.2 member

theorem Source.Program.LaidOut.exists_isStored {program : Program} {labels : LabelSupply}
    (laid : program.LaidOut table labels) {owned : Variable} {ty : Ty}
    (member : owned ∈ program.contents.allVariables)
    (typed : program.resolution.typeOf? owned.node.id = some ty) :
    ∃ storage, table.storage? owned.node.id = some storage ∧ owned.IsStored program ty storage := by
  have size : program.resolution.storageSize owned.node.id = ty.storageSize := by
    rw [Source.Resolution.storageSize, typed]
    rfl
  rcases List.mem_append.mp member with isGlobal | inner
  · have stored := laid.globals owned isGlobal
    rw [size] at stored
    exact ⟨_, stored, .global isGlobal⟩
  · obtain ⟨function, isFunction, isLocal⟩ := List.mem_flatMap.mp inner
    obtain ⟨offset, stored⟩ := (laid.functions.each function isFunction).locals.slot isLocal
    rw [size] at stored
    exact ⟨_, stored, .stack isFunction isLocal⟩

/-- Code that goes outwards begins at the label of the frame pointer. -/
theorem Machine.exists_framePointer_of_eval {call : Label → List Int → Exec Int} {temps : Temps}
    {machine machine' : Machine} {hops : Nat} {value : Int}
    (evaluated : eval call temps (enclosingFrame hops) machine = .ok value machine') :
    ∃ frame, machine.memory.address? .framePointer = some frame := by
  induction hops generalizing value machine' with
  | zero =>
      rw [enclosingFrame, IR.Expr.framePointer, eval_name] at evaluated
      exact ⟨value, (labelAddress_eq_ok.mp evaluated).1⟩
  | succ hops ih =>
      obtain ⟨_, places, -⟩ := eval_mem_eq_ok.mp evaluated
      exact ih places

/-- The address of a variable is where it begins, if it begins at an address. -/
theorem Lowering.Locates.eval_base {context : LoweringContext} {reference : Node}
    {storage : Storage} {base : IR.Expr} (locates : Locates context level reference storage base)
    {call : Label → List Int → Exec Int} {temps : Temps} {machine machine' : Machine}
    {place : Int} (evaluated : eval call temps base machine = .ok place machine') :
    machine' = machine ∧ ∃ start, machine.baseOf? level storage = some start ∧
      (0 ≤ start → start ≤ memoryLimit → place = start) := by
  rcases locates.cases with ⟨slot, rfl, rfl⟩ | ⟨slot, isStack, -, rfl⟩
  · rw [eval_name] at evaluated
    obtain ⟨known, rfl⟩ := labelAddress_eq_ok.mp evaluated
    exact ⟨rfl, place, known, fun _ _ => rfl⟩
  · obtain ⟨owner, between, offset, owners, offsets, added⟩ := eval_binop_eq_ok.mp evaluated
    obtain ⟨rfl, rfl⟩ := eval_const_eq_ok.mp offsets
    obtain ⟨frame, known⟩ := exists_framePointer_of_eval owners
    obtain ⟨rfl, leads⟩ := follow_of_eval known owners
    obtain rfl := Option.some_inj.mp added
    refine ⟨rfl, owner + slot.offset, ?_, fun above below => ?_⟩
    · rcases isStack with rfl | rfl <;> simp [Machine.baseOf?, known, leads]
    · refine Word.wrap_of_fits ⟨?_, ?_⟩
      · omega
      · unfold memoryLimit at below
        omega

end Storage

/-! ### Evaluations of subscripts -/

/-- The code of expressions is evaluated one after the other. -/
inductive Machine.Code.EvaluatesEach (context : LoweringContext) (level : Nat) (code : Code)
    (machine : Machine) : List Source.Expr → List Int → Machine → Prop
  | nil : EvaluatesEach context level code machine [] [] machine
  | snoc {expressions : List Source.Expr} {expression : Source.Expr} {values : List Int}
      {value : Int} {between final : Machine} {flat : Flattened} {position : Nat}
      {temps temps' : Temps} :
      EvaluatesEach context level code machine expressions values between →
      HasCode context level expression flat →
      code.Evaluation position flat temps between value temps' final →
      EvaluatesEach context level code machine (expressions ++ [expression]) (values ++ [value])
        final

/-- A place is that of an element of a table, which lies inside the table and apart from the
elements with other subscripts. -/
structure Source.Ty.IsElement (ty : Ty) (start : Int) (indices : List Int) (place : Int) :
    Prop where
  place_eq : place = start + ty.offset indices
  inside : ty.elementRegion start indices ⊆ Set.Ico start (start + ty.storageSize)
  apart : ∀ others, ty.InRange others → indices.length = others.length → indices ≠ others →
    Disjoint (ty.elementRegion start indices) (ty.elementRegion start others)

section Evaluation

variable {context : LoweringContext} {level : Nat} {reference : Node} {ty left : Ty}
  {expression : Source.Expr} {subscripts : List Source.Expr} {storage : Storage} {base : IR.Expr}
  {statements : Array IR.Stmt} {jumps : Table Label Nat}

theorem Machine.Code.EvaluatesEach.length_eq {code : Code} {machine final : Machine}
    {values : List Int} (each : code.EvaluatesEach context level machine subscripts values final) :
    values.length = subscripts.length := by
  induction each with
  | nil => rfl
  | snoc _ _ _ ih => simp [ih]

/-- A constant has its own value. -/
theorem eq_of_evaluation_literal {code : Code} {node : Node} {number value : Int}
    {flat : Flattened} {position : Nat} {temps temps' : Temps} {machine machine' : Machine}
    (isCode : HasCode context level (.literal node (.int number)) flat)
    (evaluation : code.Evaluation position flat temps machine value temps' machine') :
    value = number := by
  obtain rfl := isCode.eq_const
  obtain ⟨_, _, -, evaluated⟩ := evaluation.result
  exact (eval_const_eq_ok.mp evaluated).1

/-- Constants yield their own values. -/
theorem Machine.Code.EvaluatesEach.eq_numbers {code : Code} {machine final : Machine}
    {values : List Int} {literals : List (Node × Int)}
    (each : code.EvaluatesEach context level machine
      (literals.map fun literal => .literal literal.1 (.int literal.2)) values final) :
    values = literals.map (·.2) := by
  generalize all : (literals.map fun literal => Source.Expr.literal literal.1 (.int literal.2)) =
    expressions at each
  induction each generalizing literals with
  | nil =>
      obtain rfl := List.map_eq_nil_iff.mp all
      rfl
  | snoc each isCode evaluation ih =>
      obtain ⟨front, last, rfl, isFront, isLast⟩ := List.map_eq_append_iff.mp all
      obtain ⟨literal, rfl, rfl⟩ := List.map_eq_singleton_iff.mp isLast
      rw [ih isFront, eq_of_evaluation_literal isCode evaluation, List.map_append,
        List.map_singleton]

/-- A word can hold the size of a table whose elements lie inside a memory. -/
theorem Source.Ty.fits_of_le {start : Int} (isTable : ty.isTable = true) (above : 0 ≤ start)
    (below : start + ty.extent ≤ memoryLimit) : Word.Fits ty.extent := by
  have positive := Ty.extent_pos isTable
  unfold memoryLimit at below
  unfold Word.Fits
  omega

theorem Source.Ty.isElement {indices : List Int} (isTable : ty.isTable = true)
    (fits : Word.Fits ty.extent) (inRange : ty.InRange indices) (start : Int) :
    ty.IsElement start indices (start + ty.offset indices) where
  place_eq := rfl
  inside := Ty.elementRegion_subset isTable fits inRange start
  apart _ otherInRange asMany different :=
    Ty.disjoint_elementRegion isTable fits inRange otherInRange asMany different start

/-- One more step inside a table is an addition without overflow. -/
theorem place_snoc {element : Ty} {length start place index size after : Int} {indices : List Int}
    (isTable : ty.isTable = true)
    (leaves : ty.after? indices.length = some (.array length element))
    (inRange : ty.InRange (indices ++ [index])) (above : 0 ≤ start)
    (below : start + ty.extent ≤ memoryLimit) (isPlace : place = start + ty.offset indices)
    (multiplied : Operator.mul.apply index element.storageSize = some size)
    (added : Operator.add.apply place size = some after) :
    after = start + ty.offset (indices ++ [index]) := by
  have fits := Ty.fits_of_le isTable above below
  rw [← Ty.storageSize_eq fits] at below
  obtain ⟨frontInRange, isIndex, -⟩ := (Ty.inRange_snoc leaves).mp inRange
  obtain ⟨low, -⟩ := Ty.offset_bounds isTable fits frontInRange
  obtain ⟨-, inner, isInner, innerSize, high⟩ := Ty.offset_bounds isTable fits inRange
  obtain rfl : element = inner := by
    rw [List.length_append, List.length_singleton, Ty.after?_succ leaves] at isInner
    exact Option.some_inj.mp isInner
  have step := Int.mul_nonneg isIndex innerSize.le
  rw [Ty.offset_snoc leaves] at high ⊢
  obtain rfl := Option.some_inj.mp multiplied
  obtain rfl := Option.some_inj.mp added
  have fits (value : Int) (low : 0 ≤ value) (high : value ≤ memoryLimit) :
      Word.wrap value = value := by
    refine Word.wrap_of_fits ⟨by omega, ?_⟩
    unfold memoryLimit at high
    omega
  rw [fits (index * element.storageSize) step (by omega), isPlace, fits _ (by omega) (by omega)]
  omega

theorem Machine.Code.Evaluation.of_multiple {code : Code} {position : Nat} {item : Flattened}
    {size value : Int} {temps temps' : Temps} {machine machine' : Machine}
    (evaluation : code.Evaluation position ⟨item.before, .binop .mul item.value (.const size)⟩
      temps machine value temps' machine') :
    ∃ number, code.Evaluation position item temps machine number temps' machine' ∧
      Operator.mul.apply number size = some value := by
  obtain ⟨middle, fuel, passes, evaluated⟩ := evaluation.result
  obtain ⟨number, _, _, isNumber, isSize, applied⟩ := eval_binop_eq_ok.mp evaluated
  obtain ⟨rfl, rfl⟩ := eval_const_eq_ok.mp isSize
  exact ⟨number, ⟨middle, fuel, passes, isNumber⟩, applied⟩

/-- In each evaluation of the address of a subscripted variable, the variable is found first and
then the subscripts are evaluated.  If they are in range, then the address is that of the
element. -/
theorem evaluation_of_subscripted
    (chain : IsSubscripted context.resolution reference ty expression subscripts left)
    (locates : Locates context level reference storage base) (isTable : ty.isTable = true)
    (noPointer : ∀ slot, storage = .global slot →
      slot.label ≠ .framePointer ∧ slot.label ≠ .stackPointer)
    {state final : LoweringState} {address : IR.Expr} {flat : Flattened} {supply rest : TempSupply}
    {position : Nat} {temps temps' : Temps} {machine machine' : Machine} {place : Int}
    (lowered : ofExpr context level expression state = .ok (.expr (.mem address)) final)
    (behind : final.temps.issued ≤ supply.issued)
    (flattened : Flattening.ofExpr address supply = .ok (flat, rest))
    (evaluation : (Code.ofBody statements jumps).Evaluation position flat temps machine place temps'
      machine') :
    ∃ start indices, machine.baseOf? level storage = some start ∧
      (Code.ofBody statements jumps).EvaluatesEach context level machine subscripts indices
        machine' ∧
      (0 ≤ start → start + ty.extent ≤ memoryLimit → ty.InRange indices →
        place = start + ty.offset indices) := by
  induction chain generalizing state final address flat supply rest position temps temps' machine'
    place with
  | name =>
      obtain ⟨same, rfl⟩ := locates.ofExpr_name_eq_ok.mp lowered
      obtain rfl := IR.Expr.mem.inj (Lowered.expr.inj same)
      obtain ⟨isPlain, quiet⟩ := locates.isPlain
      have flattens := Flattening.ofExpr_of_isPlain_of_calls isPlain quiet supply
      obtain ⟨rfl, -⟩ := Prod.mk.inj (Except.ok.inj (flattened.symm.trans flattens))
      obtain ⟨_, fuel, passes, evaluated⟩ := evaluation.result
      obtain ⟨rfl, rfl⟩ := passes.of_nil
      obtain ⟨rfl, start, begins, isStart⟩ := locates.eval_base evaluated
      refine ⟨start, [], begins, .nil, fun above below _ => ?_⟩
      have size := Ty.extent_pos isTable
      rw [isStart above (by omega), Ty.offset_nil, Int.add_zero]
  | @index array subscript subscripts length element node inner typed ih =>
      obtain ⟨value, middle, index, _, _, arrayLowered, subscriptLowered, built, same⟩ :=
        ofExpr_binary_eq_ok.mp lowered
      obtain ⟨arrayAddress, rfl⟩ := ofExpr_isCell inner.isCell arrayLowered
      obtain ⟨_, known, rfl, rfl⟩ := ofBinary_index_eq_ok.mp built
      obtain rfl := Option.some_inj.mp (typed.symm.trans known)
      obtain rfl := IR.Expr.mem.inj (Lowered.expr.inj same)
      obtain ⟨cell, cellRest, item, last, before, placeValue, stepValue, isCell, isItem, paired,
        rfl⟩ := ofExpr_step_eq_ok flattened
      change Flattening.ofExpr arrayAddress supply = .ok (cell, cellRest) at isCell
      have arrayRange := ofExpr_ranges array arrayLowered
      have subscriptRange := ofExpr_ranges subscript subscriptLowered
      rw [toStmt_labels, toStmt_temps] at arrayRange subscriptRange
      have behindCell : supply.issued ≤ cellRest.issued := Flattening.ofExpr_issued_le _ isCell
      have behindItem : cellRest.issued ≤ last.issued := Flattening.ofExpr_issued_le _ isItem
      have arrayCode : HasCode context level array ⟨cell.before, .mem cell.value⟩ :=
        ⟨_, _, _, _, _, arrayLowered, Flattening.ofExpr_mem_eq_ok.mpr ⟨cell, isCell, rfl⟩⟩
      have subscriptCode : HasCode context level subscript item :=
        ⟨_, _, _, _, _, subscriptLowered, isItem⟩
      have apart (label : Label) (inCell : .label label ∈ cell.before) :
          .label label ∉ item.before := by
        intro inItem
        have ofCell := Flattening.mem_labels_of_mem_before isCell inCell
        have ofItem := Flattening.mem_labels_of_mem_before isItem inItem
        exact arrayRange.disjoint subscriptRange ofCell ofItem
      have absent : last.next ∉ index.temps := by
        intro member
        have drawn : last.issued < final.temps.issued := (subscriptRange.temp _ member).2
        omega
      have spared := Flattening.not_mem_before_of_fresh isItem absent (.inr (Nat.le_refl _))
      have lasts (fixed : cell.value.isFixed = true) :
          ∃ label, cell.value = .name label ∧ label ≠ .framePointer ∧ label ≠ .stackPointer := by
        obtain ⟨slot, isGlobal, isLabel⟩ :=
          isFixed_of_subscripted inner locates arrayLowered isCell fixed
        exact ⟨slot.label, isLabel, noPointer slot isGlobal⟩
      obtain ⟨first, second, found, between, here, noted, isFirst, isSecond, added⟩ :=
        Code.Evaluation.of_pair paired arrayCode.jumpsInside subscriptCode.jumpsInside apart spared
          (.inr lasts) evaluation
      obtain ⟨start, indices, begins, each, isPlace⟩ :=
        ih arrayLowered (subscriptRange.precedes.temps.trans behind) isCell isFirst
      obtain ⟨number, isNumber, multiplied⟩ := isSecond.of_multiple
      refine ⟨start, indices ++ [number], begins, each.snoc subscriptCode isNumber,
        fun above below inRange => ?_⟩
      have leaves := each.length_eq ▸ inner.after?
      exact place_snoc isTable leaves inRange above below
        (isPlace above below ((Ty.inRange_snoc leaves).mp inRange).1) multiplied added

end Evaluation

/-- A variable with subscripts that has a table for its type is lowered as soon as its subscripts
are, wherever the variable can be seen, and becomes the word at an address.  In every evaluation
of this address, in any code and any state, the variable is found first, and then the subscripts
are evaluated from left to right, unless the variable is global and named like a pointer.  If all
elements lie inside the memory and the subscripts are in range, then the address is that of the
element, which lies inside the variable, and apart from the elements that as many other subscripts
in range lead to. -/
theorem subscripts_address_elements {program : Program} {table : FrameTable}
    {first last : LabelSupply} {owned : Variable} {ty left : Ty} {reference : Node}
    {expression : Source.Expr} {subscripts : List Source.Expr}
    (distinct : program.definitionIds.Nodup)
    (layout : Layout.ofProgram program first = .ok (table, last))
    (member : owned ∈ program.contents.allVariables)
    (typed : program.resolution.typeOf? owned.node.id = some ty) (isTable : ty.isTable = true)
    (refers : program.resolution.definitionOf? reference.id = some owned.node.id)
    (chain : IsSubscripted program.resolution reference ty expression subscripts left) :
    ∃ storage, table.storage? owned.node.id = some storage ∧ owned.IsStored program ty storage ∧
      ∀ level, program.hasVariable level reference = true →
        ∃ base, cell? level storage = some (.mem base) ∧
        (∀ state final code,
          ofExpr ⟨program.resolution, table⟩ level expression state = .ok code final ↔
            ∃ values,
              ofArguments ⟨program.resolution, table⟩ level subscripts state = .ok values final ∧
              code = .expr (.mem (elementAddress base ty values))) ∧
        ((owned ∈ program.globals →
          Label.named owned.name ≠ .framePointer ∧ Label.named owned.name ≠ .stackPointer) →
        ∀ state final address supply flat rest statements jumps position temps machine place temps'
            machine',
          ofExpr ⟨program.resolution, table⟩ level expression state =
            .ok (.expr (.mem address)) final →
          final.temps.issued ≤ supply.issued →
          Flattening.ofExpr address supply = .ok (flat, rest) →
          (Code.ofBody statements jumps).Evaluation position flat temps machine place temps'
            machine' →
          ∃ start indices, machine.baseOf? level storage = some start ∧
            (Code.ofBody statements jumps).EvaluatesEach ⟨program.resolution, table⟩ level machine
              subscripts indices machine' ∧
            (0 ≤ start → start + ty.extent ≤ machine.memory.size →
              machine.memory.size ≤ memoryLimit → ty.InRange indices →
              ty.IsElement start indices place)) := by
  obtain ⟨-, laid⟩ := Layout.ofProgram_succeeds layout
  obtain ⟨storage, stored, isStored⟩ := (laid distinct).exists_isStored member typed
  refine ⟨storage, stored, isStored, fun level seen => ?_⟩
  obtain ⟨_, _, _, sameRefers, sameStored, isCell⟩ :=
    (hasVariable_iff (laid distinct)).mp seen
  obtain rfl := Option.some_inj.mp (refers.symm.trans sameRefers)
  obtain rfl := Option.some_inj.mp (stored.symm.trans sameStored)
  obtain ⟨base, rfl, -, -⟩ := cell?_quiet isCell
  have locates : Locates ⟨program.resolution, table⟩ level reference storage base :=
    ⟨⟨_, refers, stored⟩, isCell⟩
  refine ⟨base, isCell, fun state final code => ofExpr_subscripted_eq_ok chain locates, ?_⟩
  intro noPointer state final address supply flat rest statements jumps position temps machine
    place temps' machine' lowered behind flattened evaluation
  have notPointer (slot : GlobalSlot) (isGlobal : storage = .global slot) :
      slot.label ≠ .framePointer ∧ slot.label ≠ .stackPointer := by
    cases isStored with
    | global outermost =>
        obtain rfl := Storage.global.inj isGlobal
        exact noPointer outermost
    | stack => cases isGlobal
  obtain ⟨start, indices, begins, each, isPlace⟩ :=
    evaluation_of_subscripted chain locates isTable notPointer lowered behind flattened evaluation
  refine ⟨start, indices, begins, each, fun above inside limited inRange => ?_⟩
  have below := inside.trans limited
  obtain rfl := isPlace above below inRange
  exact Ty.isElement isTable (Ty.fits_of_le isTable above below) inRange start

namespace Demo

open Source Source.Assembler

/-- A nested function that reads an element of an array of the function around it:

    fun main(): int = inner() where {
        var square: int[2][3]
        fun inner(): int = square[1][2]
    }
-/
def square : Program := assemble do
  let main ← declareFunction "main" [] .int
  let square ← declareVariable "square" (.array 2 (.array 3 .int))
  let inner ← declareFunction "inner" [] .int
  let row ← binary .index (← name square) (← int 1)
  let element ← binary .index row (← int 2)
  let body ← whereIn (← call inner []) [square.toDef, defineFunction inner element]
  return [defineFunction main body]

/-- The element, as it stands in the inner function. -/
def element : Source.Expr :=
  .binary ⟨7, {}⟩ .index
    (.binary ⟨5, {}⟩ .index (.name ⟨3, {}⟩ "square") (.literal ⟨4, {}⟩ (.int 1)))
    (.literal ⟨6, {}⟩ (.int 2))

/-- A machine in the inner function, whose frame begins at address 80.  Its static link leads to
the frame of the main function, which begins at address 124. -/
def insideSquare : Machine :=
  let empty : Machine := ⟨.ofSize 128, #[], ({} : Machine.Config).randomSource, none, 124, 124⟩
  (empty.writeWord 80 (.int 124)).withPointers 80 60

end Demo

/-- The inner function reaches the array through its static link, and the element is the last of
six words. -/
theorem subscripts_address_elements_square :
    Demo.square.functions.getLast?.map (·.body) = some Demo.element ∧
    ∃ table last storage, Layout.ofProgram Demo.square {} = .ok (table, last) ∧
      table.storage? 1 = some storage ∧ Demo.insideSquare.baseOf? 2 storage = some 100 ∧
      (Code.ofBody #[] {}).EvaluatesEach ⟨Demo.square.resolution, table⟩ 2 Demo.insideSquare
        [.literal ⟨4, {}⟩ (.int 1), .literal ⟨6, {}⟩ (.int 2)] [1, 2] Demo.insideSquare ∧
      Ty.IsElement (.array 2 (.array 3 .int)) 100 [1, 2] 120 := by
  have distinct : Demo.square.definitionIds.Nodup := by decide +kernel
  have chain : IsSubscripted Demo.square.resolution ⟨3, {}⟩ (.array 2 (.array 3 .int)) Demo.element
      [.literal ⟨4, {}⟩ (.int 1), .literal ⟨6, {}⟩ (.int 2)] .int :=
    .index (.index (.name "square") (by decide +kernel)) (by decide +kernel)
  let address : IR.Expr := .binop .add (.binop .add
      (.binop .add (.mem .framePointer) (.const (-24))) (.binop .mul (.const 1) (.const 12)))
    (.binop .mul (.const 2) (.const 4))
  have found : ((Layout.ofProgram Demo.square {}).toOption.bind (·.1.storage? 1)) =
      some (.localVar ⟨24, -24, 1⟩) := by decide +kernel
  obtain ⟨⟨table, last⟩, layout, found⟩ := Option.bind_eq_some_iff.mp found
  rw [toOption_eq_some_iff] at layout
  have evaluated : eval ((Code.ofBody #[] {}).calls 0) {} address Demo.insideSquare =
      .ok 120 Demo.insideSquare := by rfl
  obtain ⟨storage, stored, -, addresses⟩ :=
    @subscripts_address_elements _ _ _ _ ⟨⟨1, {}⟩, "square"⟩ _ _ _ _ _ distinct layout
      (by decide +kernel) (show _ = some (.array 2 (.array 3 .int)) by decide +kernel) (by decide)
      (by decide +kernel) chain
  obtain rfl := Option.some_inj.mp (stored.symm.trans found)
  obtain ⟨base, same, lowers, evaluates⟩ := addresses 2 (by decide +kernel)
  obtain rfl := IR.Expr.mem.inj (Option.some_inj.mp same)
  have lowered : ofExpr ⟨Demo.square.resolution, table⟩ 2 Demo.element {} =
      .ok (.expr (.mem address)) {} := (lowers _ _ _).mpr ⟨[.const 1, .const 2], rfl, rfl⟩
  obtain ⟨start, indices, begins, each, isElement⟩ :=
    evaluates (by decide +kernel) {} {} address {} ⟨[], address⟩ {} #[] {} 0 {} Demo.insideSquare
      120 {}
      Demo.insideSquare lowered (Nat.le_refl _) rfl ⟨_, 0, .nil 0 {} _, evaluated⟩
  obtain rfl : 100 = start := by
    have isStart : Demo.insideSquare.baseOf? 2 (.localVar ⟨24, -24, 1⟩) = some 100 := by
      decide +kernel
    exact Option.some_inj.mp (isStart.symm.trans begins)
  obtain rfl := @Code.EvaluatesEach.eq_numbers _ _ _ _ _ _ [(⟨4, {}⟩, 1), (⟨6, {}⟩, 2)] each
  refine ⟨?_, table, last, _, layout, found, begins, each, isElement (by decide)
    (by decide +kernel) (by decide +kernel) ⟨by decide, by decide, trivial⟩⟩
  cbv

namespace Demo

open Source Source.Assembler

/-- A global array with the label of the frame pointer:

    var FP: int[2]
    fun main(): int = { FP[0] = 7; 1 }
-/
def namedFrame : Program := assemble do
  let table ← declareVariable "\x7bFP\x7d" (.array 2 .int)
  let main ← declareFunction "main" [] .int
  let element ← binary .index (← name table) (← int 0)
  let body ← block [← binary .assign element (← int 7), ← int 1]
  return [table.toDef, defineFunction main body]

/-- The element to which the main function assigns. -/
def frameElement : Source.Expr :=
  .binary ⟨4, {}⟩ .index (.name ⟨2, {}⟩ "\x7bFP\x7d") (.literal ⟨3, {}⟩ (.int 0))

end Demo

/-- The array is placed at the first address of the static area, but its label stands for the
frame pointer, so its first element is looked for where the frames begin. -/
theorem subscript_of_named_pointer_leaves_variable :
    ∃ chunks start table last address,
      compile Demo.namedFrame = .ok chunks ∧
      Machine.load chunks { memorySize := 64 } = .ok start ∧
      Layout.ofProgram Demo.namedFrame {} = .ok (table, last) ∧
      (⟨⟨0, {}⟩, "\x7bFP\x7d"⟩ : Variable) ∈ Demo.namedFrame.globals ∧
      IsSubscripted Demo.namedFrame.resolution ⟨2, {}⟩ (.array 2 .int) Demo.frameElement
        [.literal ⟨3, {}⟩ (.int 0)] .int ∧
      ofExpr ⟨Demo.namedFrame.resolution, table⟩ 1 Demo.frameElement {} =
        .ok (.expr (.mem address)) {} ∧
      (∃ place ∈ places Word.size 0 chunks, place.chunk.label = .framePointer ∧
        place.address = 4 ∧ place.chunk.size = 8) ∧
      (Ty.array 2 .int).InRange [0] ∧
      eval ((Code.ofBody #[] {}).calls 0) {} address start = .ok 60 start ∧
      (60 : Int) ≠ 4 + (Ty.array 2 .int).offset [0] := by
  let address : IR.Expr :=
    .binop .add (.name .framePointer) (.binop .mul (.const 0) (.const 4))
  have chain : IsSubscripted Demo.namedFrame.resolution ⟨2, {}⟩ (.array 2 .int) Demo.frameElement
      [.literal ⟨3, {}⟩ (.int 0)] .int := .index (.name _) (by decide +kernel)
  have refers : Demo.namedFrame.resolution.definitionOf? 2 = some 0 := by decide +kernel
  have found : ((Layout.ofProgram Demo.namedFrame {}).toOption.bind (·.1.storage? 0)) =
      some (.global ⟨8, .framePointer⟩) := by decide +kernel
  obtain ⟨⟨table, last⟩, layout, found⟩ := Option.bind_eq_some_iff.mp found
  rw [toOption_eq_some_iff] at layout
  have loads : ((compile Demo.namedFrame).toOption.bind fun chunks =>
      ((Machine.load chunks { memorySize := 64 }).toOption.filter fun start =>
        start.memory.address? .framePointer = some 60 ∧
          ∃ place ∈ places Word.size 0 chunks, place.chunk.label = .framePointer ∧
            place.address = 4 ∧ place.chunk.size = 8)).isSome = true := by decide +kernel
  obtain ⟨start, loads⟩ := Option.isSome_iff_exists.mp loads
  obtain ⟨chunks, compiles, loads⟩ := Option.bind_eq_some_iff.mp loads
  obtain ⟨loads, known⟩ := Option.filter_eq_some_iff.mp loads
  obtain ⟨known, placed⟩ := of_decide_eq_true known
  rw [toOption_eq_some_iff] at compiles loads
  have locates : Locates ⟨Demo.namedFrame.resolution, table⟩ 1 ⟨2, {}⟩
      (.global ⟨8, .framePointer⟩) (.name .framePointer) :=
    ⟨⟨0, refers, found⟩, rfl⟩
  have lowered : ofExpr ⟨Demo.namedFrame.resolution, table⟩ 1 Demo.frameElement {} =
      .ok (.expr (.mem address)) {} :=
    (ofExpr_subscripted_eq_ok chain locates).mpr ⟨[.const 0], rfl, rfl⟩
  have pointer : eval ((Code.ofBody #[] {}).calls 0) {} (.name .framePointer) start =
      .ok 60 start := labelAddress_eq_ok.mpr ⟨known, rfl⟩
  have evaluated : eval ((Code.ofBody #[] {}).calls 0) {} address start = .ok 60 start :=
    eval_binop_eq_ok.mpr ⟨60, start, 0, pointer, rfl, rfl⟩
  exact ⟨chunks, start, table, last, address, compiles, loads, layout, by decide +kernel, chain,
    lowered, placed, ⟨by decide, trivial⟩, evaluated, by decide⟩

end TreeBackend
