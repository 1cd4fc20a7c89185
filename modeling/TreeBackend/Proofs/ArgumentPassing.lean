import TreeBackend.Proofs.OutgoingArguments

/-!
# Where arguments are passed

A caller stores the static link and the arguments of a call one word above the other, and
the function that is called finds its parameters by the sizes of their types.  The two
agree up to the first parameter of type `void`: it takes no word in the frame, but a word
of the caller, so what comes behind it is looked for one word too low.
-/

namespace TreeBackend

open Source (Program Resolution Parameter)
open Machine Lowering
open IR (Chunk)

/-- The number of words that parameters take in a frame: one each, but none for `void`. -/
def Source.Resolution.wordsOf (resolution : Resolution) (parameters : List Parameter) : Nat :=
  parameters.countP fun parameter => resolution.typeOf? parameter.node.id ≠ some .void

/-! ### Parameters -/

section Parameters

variable {resolution : Resolution} {table : FrameTable} {first last : LabelSupply}

/-- Parameters with types take one word each, except for those of type `void`. -/
theorem sum_parameterSize {parameters : List Parameter}
    (typed : ∀ parameter ∈ parameters, (resolution.typeOf? parameter.node.id).isSome) :
    (parameters.map fun parameter => resolution.parameterSize parameter.node.id).sum =
      Word.size * resolution.wordsOf parameters := by
  induction parameters with
  | nil => rfl
  | cons parameter rest ih =>
      obtain ⟨ty, known⟩ := Option.isSome_iff_exists.mp (typed parameter (List.mem_cons_self ..))
      have others := ih fun other member => typed other (List.mem_cons_of_mem _ member)
      rw [List.map_cons, List.sum_cons, others, Resolution.parameterSize, known, Resolution.wordsOf,
        Resolution.wordsOf, List.countP_cons, known]
      cases ty <;> simp [Source.Ty.parameterSize, Word.size] <;> omega

theorem wordsOf_eq_length_iff {parameters : List Parameter} :
    resolution.wordsOf parameters = parameters.length ↔
      ∀ parameter ∈ parameters, resolution.typeOf? parameter.node.id ≠ some .void := by
  simp [Resolution.wordsOf, List.countP_eq_length]

/-- A parameter lies behind the static link and the words of the parameters in front of it. -/
theorem Source.Function.LaidOut.parameter {function : Source.Function}
    (laid : function.LaidOut resolution table first last)
    (typed : ∀ parameter ∈ function.parameters, (resolution.typeOf? parameter.node.id).isSome)
    {index : Nat} {parameter : Parameter} (found : function.parameters[index]? = some parameter) :
    table.storage? parameter.node.id = some (.parameter
      ⟨resolution.parameterSize parameter.node.id,
        Word.size * (1 + resolution.wordsOf (function.parameters.take index)), function.depth⟩) := by
  rw [laid.parameters.offset_of_getElem? found, sum_parameterSize fun earlier member =>
    typed earlier (List.mem_of_mem_take member), Int.mul_add, Int.mul_one]

end Parameters

/-! ### Arguments -/

/-- Values that are stored upwards from an address stand there by their positions. -/
theorem read?_of_storeInts {machine final : Machine} {address : Int} {values : List Int}
    (stored : storeInts address values machine = .ok () final) :
    final.stackPointer = machine.stackPointer ∧
      (∀ other < address, final.memory.read? other = machine.memory.read? other) ∧
      ∀ (index : Nat) (value : Int), values[index]? = some value →
        final.memory.read? (address + Word.size * index) = some (.int value) := by
  induction values generalizing machine address with
  | nil =>
      obtain ⟨-, rfl⟩ := Outcome.pure_eq_ok.mp stored
      exact ⟨rfl, fun _ _ => rfl, fun _ _ found => by simp at found⟩
  | cons first rest ih =>
      obtain ⟨⟨⟩, middle, firstStored, restStored⟩ := Outcome.bind_eq_ok.mp stored
      obtain ⟨valid, rfl⟩ := storeInt_eq_ok.mp firstStored
      obtain ⟨pointer, below, above⟩ := ih restStored
      refine ⟨pointer, fun other under => ?_, fun index value found => ?_⟩
      · rw [below other (by unfold Word.size; omega), Machine.read?_writeWord _ _ _ valid,
          if_neg under.ne']
      · cases index with
        | zero =>
            obtain rfl : first = value := by simpa using found
            rw [below _ (by unfold Word.size; omega), Machine.read?_writeWord _ _ _ valid,
              if_pos (by simp)]
        | succ index =>
            rw [← above index value (by simpa using found)]
            congr 1
            unfold Word.size
            omega

/-- In a program that can be laid out, a parameter lies behind the static link and the words
of the parameters in front of it; those of type `void` have none.  So the parameter with an
index lies in the word with the next index exactly if none in front of it is of type `void`.
A call passes the static link and then its arguments.  In every run, the argument with an
index is stored in the area of its caller, in the word with the next index above the frame
pointer of the function that is called. -/
theorem parameters_meet_arguments {program : Program} {table : FrameTable}
    {first last : LabelSupply} (distinct : program.definitionIds.Nodup)
    (layout : Layout.ofProgram program first = .ok (table, last)) :
    (∀ function ∈ program.functions, ∀ (index : Nat) (parameter : Parameter),
      function.parameters[index]? = some parameter → ∃ slot,
        table.storage? parameter.node.id = some (.parameter slot) ∧ slot.level = function.depth ∧
        slot.offset = Word.size *
          (1 + program.resolution.wordsOf (function.parameters.take index)) ∧
        (slot.offset = Word.size * (index + 1) ↔ ∀ earlier ∈ function.parameters.take index,
          program.resolution.typeOf? earlier.node.id ≠ some .void)) ∧
    (∀ context level node name arguments state code final,
      Lowering.ofExpr context level (.call node name arguments) state = .ok code final →
      ∃ (callee : Callee) (values : List IR.Expr),
        ofArguments context level arguments state = .ok values final ∧
        values.length = arguments.length ∧
        code = .expr (.eseq (savePointer callee.savedPointerOffset)
          (.call callee.label (staticLink level callee.level :: values)))) ∧
    ∀ chunks config machine later entry fuel stack state routine link values passed jumps entered,
      compile program = .ok chunks → load chunks config = .ok machine → machine.Session later →
      Reached later entry fuel stack state (.pass routine state.stackPointer (link :: values)) →
      storeInts state.stackPointer (link :: values) state = .ok () passed →
      enter routine passed = .ok jumps entered →
      ∀ (index : Nat) (value : Int), values[index]? = some value →
        passed.memory.read? (entered.framePointer + Word.size * (index + 1)) =
          some (.int value) ∧
        ∃ caller ∈ stack.head?,
          state.stackPointer ≤ entered.framePointer + Word.size * (index + 1) ∧
          entered.framePointer + Word.size * (index + 1) + Word.size ≤
            state.stackPointer + caller.routine.frame.argumentsSize := by
  obtain ⟨typed, laid⟩ := Layout.ofProgram_succeeds layout
  refine ⟨fun function member index parameter found => ?_, ?_, ?_⟩
  · have inside := (List.getElem?_eq_some_iff.mp found).1
    have length : (function.parameters.take index).length = index :=
      List.length_take_of_le inside.le
    have stored := ((laid distinct).functions.each function member).parameter
      (fun earlier isEarlier => List.all_eq_true.mp typed _ (List.mem_append_right _
        (List.mem_flatMap.mpr ⟨function, member,
          List.mem_append_left _ (List.mem_map_of_mem isEarlier)⟩))) found
    refine ⟨_, stored, rfl, rfl, ?_⟩
    rw [← wordsOf_eq_length_iff, length]
    dsimp only
    unfold Word.size
    omega
  · intro context level node name arguments state code final lowered
    obtain ⟨callee, values, -, argumentsLowered, rfl⟩ := ofExpr_call_eq_ok.mp lowered
    exact ⟨callee, values, argumentsLowered, ofArguments_length argumentsLowered, rfl⟩
  · intro chunks config machine later entry fuel stack state routine link values passed jumps
      entered compiled loaded session reached stored enters index value found
    obtain ⟨pointer, -, stands⟩ := read?_of_storeInts stored
    obtain ⟨-, -, -, rfl⟩ := enter_eq_ok.mp enters
    have same := session.routines_eq loaded
    obtain ⟨-, -, caller, isCaller, -, room⟩ := fits_of_reached
      (fun routine member => hasRoom_of_compile distinct compiled loaded (same ▸ member)) reached
    have inside := (List.getElem?_eq_some_iff.mp found).1
    rw [List.length_cons] at room
    rw [framePointer_withPointers, pointer]
    refine ⟨stands (index + 1) value (by simpa using found), caller, isCaller, ?_, ?_⟩
    · unfold Word.size
      omega
    · unfold Word.size at *
      omega

/-- In the nested program the inner function finds its parameter in the word in which the main
function stores the number. -/
theorem parameters_meet_arguments_nested : Demo.nested.definitionIds.Nodup ∧
    ∃ table last, Layout.ofProgram Demo.nested {} = .ok (table, last) ∧
      (∃ function ∈ Demo.nested.functions, ∃ parameter slot,
        function.parameters[0]? = some parameter ∧
        table.storage? parameter.node.id = some (.parameter slot) ∧ slot.offset = Word.size) ∧
      ∃ chunks machine fuel main state routine passed jumps entered,
        compile Demo.nested = .ok chunks ∧ load chunks { memorySize := 64 } = .ok machine ∧
        Reached machine mainLabel fuel [main] state
          (.pass routine state.stackPointer [60, 3]) ∧
        storeInts state.stackPointer [60, 3] state = .ok () passed ∧
        enter routine passed = .ok jumps entered ∧
        passed.memory.read? (entered.framePointer + Word.size) = some (.int 3) := by
  have distinct : Demo.nested.definitionIds.Nodup := by decide +kernel
  have hasParameter : (Demo.nested.functions.any (·.parameters[0]?.isSome)) = true := by
    decide +kernel
  obtain ⟨chunks, machine, fuel, main, state, passed, routine, jumps, entered, _, _, compiled,
    loaded, reached, stored, -, -, enters, -⟩ := exists_passed_nested
  obtain ⟨table, last, _, _, layout, -⟩ := compile_eq_ok.mp compiled
  obtain ⟨lies, -, meets⟩ := parameters_meet_arguments distinct layout
  refine ⟨distinct, table, last, layout, ?_, chunks, machine, fuel, main, state, routine, passed,
    jumps, entered, compiled, loaded, reached, stored, enters, ?_⟩
  · obtain ⟨function, member, isSome⟩ := List.any_eq_true.mp hasParameter
    obtain ⟨parameter, found⟩ := Option.isSome_iff_exists.mp isSome
    obtain ⟨slot, isStored, -, offset, -⟩ := lies function member 0 parameter found
    exact ⟨function, member, parameter, slot, found, isStored, offset⟩
  · obtain ⟨stands, -⟩ := meets _ _ _ _ _ _ _ _ _ _ _ _ _ _ compiled loaded .start reached stored
      enters 0 3 rfl
    exact stands

namespace Demo

open Source.Assembler

/-- A function with a parameter of type `void` in front of a number:

    fun second(u: void, x: int): int = x
    fun main(): int = second(seed(7), 42)
-/
def ignoring : Program := assemble do
  let u ← declareParameter "u" .void
  let x ← declareParameter "x" .int
  let second ← declareFunction "second" [u, x] .int
  let main ← declareFunction "main" [] .int
  let secondBody ← name x
  let mainBody ← call second [← callBuiltin .seed [← int 7], ← int 42]
  return [defineFunction second secondBody, defineFunction main mainBody]

end Demo

/-- Behind a parameter of type `void`, a parameter lies a word below the argument for it: the
second function finds the result of `seed` instead of the number. -/
theorem parameter_behind_void_misses_argument : Demo.ignoring.definitionIds.Nodup ∧
    (∃ table last, Layout.ofProgram Demo.ignoring {} = .ok (table, last) ∧
      ∃ function ∈ Demo.ignoring.functions, ∃ parameter,
        function.parameters[1]? = some parameter ∧
        table.offset parameter.node.id ≠ Word.size * (1 + 1)) ∧
    ∃ chunks machine last, compile Demo.ignoring = .ok chunks ∧
      load chunks { memorySize := 64 } = .ok machine ∧
      interpret 10 mainLabel machine = .ok 0 last := by
  refine ⟨by decide +kernel, ?_, ?_⟩
  · have lies : (match Layout.ofProgram Demo.ignoring {} with
        | .ok (table, _) => Demo.ignoring.functions.any fun function =>
            function.parameters[1]?.any fun parameter =>
              table.offset parameter.node.id ≠ Word.size * (1 + 1)
        | .error _ => false) = true := by decide +kernel
    split at lies
    · next table last layout =>
        obtain ⟨function, member, hasSecond⟩ := List.any_eq_true.mp lies
        obtain ⟨parameter, found, differs⟩ := (Option.any_eq_true ..).mp hasSecond
        exact ⟨table, last, layout, function, member, parameter, found, of_decide_eq_true differs⟩
    · cases lies
  · have runs : (do
        let chunks ← (compile Demo.ignoring).toOption
        let machine ← (load chunks { memorySize := 64 }).toOption
        let ended ← Outcome.ok? (interpret 10 mainLabel machine)
        some ended.1) = some 0 := by decide +kernel
    obtain ⟨chunks, compiled, runs⟩ := Option.bind_eq_some_iff.mp runs
    obtain ⟨machine, loads, runs⟩ := Option.bind_eq_some_iff.mp runs
    obtain ⟨⟨result, last⟩, interpreted, same⟩ := Option.bind_eq_some_iff.mp runs
    obtain rfl := Option.some_inj.mp same
    simp only [toOption_eq_some_iff, Outcome.ok?_eq_some_iff] at *
    exact ⟨chunks, machine, last, compiled, loads, interpreted⟩

end TreeBackend
