import TreeBackend.Proofs.Calls.Keeping

/-!
# Calls keep the frames of their callers

Code that keeps the discipline of its function changes no kept word of any frame, whatever
it calls, until it stores its result.  So a call that returns finds the pointer that it has
saved, and leaves the frames of its callers as they were.
-/

namespace TreeBackend

open Source (Program)
open Lowering Machine Outcome
open IR (Expr Stmt Temp)

section Running

variable {program : Program} {table : FrameTable} {start machine final : Machine} {call : Call}
  {older calls : List Call}

/-! ### What calls are given -/

/-- While certain calls are open, a label is called with certain values: a builtin with any,
and a function with the right static link and as many arguments as it has parameters. -/
def IsPassed (program : Program) (table : FrameTable) (calls : List Call) (label : Label)
    (values : List Int) : Prop :=
  (∃ builtin : Builtin, label = .named builtin.name) ∨
  ∃ callee ∈ program.functions, ∃ frame, table.frame? callee.node.id = some frame ∧
    label = frame.label ∧
    (∀ caller ∈ calls.head?, callee.IsVisibleFrom caller.function ∧
      callSize callee.parameters.length ≤ caller.routine.frame.argumentsSize) ∧
    ∃ rest : List Int, values = Call.linkOf callee calls :: rest ∧
      rest.length = callee.parameters.length

def CallsKeep (program : Program) (table : FrameTable) (start : Machine) (calls : List Call)
    (run : Label → List Int → Exec Int) : Prop :=
  ∀ ⦃label : Label⦄ ⦃values : List Int⦄ ⦃machine final : Machine⦄ ⦃result : Int⦄,
    IsPassed program table calls label values → Keeps start calls (keptWordsIn start calls) machine →
      run label values machine = .ok result final →
        Keeps start calls (keptWordsIn start calls) final

/-- The temporaries to which code moves expressions of known values hold these values. -/
def TempsHold (start : Machine) (calls : List Call) (code : List Stmt) (temps : Temps) : Prop :=
  ∀ ⦃temp : Temp⦄ ⦃value result : Int⦄ ⦃expression : Expr⦄, temps.get? temp = some value →
    .move (.temp temp) expression ∈ code → Denotes start calls expression result → value = result

theorem tempsHold_empty (code : List Stmt) : TempsHold start calls code {} := by
  intro temp value result expression found
  cases found

/-- What stands for an expression of a known value has this value, and reading it changes
nothing. -/
theorem StandsFor.eval_eq_ok {code : List Stmt} {temps : Temps} {value expression : Expr}
    {result found : Int} {run : Label → List Int → Exec Int}
    (stands : StandsFor code value expression) (denotes : Denotes start calls expression result)
    (hold : TempsHold start calls code temps)
    (keeps : Keeps start calls (keptWordsIn start calls) machine)
    (evaluated : eval run temps value machine = .ok found final) :
    found = result ∧ final = machine := by
  rcases stands with rfl | ⟨temp, rfl, moved⟩
  · rw [denotes run temps machine keeps] at evaluated
    obtain ⟨rfl, rfl⟩ := EStateM.Result.ok.inj evaluated
    exact ⟨rfl, rfl⟩
  · rw [eval_temp] at evaluated
    obtain ⟨isThere, rfl⟩ := readTemp_eq_ok.mp evaluated
    exact ⟨hold isThere moved denotes, rfl⟩

theorem isPassed_of_allowsCall (hosts : Hosts program table start)
    (stack : IsStack program table start (call :: older)) {code : List Stmt} {temps : Temps}
    {label : Label} {arguments : List Expr} {values : List Int} {run : Label → List Int → Exec Int}
    (allowed : (call.function.discipline program table).AllowsCall code (label, arguments))
    (hold : TempsHold start (call :: older) code temps)
    (keeps : Keeps start (call :: older) (keptWordsIn start (call :: older)) machine)
    (evaluated : evalAll run temps arguments machine = .ok values final) :
    IsPassed program table (call :: older) label values := by
  obtain ⟨link, value, rest, same, stands, isCall⟩ := allowed
  have same : arguments = value :: rest := same
  subst same
  rcases isCall with
    builtin | ⟨callee, member, frame, isFrame, labelled, visible, rfl, counted, isRoom⟩
  · exact .inl builtin
  · refine .inr ⟨callee, member, frame, isFrame, labelled, ?_, ?_⟩
    · rintro _ ⟨rfl⟩
      refine ⟨visible, ?_⟩
      obtain ⟨labels, laid⟩ := hosts.laidOut stack.function_mem
      obtain ⟨own, -, ownFrame⟩ := laid.frame
      have runs := (stack.routines call (List.mem_cons_self ..)).frame
      rw [Option.some_inj.mp (runs.symm.trans ownFrame), ← counted]
      exact (argumentsSize_frame program.resolution call.function own).2.2 _ isRoom
    · obtain ⟨head, middle, tail, first, others, rfl⟩ := evalAll_cons_eq_ok.mp evaluated
      have denotes := stack.denotes_staticLink hosts.scope.distinct member visible
      obtain ⟨rfl, rfl⟩ := stands.eval_eq_ok denotes hold keeps first
      exact ⟨tail, rfl, (evalAll_length others).trans counted⟩

/-! ### Expressions and statements -/

mutual

theorem eval_keeps (hosts : Hosts program table start)
    (stack : IsStack program table start (call :: older)) {code : List Stmt} {temps : Temps}
    {run : Label → List Int → Exec Int}
    (callsKeep : CallsKeep program table start (call :: older) run)
    (hold : TempsHold start (call :: older) code temps) :
    (expression : Expr) → {machine final : Machine} → {result : Int} →
    (call.function.discipline program table).AllowsCalls code expression.calls →
    Keeps start (call :: older) (keptWordsIn start (call :: older)) machine →
    eval run temps expression machine = .ok result final →
    Keeps start (call :: older) (keptWordsIn start (call :: older)) final
  | .const _, _, _, _, _, keeps, evaluated => by
      obtain ⟨-, rfl⟩ := eval_const_eq_ok.mp evaluated
      exact keeps
  | .name _, _, _, _, _, keeps, evaluated => by
      rw [eval_name] at evaluated
      obtain ⟨-, rfl⟩ := labelAddress_eq_ok.mp evaluated
      exact keeps
  | .temp _, _, _, _, _, keeps, evaluated => by
      rw [eval_temp] at evaluated
      obtain ⟨-, rfl⟩ := readTemp_eq_ok.mp evaluated
      exact keeps
  | .mem address, _, _, _, allowed, keeps, evaluated => by
      obtain ⟨_, places, -⟩ := eval_mem_eq_ok.mp evaluated
      exact eval_keeps hosts stack callsKeep hold address allowed keeps places
  | .binop _ left right, _, _, _, allowed, keeps, evaluated => by
      obtain ⟨_, _, _, lefts, rights, -⟩ := eval_binop_eq_ok.mp evaluated
      obtain ⟨leftAllowed, rightAllowed⟩ := List.forall_mem_append.mp allowed
      exact eval_keeps hosts stack callsKeep hold right rightAllowed
        (eval_keeps hosts stack callsKeep hold left leftAllowed keeps lefts) rights
  | .call label arguments, _, _, _, allowed, keeps, evaluated => by
      obtain ⟨values, _, evaluates, calls⟩ := eval_call_eq_ok.mp evaluated
      obtain ⟨here, inside⟩ := List.forall_mem_cons.mp allowed
      exact callsKeep (isPassed_of_allowsCall hosts stack here hold keeps evaluates)
        (evalAll_keeps hosts stack callsKeep hold arguments inside keeps evaluates) calls
  | .eseq .., _, _, _, _, _, evaluated => by
      rw [eval] at evaluated
      exact (throw_ne_ok evaluated).elim

theorem evalAll_keeps (hosts : Hosts program table start)
    (stack : IsStack program table start (call :: older)) {code : List Stmt} {temps : Temps}
    {run : Label → List Int → Exec Int}
    (callsKeep : CallsKeep program table start (call :: older) run)
    (hold : TempsHold start (call :: older) code temps) :
    (expressions : List Expr) → {machine final : Machine} → {values : List Int} →
    (call.function.discipline program table).AllowsCalls code (Expr.callsOfList expressions) →
    Keeps start (call :: older) (keptWordsIn start (call :: older)) machine →
    evalAll run temps expressions machine = .ok values final →
    Keeps start (call :: older) (keptWordsIn start (call :: older)) final
  | [], _, _, _, _, keeps, evaluated => by
      obtain ⟨-, rfl⟩ := evalAll_nil_eq_ok.mp evaluated
      exact keeps
  | expression :: rest, _, _, _, allowed, keeps, evaluated => by
      obtain ⟨_, _, _, first, others, -⟩ := evalAll_cons_eq_ok.mp evaluated
      obtain ⟨firstAllowed, othersAllowed⟩ := List.forall_mem_append.mp allowed
      exact evalAll_keeps hosts stack callsKeep hold rest othersAllowed
        (eval_keeps hosts stack callsKeep hold expression firstAllowed keeps first) others

end

/-- No two statements move different things to one temporary. -/
theorem source_eq_of_once {code : List Stmt} (once : (code.filterMap Stmt.target?).Nodup)
    {temp : Temp} {source other : Expr} (isFirst : .move (.temp temp) source ∈ code)
    (isSecond : .move (.temp temp) other ∈ code) : source = other := by
  have isTarget {moved : Expr} {rest : List Stmt} (member : .move (.temp temp) moved ∈ rest) :
      temp ∈ rest.filterMap Stmt.target? := List.mem_filterMap.mpr ⟨_, member, rfl⟩
  induction code with
  | nil => cases isFirst
  | cons statement rest ih =>
      rcases List.mem_cons.mp isFirst with rfl | inRest
      · rcases List.mem_cons.mp isSecond with same | alsoInRest
        · exact (Stmt.move.inj same).2.symm
        · exact ((List.nodup_cons.mp once).1 (isTarget alsoInRest)).elim
      · rcases List.mem_cons.mp isSecond with rfl | alsoInRest
        · exact ((List.nodup_cons.mp once).1 (isTarget inRest)).elim
        · refine ih ?_ inRest alsoInRest
          rw [List.filterMap_cons] at once
          split at once
          · exact once
          · exact (List.nodup_cons.mp once).2

/-- Computing where to store changes nothing, and no kept word lies there.  It is where a
variable lives, or below the stack pointer for a frame pointer that is saved. -/
theorem place_eq_ok (hosts : Hosts program table start)
    (stack : IsStack program table start (call :: older)) {code : List Stmt} {temps : Temps}
    {run : Label → List Int → Exec Int} {address : Expr} {place : Int}
    (allowed : (call.function.discipline program table).AllowsPlace code address)
    (hold : TempsHold start (call :: older) code temps)
    (keeps : Keeps start (call :: older) (keptWordsIn start (call :: older)) machine)
    (evaluated : eval run temps address machine = .ok place final) :
    final = machine ∧ (∀ word ∈ keptWordsIn start (call :: older), word.1 ≠ place) ∧
      (IsVariablePlace table start place ∨ ∃ offset,
        address = .binop .sub .stackPointer (.const offset) ∧ place = call.top - offset) := by
  rcases allowed with ⟨cell, isCell, stands⟩ | ⟨offset, isSaved, rfl⟩
  · obtain ⟨known, denotes, isVariable, free⟩ := stack.denotes_cell hosts isCell
    obtain ⟨rfl, rfl⟩ := stands.eval_eq_ok denotes hold keeps evaluated
    exact ⟨rfl, free, .inl isVariable⟩
  · obtain ⟨positive, denotes⟩ := stack.denotes_saved hosts isSaved
    rw [denotes run temps machine keeps] at evaluated
    obtain ⟨rfl, rfl⟩ := EStateM.Result.ok.inj evaluated
    refine ⟨rfl, stack.stacked.ne_of_lt ?_, .inr ⟨offset, rfl, rfl⟩⟩
    rintro _ ⟨rfl⟩
    have arguments := stack.stacked.1.arguments
    unfold Word.size
    omega

theorem execute_keeps (hosts : Hosts program table start)
    (stack : IsStack program table start (call :: older)) {temps : Temps}
    {run : Label → List Int → Exec Int}
    (callsKeep : CallsKeep program table start (call :: older) run)
    {before : List Stmt} {result : Expr}
    (body : KeepsBody (call.function.discipline program table) before result)
    (hold : TempsHold start (call :: older) (bodyOf before result) temps) {statement : Stmt}
    (member : statement ∈ before)
    (keeps : Keeps start (call :: older) (keptWordsIn start (call :: older)) machine)
    {next : Continuation} (executed : execute run temps statement machine = .ok next final) :
    Keeps start (call :: older) (keptWordsIn start (call :: older)) final ∧
      TempsHold start (call :: older) (bodyOf before result) next.temps := by
  obtain ⟨allowed, place⟩ := body.allows statement member
  match statement with
  | .label _ =>
      obtain ⟨rfl, rfl⟩ := execute_label_eq_ok.mp executed
      exact ⟨keeps, hold⟩
  | .jump _ =>
      obtain ⟨rfl, rfl⟩ := execute_jump_eq_ok.mp executed
      exact ⟨keeps, hold⟩
  | .cjump condition _ _ =>
      obtain ⟨_, tested, rfl⟩ := execute_cjump_eq_ok.mp executed
      exact ⟨eval_keeps hosts stack callsKeep hold condition allowed keeps tested, hold⟩
  | .exp value =>
      obtain ⟨_, evaluated, rfl⟩ := execute_exp_eq_ok.mp executed
      exact ⟨eval_keeps hosts stack callsKeep hold value allowed keeps evaluated, hold⟩
  | .move (.temp temp) source =>
      obtain ⟨value, evaluated, rfl⟩ := execute_move_temp_eq_ok.mp executed
      have sourceAllowed := (List.forall_mem_append.mp allowed).2
      refine ⟨eval_keeps hosts stack callsKeep hold source sourceAllowed keeps evaluated, ?_⟩
      intro other found denoted expression isThere moved denotes
      rw [Table.get?_insert] at isThere
      split at isThere
      · next same =>
          subst same
          obtain rfl := Option.some_inj.mp isThere
          obtain rfl := source_eq_of_once body.once (List.mem_append_left _ member) moved
          rw [denotes run temps machine keeps] at evaluated
          exact (EStateM.Result.ok.inj evaluated).1.symm
      · exact hold isThere moved denotes
  | .move (.mem address) source =>
      obtain ⟨_, _, _, _, places, values, valid, rfl, rfl⟩ := execute_move_mem_eq_ok.mp executed
      have sourceAllowed := (List.forall_mem_append.mp allowed).2
      obtain ⟨rfl, free, -⟩ := place_eq_ok hosts stack (place address source rfl) hold keeps places
      have keeps := eval_keeps hosts stack callsKeep hold source sourceAllowed keeps values
      exact ⟨keeps.writeWord _ valid free, hold⟩
  | .move (.const _) _ | .move (.name _) _ | .move (.binop ..) _ | .move (.call ..) _
  | .move (.eseq ..) _ | .seq _ =>
      rw [execute] at executed
      · exact (throw_ne_ok executed).elim
      all_goals simp

/-- The last statement of a body keeps all but the static link of the innermost call. -/
theorem execute_result_keeps (hosts : Hosts program table start)
    (stack : IsStack program table start (call :: older)) {temps : Temps}
    {run : Label → List Int → Exec Int}
    (callsKeep : CallsKeep program table start (call :: older) run)
    {before : List Stmt} {result : Expr}
    (body : KeepsBody (call.function.discipline program table) before result)
    (hold : TempsHold start (call :: older) (bodyOf before result) temps)
    (keeps : Keeps start (call :: older) (keptWordsIn start (call :: older)) machine)
    {next : Continuation}
    (executed : execute run temps (.move (.mem .framePointer) result) machine = .ok next final) :
    Keeps start (call :: older) (finishedWordsIn start (call :: older)) final ∧
      next.jump = none := by
  obtain ⟨place, _, _, _, places, values, valid, rfl, rfl⟩ := execute_move_mem_eq_ok.mp executed
  rw [eval_framePointer keeps] at places
  obtain ⟨rfl, rfl⟩ := EStateM.Result.ok.inj places
  have keeps := eval_keeps hosts stack callsKeep hold result body.calls keeps values
  refine ⟨(keeps.mono (Call.finishedWords_subset ..)).writeWord _ valid ?_, rfl⟩
  exact stack.stacked.ne_framePointer

/-! ### Calls -/

/-- While certain calls are open, a function can be called, with a routine as its code. -/
structure CanCall (program : Program) (table : FrameTable) (calls : List Call)
    (callee : Source.Function) (routine : Routine) : Prop where
  member : callee ∈ program.functions
  runs : callee.RunsAs program table routine
  passed : match calls with
    | [] => callee.around = [] ∧ callee.parameters = []
    | caller :: _ => callee.IsVisibleFrom caller.function ∧
        callSize callee.parameters.length ≤ caller.routine.frame.argumentsSize

def newCall (start : Machine) (calls : List Call) (callee : Source.Function) (routine : Routine) :
    Call :=
  ⟨callee, routine, Call.stackPointerOf (start.memory.size - Word.size) calls⟩

variable {callee : Source.Function} {routine : Routine} {jumps : Table Label Nat}

/-- A word can hold the stack pointer while some calls are open. -/
theorem IsStack.stackPointerOf_fits (hosts : Hosts program table start)
    (stack : IsStack program table start calls) :
    -Word.size ≤ Call.stackPointerOf (start.memory.size - Word.size) calls ∧
      Word.Fits (Call.stackPointerOf (start.memory.size - Word.size) calls) := by
  have base := hosts.base_fits
  have staticTop := hosts.staticTop
  have positive : 0 ≤ start.memory.size := by
    unfold Memory.size Word.size
    omega
  have below := stack.stacked.stackPointerOf_le.1
  cases calls with
  | nil =>
      refine ⟨?_, base⟩
      rw [Call.stackPointerOf]
      omega
  | cons call older =>
      have floor := stack.stacked.1.floor
      rw [Call.stackPointerOf] at below ⊢
      unfold Word.Fits at *
      unfold Word.size
      omega

theorem IsStack.cons (hosts : Hosts program table start) (stack : IsStack program table start calls)
    (can : CanCall program table calls callee routine)
    (fits : start.memory.staticTop ≤ (newCall start calls callee routine).top) :
    IsStack program table start (newCall start calls callee routine :: calls) := by
  obtain ⟨-, locals, aligned, arguments, -, saved, size, -⟩ :=
    hosts.frame_parts can.member can.runs.frame
  obtain ⟨low, high⟩ := stack.stackPointerOf_fits hosts
  obtain ⟨top, savedAt⟩ := hosts.frame_at can.member can.runs.frame low high
  have savedAt : (newCall start calls callee routine).savedAt =
      (newCall start calls callee routine).framePointer -
        (routine.frame.localsSize + Word.size) := saved ▸ savedAt
  have reserved : (newCall start calls callee routine).savedAt =
      (newCall start calls callee routine).top + routine.frame.argumentsSize + Word.size := by
    have top : (newCall start calls callee routine).top =
      (newCall start calls callee routine).framePointer - routine.frame.size := top
    omega
  refine ⟨⟨⟨rfl, fits, locals, aligned, arguments, savedAt, reserved, ?_, ?_⟩, stack.stacked⟩, ?_,
    List.forall_mem_cons.mpr ⟨can.runs, stack.routines⟩⟩
  · intro caller isCaller
    obtain ⟨rest, rfl⟩ := List.head?_eq_some_iff.mp isCaller
    exact can.passed.2
  · rintro rfl
    exact can.passed.2
  · cases calls with
    | nil => exact ⟨can.member, can.passed.1⟩
    | cons caller rest => exact ⟨⟨can.member, can.passed.1⟩, stack.nested⟩

/-- A frame is made below the others, with the static link that was passed. -/
theorem enter_keeps (hosts : Hosts program table start) (stack : IsStack program table start calls)
    (can : CanCall program table calls callee routine)
    (keeps : Keeps start calls
      ((Call.stackPointerOf (start.memory.size - Word.size) calls, Call.linkOf callee calls) ::
        keptWordsIn start calls) machine)
    (entered : enter routine machine = .ok jumps final) :
    IsStack program table start (newCall start calls callee routine :: calls) ∧
      Keeps start (newCall start calls callee routine :: calls)
        (keptWordsIn start (newCall start calls callee routine :: calls)) final := by
  obtain ⟨-, fits, valid, rfl⟩ := enter_eq_ok.mp entered
  have top := keeps.points.stackPointer
  rw [top, keeps.steady.staticTop] at fits
  have stack := stack.cons hosts can fits
  rw [top] at valid ⊢
  refine ⟨stack, (keeps.steady.writeWord _ valid).withPointers .., points_withPointers .., ?_⟩
  refine List.forall_mem_cons.mpr ⟨?_, fun word member => ?_⟩
  · rw [read?_withPointers, read?_writeWord _ _ _ valid, keeps.points.framePointer]
    exact if_pos rfl
  · rw [read?_withPointers, read?_writeWord _ _ _ valid]
    exact (if_neg (stack.stacked.ne_savedAt word member).symm).trans (keeps.words word member)

theorem leave_keeps (stack : IsStack program table start (call :: older))
    (keeps : Keeps start (call :: older) (finishedWordsIn start (call :: older)) machine)
    (left : leave call.routine machine = .ok () final) :
    Keeps start older (keptWordsIn start older) final := by
  obtain ⟨saved, found, rfl⟩ := leave_eq_ok.mp left
  obtain ⟨here, others⟩ := List.forall_mem_cons.mp keeps.words
  rw [keeps.points.framePointer] at found ⊢
  obtain rfl := Value.int.inj (Option.some_inj.mp (found.symm.trans here))
  refine ⟨keeps.steady.withPointers .., ?_, others⟩
  have same : call.framePointer = _ := stack.stacked.1.framePointer
  rw [← same]
  exact points_withPointers ..

/-- A way to run the statements of a function keeps the words of the open calls, but for the
static link of the innermost one. -/
def BodiesKeep (program : Program) (table : FrameTable) (start : Machine)
    (body : Array Stmt → Table Label Nat → Exec Unit) : Prop :=
  ∀ ⦃call : Call⦄ ⦃older : List Call⦄ ⦃jumps : Table Label Nat⦄ ⦃machine final : Machine⦄,
    IsStack program table start (call :: older) →
      Keeps start (call :: older) (keptWordsIn start (call :: older)) machine →
        body call.routine.statements jumps machine = .ok () final →
          Keeps start (call :: older) (finishedWordsIn start (call :: older)) final

variable {body : Array Stmt → Table Label Nat → Exec Unit}

/-- A call that returns leaves the frames of its callers as they were. -/
theorem invoke_keeps (hosts : Hosts program table start)
    (bodiesKeep : BodiesKeep program table start body)
    (stack : IsStack program table start calls) (can : CanCall program table calls callee routine)
    (keeps : Keeps start calls
      ((Call.stackPointerOf (start.memory.size - Word.size) calls, Call.linkOf callee calls) ::
        keptWordsIn start calls) machine)
    (invoked : invoke body routine machine = .ok () final) :
    Keeps start calls (keptWordsIn start calls) final := by
  obtain ⟨jumps, entered, left, enters, runs, leaves⟩ := invoke_eq_ok.mp invoked
  obtain ⟨newStack, entered⟩ := enter_keeps hosts stack can keeps enters
  exact leave_keeps newStack (bodiesKeep newStack entered runs) leaves

theorem Machine.Keeps.of_storeInt {words : List (Int × Int)} {address value : Int}
    (keeps : Keeps start calls words machine) (free : ∀ word ∈ words, word.1 ≠ address)
    (stored : storeInt address value machine = .ok () final) :
    Keeps start calls ((address, value) :: words) final := by
  obtain ⟨valid, rfl⟩ := storeInt_eq_ok.mp stored
  have others := keeps.writeWord value valid free
  refine ⟨others.steady, others.points, List.forall_mem_cons.mpr ⟨?_, others.words⟩⟩
  rw [read?_writeWord _ _ _ valid]
  exact if_pos rfl

theorem Machine.Keeps.of_storeInts {words : List (Int × Int)} {address : Int} {values : List Int}
    (keeps : Keeps start calls words machine)
    (free : ∀ word ∈ words, ∀ position < values.length, word.1 ≠ address + Word.size * position)
    (stored : storeInts address values machine = .ok () final) :
    Keeps start calls words final := by
  induction values generalizing address machine with
  | nil =>
      obtain ⟨-, rfl⟩ := pure_eq_ok.mp stored
      exact keeps
  | cons value rest ih =>
      obtain ⟨⟨⟩, middle, first, others⟩ := bind_eq_ok.mp stored
      have here (word) (member : word ∈ words) : word.1 ≠ address := by
        simpa using free word member 0 (Nat.zero_lt_succ _)
      refine ih ((keeps.of_storeInt here first).mono (List.subset_cons_self ..)) ?_ others
      intro word member position less
      have apart := free word member (position + 1) (Nat.succ_lt_succ less)
      unfold Word.size at *
      omega

theorem storeArguments_keeps (stack : IsStack program table start (call :: older))
    (room : callSize callee.parameters.length ≤ call.routine.frame.argumentsSize) {link : Int}
    {values : List Int} (counted : values.length = callee.parameters.length)
    (keeps : Keeps start (call :: older) (keptWordsIn start (call :: older)) machine)
    (stored : storeInts machine.stackPointer (link :: values) machine = .ok () final) :
    Keeps start (call :: older) ((call.top, link) :: keptWordsIn start (call :: older)) final := by
  have below (position : Nat) (less : position < values.length + 1) :
      ∀ word ∈ keptWordsIn start (call :: older), word.1 ≠ call.top + Word.size * position := by
    refine stack.stacked.ne_of_lt ?_
    rintro _ ⟨rfl⟩
    unfold callSize Word.size at *
    omega
  rw [keeps.points.stackPointer] at stored
  obtain ⟨⟨⟩, middle, first, others⟩ := bind_eq_ok.mp stored
  have kept :=
    keeps.of_storeInt (by simpa [Call.stackPointerOf] using below 0 (Nat.zero_lt_succ _)) first
  refine kept.of_storeInts (List.forall_mem_cons.mpr ⟨?_, ?_⟩) others
  · intro position less
    simp only [Call.stackPointerOf]
    unfold Word.size
    omega
  · intro word member position less
    have apart := below (position + 1) (Nat.succ_lt_succ less) word member
    simp only [Call.stackPointerOf]
    unfold Word.size at *
    omega

theorem canCall_of_routine? (hosts : Hosts program table start) {frame : Frame}
    (member : callee ∈ program.functions) (isFrame : table.frame? callee.node.id = some frame)
    (visible : callee.IsVisibleFrom call.function)
    (room : callSize callee.parameters.length ≤ call.routine.frame.argumentsSize)
    (steady : Steady start machine) (found : machine.routine? frame.label = some routine) :
    CanCall program table (call :: older) callee routine := by
  obtain ⟨noFrame, noStack⟩ := hosts.noPointer callee member frame isFrame
  obtain ⟨labelled, other, otherMember, runs⟩ :=
    hosts.routine _ routine noFrame noStack (steady.routine? noFrame noStack found)
  obtain rfl := hosts.apart callee member other otherMember frame routine.frame isFrame runs.frame
    labelled.symm
  exact ⟨member, runs, visible, room⟩

/-- What the code of a function passes is stored, and then the call can be made. -/
theorem canCall_of_isPassed (hosts : Hosts program table start) {label : Label} {values : List Int}
    (passed : IsPassed program table (call :: older) label values) (noBuiltin : NoBuiltin label)
    (keeps : Keeps start (call :: older) (keptWordsIn start (call :: older)) machine)
    (found : machine.routine? label = some routine) :
    ∃ callee rest, values = Call.linkOf callee (call :: older) :: rest ∧
      rest.length = callee.parameters.length ∧
      CanCall program table (call :: older) callee routine := by
  rcases passed with
    ⟨builtin, rfl⟩ | ⟨callee, member, frame, isFrame, rfl, visible, rest, same, counted⟩
  · have absent := noBuiltin _ rfl
    rw [Builtin.ofName?_eq_some_iff.mpr rfl] at absent
    cases absent
  · obtain ⟨visible, room⟩ := visible call rfl
    exact ⟨callee, rest, same, counted,
      canCall_of_routine? hosts member isFrame visible room keeps.steady found⟩

theorem callLabel_keeps (hosts : Hosts program table start)
    (bodiesKeep : BodiesKeep program table start body)
    (stack : IsStack program table start (call :: older)) :
    CallsKeep program table start (call :: older) (callLabel body) := by
  intro label values machine final result passed keeps called
  rcases callLabel_eq_ok called with ⟨builtin, called⟩ | ⟨noBuiltin, called⟩
  · obtain ⟨random, output, rfl⟩ := callBuiltin_eq_ok called
    exact keeps.withEffects random output
  · obtain ⟨routine, stored, found, stores, invoked, -⟩ := callRoutine_eq_ok.mp called
    obtain ⟨callee, rest, rfl, counted, can⟩ :=
      canCall_of_isPassed hosts passed noBuiltin keeps found
    exact invoke_keeps hosts bodiesKeep stack can
      (storeArguments_keeps stack can.passed.2 counted keeps stores) invoked

/-! ### Runs -/

/-- The innermost call is about to run the statement at a position of its code, or is done. -/
structure StandsAt (start : Machine) (call : Call) (older : List Call) (position : Nat)
    (temps : Temps) (machine : Machine) : Prop where
  finished : Keeps start (call :: older) (finishedWordsIn start (call :: older)) machine
  kept : position < call.routine.statements.size →
    Keeps start (call :: older) (keptWordsIn start (call :: older)) machine
  hold : position < call.routine.statements.size →
    TempsHold start (call :: older) call.routine.statements.toList temps

theorem standsAt_of_keeps {temps : Temps} (position : Nat)
    (keeps : Keeps start (call :: older) (keptWordsIn start (call :: older)) machine)
    (hold : TempsHold start (call :: older) call.routine.statements.toList temps) :
    StandsAt start call older position temps machine :=
  ⟨keeps.mono (Call.finishedWords_subset ..), fun _ => keeps, fun _ => hold⟩

/-- What one statement leaves: the call goes on behind it, or anywhere if it jumps. -/
theorem StandsAt.execute (hosts : Hosts program table start)
    (stack : IsStack program table start (call :: older))
    {run : Label → List Int → Exec Int}
    (callsKeep : CallsKeep program table start (call :: older) run)
    {position : Nat} {temps : Temps} (stands : StandsAt start call older position temps machine)
    {statement : Stmt} (found : call.routine.statements[position]? = some statement)
    {next : Continuation} (executed : execute run temps statement machine = .ok next final) :
    StandsAt start call older (position + 1) next.temps final ∧
      (next.jump ≠ none → ∀ target, StandsAt start call older target next.temps final) := by
  obtain ⟨before, result, code, body⟩ := (stack.routines call (List.mem_cons_self ..)).code
  obtain ⟨less, -⟩ := Array.getElem?_eq_some_iff.mp found
  have keeps := stands.kept less
  have hold := stands.hold less
  rw [code] at found less hold
  simp only [bodyOf, List.getElem?_toArray, List.size_toArray, List.length_append,
    List.length_singleton] at found less
  rcases Nat.lt_succ_iff_lt_or_eq.mp less with inside | rfl
  · rw [List.getElem?_append_left inside] at found
    obtain ⟨keeps, hold⟩ :=
      execute_keeps hosts stack callsKeep body hold (List.mem_of_getElem? found) keeps executed
    have same : (bodyOf before result).toArray.toList = bodyOf before result := rfl
    rw [← same, ← code] at hold
    exact ⟨standsAt_of_keeps _ keeps hold, fun _ target => standsAt_of_keeps target keeps hold⟩
  · simp only [List.getElem?_concat_length] at found
    obtain rfl := Option.some_inj.mp found
    obtain ⟨finished, noJump⟩ :=
      execute_result_keeps hosts stack callsKeep body hold keeps executed
    have done : ¬before.length + 1 < call.routine.statements.size := by
      simp [code, bodyOf]
    exact ⟨⟨finished, fun less => (done less).elim, fun less => (done less).elim⟩,
      fun jumps => (jumps noJump).elim⟩

/-- Running code from a position on keeps the words of the open calls, but for the static link
of the innermost one. -/
theorem runFrom_keeps (hosts : Hosts program table start) {fuel position : Nat} {temps : Temps}
    {jumps : Table Label Nat} (stack : IsStack program table start (call :: older))
    (stands : StandsAt start call older position temps machine)
    (ran : runFrom fuel call.routine.statements jumps position temps machine = .ok () final) :
    Keeps start (call :: older) (finishedWordsIn start (call :: older)) final := by
  induction fuel generalizing call older position temps jumps machine final with
  | zero => exact (throw_ne_ok ran).elim
  | succ fuel ih =>
      rcases runFrom_eq_ok ran with ⟨-, rfl⟩ | ⟨statement, next, middle, target, found, executed,
        goesOn, rest⟩
      · exact stands.finished
      · have bodiesKeep : BodiesKeep program table start
            fun statements jumps => runFrom fuel statements jumps 0 {} :=
          fun call older _ _ _ stack keeps ran =>
            ih stack (standsAt_of_keeps 0 keeps (tempsHold_empty _)) ran
        have callsKeep := callLabel_keeps hosts bodiesKeep stack
        obtain ⟨behind, anywhere⟩ := stands.execute hosts stack callsKeep found executed
        refine ih stack ?_ rest
        rcases goesOn with ⟨-, rfl⟩ | ⟨label, jumped, -⟩
        · exact behind
        · exact anywhere (by simp [jumped]) target

/-- What a function runs with keeps the words of the open calls, whatever it runs on. -/
theorem bodiesKeep_runFrom (hosts : Hosts program table start) (fuel : Nat) :
    BodiesKeep program table start fun statements jumps => runFrom fuel statements jumps 0 {} :=
  fun _ _ _ _ _ stack keeps ran =>
    runFrom_keeps hosts stack (standsAt_of_keeps 0 keeps (tempsHold_empty _)) ran

end Running

end TreeBackend
