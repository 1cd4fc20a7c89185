import TreeBackend.Proofs.Calls.Protocol

/-!
# Where static links lead

The static link of an activation leads to the latest older activation of the function around
its own.  Following one link after the other leads outwards through the functions in which a
function is nested.
-/

namespace TreeBackend

open Source (Program NodeId)
open Lowering Machine
open IR (Chunk)

namespace Machine

/-- Where a number of static links lead, one after the other. -/
def Memory.follow (memory : Memory) (address : Int) : Nat → Option Int
  | 0 => some address
  | hops + 1 => (memory.follow address hops).bind fun frame => (memory.read? frame).bind Value.asInt?

theorem Memory.follow_one_eq_some {memory : Memory} {address link : Int}
    (leads : memory.follow address 1 = some link) : memory.read? address = some (.int link) := by
  simp only [follow, Option.bind_some, Option.bind_eq_some_iff] at leads
  obtain ⟨value, found, isInt⟩ := leads
  cases value with
  | int number =>
      obtain rfl := Option.some_inj.mp isInt
      exact found
  | str | code => cases isInt

@[simp] theorem follow_withPointers (machine : Machine) (framePointer stackPointer address : Int)
    (hops : Nat) : (machine.withPointers framePointer stackPointer).memory.follow address hops =
      machine.memory.follow address hops := by
  induction hops with
  | zero => rfl
  | succ hops ih => simp only [Memory.follow, ih, read?_withPointers]

def Activation.isOf (table : FrameTable) (function : Source.Function) (activation : Activation) :
    Bool :=
  table.frame? function.node.id = some activation.routine.frame

end Machine

section Links

variable {program : Program} {table : FrameTable} {start machine final : Machine} {call : Call}
  {newer older calls : List Call} {task : Task}

/-- Code that goes outwards follows static links from its frame pointer. -/
theorem follow_of_eval {run : Label → List Int → Exec Int} {temps : Temps} {hops : Nat}
    {base value : Int} (known : machine.memory.address? .framePointer = some base)
    (evaluated : eval run temps (enclosingFrame hops) machine = .ok value final) :
    final = machine ∧ machine.memory.follow base hops = some value := by
  induction hops generalizing value final with
  | zero =>
      rw [enclosingFrame, IR.Expr.framePointer, eval_name] at evaluated
      obtain ⟨same, rfl⟩ := labelAddress_eq_ok.mp evaluated
      exact ⟨rfl, known.symm.trans same⟩
  | succ hops ih =>
      obtain ⟨frame, places, loaded⟩ := eval_mem_eq_ok.mp evaluated
      obtain ⟨rfl, leads⟩ := ih places
      refine ⟨rfl, Option.bind_eq_some_iff.mpr ⟨frame, leads, ?_⟩⟩
      rw [memory_loadInt_eq_ok.mp loaded]
      rfl

theorem IsStack.isOf_activation (hosts : Hosts program table start)
    (stack : IsStack program table start calls) (member : call ∈ calls) {function : Source.Function}
    (functionMember : function ∈ program.functions) :
    call.activation.isOf table function = true ↔ call.function = function := by
  have runs := (stack.routines call member).frame
  rw [Activation.isOf, decide_eq_true_eq]
  constructor
  · intro found
    exact hosts.apart _ (stack.nested.mem_of_mem member) _ functionMember _ _ runs found rfl
  · rintro rfl
    exact runs

/-- What the frame of a call finds in memory while it is not the innermost one. -/
theorem Machine.Keeps.ofSuffix {words : List (Int × Int)} (keeps : Keeps start calls words machine)
    (includes : keptWordsIn start (call :: older) ⊆ words) :
    Keeps start (call :: older) (keptWordsIn start (call :: older))
      (machine.withPointers call.framePointer call.top) :=
  ⟨keeps.steady.withPointers .., points_withPointers .., fun word member =>
    keeps.words word (includes member)⟩

/-- Whatever comes next, the words of all frames are kept, but for the static link of the
innermost one when it is done. -/
theorem Machine.Task.Holds.keeps (holds : task.Holds program table start calls machine) :
    Keeps start calls (finishedWordsIn start calls) machine ∧
      ((∀ call ∈ calls.head?, ¬task.isDone call.activation) →
        Keeps start calls (keptWordsIn start calls) machine) := by
  have unfinished (keeps : Keeps start calls (keptWordsIn start calls) machine) :
      Keeps start calls (finishedWordsIn start calls) machine ∧
        ((∀ call ∈ calls.head?, ¬task.isDone call.activation) →
          Keeps start calls (keptWordsIn start calls) machine) :=
    ⟨keeps.mono (Call.finishedWords_subset ..), fun _ => keeps⟩
  match task, calls with
  | .run _ position temps, newest :: older =>
      have stands : StandsAt start newest older position temps machine := holds
      exact ⟨stands.finished, fun notDone => stands.kept (Nat.lt_of_not_le (notDone newest rfl))⟩
  | .execute .., _ :: _ =>
      obtain ⟨_, _, -, -, works⟩ := holds
      exact unfinished works.keeps
  | .evaluate .., _ :: _ | .evaluateAll .., _ :: _ =>
      obtain ⟨_, -, works⟩ := holds
      exact unfinished works.keeps
  | .proceed, _ => exact unfinished holds
  | .call .., _ :: _ => exact unfinished holds.2
  | .pass .., _ :: _ =>
      obtain ⟨_, -, -, ⟨-, -, keeps⟩ | ⟨-, keeps⟩⟩ := holds
      · exact unfinished keeps
      · exact unfinished (keeps.mono (List.subset_cons_self ..))
  | .invoke .., _ =>
      obtain ⟨_, -, keeps⟩ := holds
      exact unfinished (keeps.mono (List.subset_cons_self ..))
  | .run .., [] | .execute .., [] | .evaluate .., [] | .evaluateAll .., [] | .call .., []
  | .pass .., [] => exact holds.elim

/-- Some activations are older than one of a function, and following static links in memory
from the frame of the latter leads to the latest of them of each function around it. -/
structure LinksOutwards (program : Program) (table : FrameTable) (memory : Memory)
    (older : List Activation) (activation : Activation) (function : Source.Function) : Prop where
  member : function ∈ program.functions
  isOf : activation.isOf table function = true
  /-- The static link of a nested function. -/
  direct : ∀ id ∈ function.around.head?, ∃ outer ∈ program.functions, outer.node.id = id ∧
    ∃ found, older.find? (Activation.isOf table outer) = some found ∧
      memory.read? activation.framePointer = some (.int found.framePointer)
  /-- As many links as there are levels between two functions. -/
  outwards : ∀ outer ∈ program.functions, outer.node.id ∈ function.around →
    ∃ found, older.find? (Activation.isOf table outer) = some found ∧
      memory.follow activation.framePointer (function.depth - outer.depth) =
        some found.framePointer

/-- Outside a function, the latest call of each function around it is found by following
static links. -/
theorem IsStack.exists_outer (hosts : Hosts program table start)
    (stack : IsStack program table start (call :: older))
    (keeps : Keeps start (call :: older) (keptWordsIn start (call :: older))
      (machine.withPointers call.framePointer call.top)) {outer : Source.Function}
    (outerMember : outer ∈ program.functions)
    (isAround : outer.node.id ∈ call.function.around) :
    ∃ found, (older.map Call.activation).find? (Activation.isOf table outer) = some found ∧
      machine.memory.follow call.framePointer (call.function.depth - outer.depth) =
        some found.framePointer := by
  have distinct := hosts.scope.distinct
  have member := stack.function_mem
  obtain ⟨inner, found, outermost, split, rfl, within, denotes⟩ :=
    stack.denotes_enclosingFrame distinct outerMember
      (Program.getElem?_around distinct member outerMember (List.mem_cons_of_mem _ isAround))
  have leads := (follow_of_eval keeps.points.frameLabel
    (denotes (callWith 0) {} _ keeps)).2
  rw [follow_withPointers] at leads
  have deeper {other : Call} (otherMember : other.function ∈ program.functions)
      (isInner : found.function.node.id ∈ other.function.around) :
      other.function ≠ found.function := by
    intro same
    have less := Program.depth_lt distinct otherMember outerMember isInner
    rw [same] at less
    omega
  cases inner with
  | nil =>
      obtain ⟨rfl, -⟩ := List.cons.inj split
      exact (deeper member isAround rfl).elim
  | cons first inner =>
      rw [List.cons_append] at split
      obtain ⟨rfl, rfl⟩ := List.cons.inj split
      refine ⟨found.activation, ?_, leads⟩
      have isThere {other : Call} (inOlder : other ∈ inner ++ found :: outermost) :
          other ∈ call :: (inner ++ found :: outermost) := List.mem_cons_of_mem _ inOlder
      rw [List.map_append, List.find?_append, List.map_cons, List.find?_eq_none.mpr,
        Option.none_or, List.find?_cons_of_pos]
      · exact (stack.isOf_activation hosts (isThere (by simp)) outerMember).mpr rfl
      · refine List.forall_mem_map.mpr fun other isInner isOf => ?_
        have isOther := isThere (List.mem_append_left _ isInner)
        exact deeper (stack.nested.mem_of_mem isOther)
          (within other (List.mem_cons_of_mem _ isInner))
          ((stack.isOf_activation hosts isOther outerMember).mp isOf)

theorem IsStack.linksOutwards (hosts : Hosts program table start)
    (stack : IsStack program table start (call :: older))
    (keeps : Keeps start (call :: older) (keptWordsIn start (call :: older))
      (machine.withPointers call.framePointer call.top)) :
    LinksOutwards program table machine.memory (older.map Call.activation) call.activation
      call.function := by
  have member := stack.function_mem
  refine ⟨member, (stack.isOf_activation hosts (List.mem_cons_self ..) member).mpr rfl, ?_,
    fun outer outerMember isAround => stack.exists_outer hosts keeps outerMember isAround⟩
  intro id isDirect
  obtain ⟨rest, split⟩ := List.head?_eq_some_iff.mp isDirect
  rcases Program.around_eq member with outermost | ⟨outer, outerMember, direct⟩
  · rw [outermost] at split
    cases split
  · obtain ⟨rfl, -⟩ := List.cons.inj (direct.symm.trans split)
    obtain ⟨found, isFound, leads⟩ := stack.exists_outer hosts keeps outerMember (by simp [direct])
    have one : call.function.depth - outer.depth = 1 := by simp [Source.Function.depth, direct]
    rw [one] at leads
    exact ⟨outer, outerMember, rfl, found, isFound, Memory.follow_one_eq_some leads⟩

/-- In every state of a run of a lexically scoped program, static links lead from each
activation that has not stored its result to the latest older activations of the functions
around its own.  Global variables of a word each fit (`globalsFit_of_words`). -/
theorem links_lead_outwards {chunks : List Chunk} {config : Config} {labels : LabelSupply}
    {output : Option Sink} {fuel : Nat} {now : Machine} {stack newer older : List Activation}
    {activation : Activation} (inScope : program.IsScoped) (framesFit : program.FramesFit)
    (globalsFit : program.GlobalsFit)
    (layout : Layout.ofProgram program {} = .ok (table, labels))
    (compiled : compile program = .ok chunks) (loaded : load chunks config = .ok machine)
    (reached : Reached { machine with output } mainLabel fuel stack now task)
    (isOpen : stack = newer ++ activation :: older)
    (unfinished : newer = [] → ¬task.isDone activation) :
    ∃ function, LinksOutwards program table now.memory older activation function := by
  obtain ⟨_, _, again, hosts, -⟩ := exists_hosts inScope.isConfined framesFit globalsFit compiled
    loaded
  obtain ⟨rfl, rfl⟩ := Prod.mk.inj (Except.ok.inj (layout.symm.trans again))
  have hosts := hosts.withOutput output
  obtain ⟨calls, same, isStack, holds⟩ := holdsIn_of_reached hosts reached
  obtain ⟨newerCalls, rest, rfl, rfl, split⟩ := List.map_eq_append_iff.mp (same.symm.trans isOpen)
  obtain ⟨call, olderCalls, rfl, rfl, rfl⟩ := List.map_eq_cons_iff.mp split
  obtain ⟨finished, kept⟩ := holds.keeps
  refine ⟨call.function, ?_⟩
  suffices suffix : Keeps _ (call :: olderCalls) (keptWordsIn _ (call :: olderCalls))
      (now.withPointers call.framePointer call.top) from
    isStack.of_append.linksOutwards hosts suffix
  cases newerCalls with
  | nil =>
      refine (kept ?_).ofSuffix (List.Subset.refl _)
      rintro _ ⟨rfl⟩
      exact unfinished rfl
  | cons newest newerCalls =>
      exact finished.ofSuffix (List.subset_cons_of_subset _ keptWordsIn_of_append)

/-- While the nested function runs, its static link leads to the main function. -/
theorem links_lead_outwards_nested : Demo.nested.IsScoped ∧ Demo.nested.FramesFit ∧
    Demo.nested.GlobalsFit ∧
    ∃ table labels chunks machine fuel main inner now jumps,
      Layout.ofProgram Demo.nested {} = .ok (table, labels) ∧
      compile Demo.nested = .ok chunks ∧ load chunks { memorySize := 64 } = .ok machine ∧
      Reached machine mainLabel fuel [inner, main] now (.run jumps 0 {}) ∧
      ¬(Task.run jumps 0 {}).isDone inner ∧ inner.routine.frame.level = 2 ∧
      ∃ function, LinksOutwards Demo.nested table now.memory [main] inner function := by
  obtain ⟨chunks, machine, fuel, main, stored, routine, jumps, now, _, _, compiled, loaded,
    reached, isNested, isShort, enters, -⟩ := exists_reached_nested
  obtain ⟨table, labels, _, _, layout, -⟩ := compile_eq_ok.mp compiled
  have entered := reached.enter enters
  have running : ¬(Task.run jumps 0 {}).isDone ⟨routine, now.framePointer⟩ := by
    simp [Task.isDone, isShort]
  exact ⟨isScoped_nested, framesFit_nested, globalsFit_nested, table, labels, chunks, machine, fuel,
    main, _, now, jumps, layout, compiled, loaded, entered, running, isNested,
    @links_lead_outwards _ _ _ _ _ _ _ machine.output _ _ _ [] _ _ isScoped_nested framesFit_nested
      globalsFit_nested layout compiled loaded entered rfl fun _ => running⟩

end Links

end TreeBackend
