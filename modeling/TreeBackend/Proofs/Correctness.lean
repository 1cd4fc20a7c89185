import TreeBackend.Demo
import TreeBackend.Pipeline
import TreeBackend.Proofs.Correctness.Furnishing

/-!
# Compiled programs compute what programs mean

If the evaluation of a lexically scoped program comes to a result, then the program that it is
compiled to comes to the same result and has printed the same, on any machine that has room for
as many of the largest frames as the evaluation has followed calls into each other.
-/

namespace TreeBackend

open Filter Source Lowering
open Machine (Config Keeps Returns mainLabel)
open IR (Chunk)

/-! ### The room that a program needs -/

def Source.Program.largestFrame (program : Program) : Int :=
  program.functions.foldr
    (fun function largest => max (function.frameExtent program.resolution) largest) 0

theorem frameExtent_le_largestFrame {program : Program} {function : Source.Function}
    (member : function ∈ program.functions) :
    function.frameExtent program.resolution ≤ program.largestFrame := by
  unfold Program.largestFrame
  generalize program.functions = functions at member
  induction functions with
  | nil => cases member
  | cons other rest ih =>
      rcases List.mem_cons.mp member with rfl | member
      · exact Int.le_max_left ..
      · exact (ih member).trans (Int.le_max_right ..)

theorem largestFrame_nonneg (program : Program) : 0 ≤ program.largestFrame := by
  unfold Program.largestFrame
  induction program.functions with
  | nil => exact Int.le_refl 0
  | cons function rest ih => exact ih.trans (Int.le_max_right ..)

/-- A word can hold the sizes of frames for which there is room in a memory. -/
theorem framesFit_of_le {program : Program} (inScope : program.IsScoped)
    (fits : program.largestFrame < 9223372036854775808) : program.FramesFit := by
  intro function member
  have locals := (TakeRoom.totalExtent (inScope.isConfined.rooms function member).locals).1
  have arguments := (argumentsSize_frame program.resolution function .framePointer).1
  have le := frameExtent_le_largestFrame member
  have parts : function.frameExtent program.resolution =
      program.resolution.totalExtent function.contents.locals + 2 * Word.size +
        (function.frame program.resolution .framePointer).argumentsSize := rfl
  unfold Word.Fits
  unfold Word.size at *
  omega

/-- The memory for the static area of some chunks and for some calls of a program that are open at
once, with the words at both ends that are left out. -/
def memoryFor (program : Program) (chunks : List Chunk) (depth : Nat) : Int :=
  Word.size + Machine.staticArea chunks + depth * program.largestFrame + Word.size

/-! ### The beginning -/

theorem Table.mem_of_get?_ofList {κ α : Type} [DecidableEq κ] {entries : List (κ × α)}
    {key : κ} {value : α} (found : (Table.ofList entries).get? key = some value) :
    (key, value) ∈ entries := by
  induction entries using List.reverseRecOn with
  | nil => cases found
  | append_singleton front entry ih =>
      rw [Table.ofList, List.foldl_append, List.foldl_cons, List.foldl_nil,
        Table.get?_insert] at found
      split at found
      · next same =>
          obtain rfl := Option.some_inj.mp found
          exact List.mem_append_right _ (by simp [← same])
      · exact List.mem_append_left _ (ih found)

section Programs

variable {program : Program} {table : FrameTable} {chunks : List Chunk} {start : Machine}
  {rounds depth : Nat}

/-- At the beginning there are the global variables, which are zero. -/
theorem eq_zero_of_world {cell : Cell} {value : Int}
    (found : program.world.cells.get? cell = some value) : cell.activation = 0 ∧ value = 0 := by
  obtain ⟨owned, -, same⟩ := List.mem_map.mp (Table.mem_of_get?_ofList found)
  obtain ⟨rfl, rfl⟩ := Prod.mk.inj same
  exact ⟨rfl, rfl⟩

/-- A machine that has been loaded represents the state from which an evaluation starts. -/
theorem represents_world (furnished : Furnished program table chunks start)
    (isOpen : start.output = some {}) : Represents table start [] program.world start where
  cells cell address value lies found := by
    obtain ⟨-, rfl⟩ := eq_zero_of_world found
    cases lies with
    | global _ stored known =>
        obtain ⟨place, knownPlace, isZero⟩ := furnished.zero _ _ stored
        rwa [Option.some_inj.mp (known.symm.trans knownPlace)]
    | stack member => cases member
  constants _ _ found _ := found
  output := isOpen
  begun cell value found := by
    rw [(eq_zero_of_world found).1]
    exact Nat.zero_lt_one
  numbered _ member := by cases member
  counted := Nat.zero_lt_one
  keeps := ⟨.refl start, furnished.points, by simp [Call.keptWords]⟩

theorem isLive_nil : IsLive program table start [] where
  stack := ⟨trivial, trivial, by simp⟩
  once := .nil
  positive := by simp

/-- The main function of a loaded program comes to the result of the evaluation. -/
theorem exists_interpret_eq (furnished : Furnished program table chunks start)
    (isOpen : start.output = some {}) {largest : Int}
    (frames : ∀ function ∈ program.functions,
      function.frameExtent program.resolution ≤ largest)
    (room : start.memory.staticTop + depth * largest ≤ start.memory.size - Word.size)
    {result : Int} {output : String}
    (evaluated : program.evaluate rounds depth = some (result, output)) :
    ∃ final, final.output = some { written := output.toUTF8 } ∧
      ∀ᶠ fuel in atTop, Machine.interpret fuel mainLabel start = .ok result final := by
  obtain ⟨main, world, isMain, called, rfl⟩ := programEvaluate_eq_some.mp evaluated
  obtain ⟨member, outermost, named, noParameters⟩ := main?_eq_some isMain
  obtain ⟨labels, laid⟩ := furnished.laid
  obtain ⟨frame, items, isFrame, compiles, -, -, isRoutine⟩ := furnished.code main member
  have labelled : frame.label = mainLabel := by
    obtain ⟨label, hasLabel, isOwn⟩ := (laid.functions.each main member).frame
    obtain rfl := Option.some_inj.mp (isFrame.symm.trans isOwn)
    exact (hasLabel.eq_named outermost).trans (congrArg Label.named named)
  have can : CanCall program table [] main (.ofBody frame (.seq items)) :=
    ⟨member, runsAs_of_compilesTo furnished.scope laid member isFrame compiles, outermost,
      noParameters⟩
  have inScope : IsScopeOf [] main.around [] := by
    rw [outermost]
    exact ⟨rfl, by simp⟩
  obtain ⟨-, returns⟩ :=
    (callsWork furnished frames depth isLive_nil room).works called can isRoutine inScope
  obtain ⟨value, final, ends, matched, represents⟩ := returns (represents_world furnished isOpen)
  obtain rfl := matched result rfl
  refine ⟨final, represents.output, Returns.interpret ?_ (labelled ▸ isRoutine)⟩
  rwa [Call.linkOf, outermost] at ends

/-- A program that compiles can be loaded where there is room for one frame. -/
theorem exists_furnished (inScope : program.IsScoped) (keeps : program.KeepsBuiltins)
    (compiles : compile program = .ok chunks) {config : Config}
    (valid : config.validate = .ok ())
    (room : memoryFor program chunks (depth + 1) ≤ config.memorySize) :
    ∃ table machine, Machine.load chunks config = .ok machine ∧
      Furnished program table chunks machine ∧ machine.memory.size = config.memorySize ∧
      machine.memory.staticTop = Word.size + Machine.staticArea chunks := by
  obtain ⟨table, _, -, compiled⟩ :=
    compiledTo_of_compile inScope.distinct inScope.names compiles
  have largest := largestFrame_nonneg program
  have static := Machine.staticArea_nonneg chunks
  have deeper : 0 ≤ depth * program.largestFrame :=
    Int.mul_nonneg (Int.natCast_nonneg _) largest
  rw [memoryFor, Nat.cast_succ, Int.add_mul, Int.one_mul] at room
  have words : 0 < Word.size := by decide
  have noPointer {label : Label} := @noPointer_of_compiledTo _ _ _ inScope.isConfined compiled label
  obtain ⟨machine, loads, loaded⟩ := Machine.load_eq valid (by omega) compiled.distinct
    (fun member => (noPointer member).1 rfl) fun member => (noPointer member).2 rfl
  -- A frame for which there is room is smaller than any memory, so a word can hold its size.
  have fits : program.FramesFit := by
    have limited := (config.validate_eq_ok_iff.mp valid).2.2
    unfold Machine.memoryLimit at limited
    exact framesFit_of_le inScope (by omega)
  exact ⟨table, machine, loads, furnished_of_loaded
    (hosts_of_loaded inScope.isConfined compiled fits valid loaded) compiled keeps loaded,
    loaded.size, loaded.staticTop⟩

/-- Compiled programs compute what programs mean: with enough fuel, running a program gives the
result of its evaluation and prints the same. -/
theorem run_eq_of_evaluate (inScope : program.IsScoped) (keeps : program.KeepsBuiltins)
    (compiles : compile program = .ok chunks) {config : Config}
    (valid : config.validate = .ok ())
    (room : memoryFor program chunks depth ≤ config.memorySize)
    {result : Int} {output : String}
    (evaluated : program.evaluate rounds depth = some (result, output)) :
    ∀ᶠ fuel in atTop, run fuel program config {} = ⟨.ok result, output.toUTF8⟩ := by
  cases depth with
  | zero =>
      obtain ⟨main, world, -, called, -⟩ := programEvaluate_eq_some.mp evaluated
      exact (@Evaluation.stuck_ne_some _ program.world _ _ called).elim
  | succ depth =>
      obtain ⟨table, machine, loads, furnished, size, staticTop⟩ :=
        exists_furnished inScope keeps compiles valid room
      obtain ⟨final, printed, ends⟩ := exists_interpret_eq (furnished.withOutput (some {})) rfl
        (fun function member => frameExtent_le_largestFrame member) (by
          dsimp only
          rw [size, staticTop]
          unfold memoryFor at room
          omega) evaluated
      refine ends.mono fun fuel ends => ?_
      have runs : machine.runMain fuel {} = (.ok result, final) := by
        unfold Machine.runMain
        rw [show (Machine.interpret fuel mainLabel).run { machine with output := some {} } = _
          from ends]
      simp only [run, compiles, runChunks, loads, runs, Machine.printed, printed]
      rfl

end Programs

theorem isScoped_demo : Demo.program.IsScoped where
  distinct := by decide +kernel
  words := by decide +kernel
  bodies := by decide +kernel
  names := by decide +kernel
  noPointer := by decide +kernel
  main := by decide +kernel

/-- The demonstration program, whose calls go as deep as six and whose loop has five rounds. -/
theorem run_eq_of_evaluate_demo : Demo.program.IsScoped ∧ Demo.program.KeepsBuiltins ∧
    ∃ chunks, compile Demo.program = .ok chunks ∧
      ({ memorySize := 256 } : Config).validate = .ok () ∧ memoryFor Demo.program chunks 6 ≤ 256 ∧
      Demo.program.evaluate 6 6 = some (918, "\"factorials\"\n1\n2\n6\n24\n120\n") ∧
      ∀ᶠ fuel in atTop, run fuel Demo.program { memorySize := 256 } {} =
        ⟨.ok 918, "\"factorials\"\n1\n2\n6\n24\n120\n".toUTF8⟩ := by
  have keeps : Demo.program.KeepsBuiltins := by decide +kernel
  have fits : ((compile Demo.program).toOption.map fun chunks =>
      decide (memoryFor Demo.program chunks 6 ≤ 256)) = some true := by decide +kernel
  obtain ⟨chunks, compiles, room⟩ := Option.map_eq_some_iff.mp fits
  rw [toOption_eq_some_iff] at compiles
  rw [decide_eq_true_eq] at room
  have valid : ({ memorySize := 256 } : Config).validate = .ok () := by decide +kernel
  have evaluated : Demo.program.evaluate 6 6 =
      some (918, "\"factorials\"\n1\n2\n6\n24\n120\n") := by decide +kernel
  exact ⟨isScoped_demo, keeps, chunks, compiles, valid, room, evaluated,
    run_eq_of_evaluate isScoped_demo keeps compiles valid room evaluated⟩

end TreeBackend
