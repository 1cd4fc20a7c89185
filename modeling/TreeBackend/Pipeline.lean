import TreeBackend.Flattening
import TreeBackend.Frame.Layout
import TreeBackend.Lowering.Program
import TreeBackend.Machine.Execution

/-!
# From a program to its result

Compilation lays out the frames of a program, lowers it and flattens the code.
Labels and temporaries start from zero in every compilation, so the same program
always compiles to the same chunks.
-/

namespace TreeBackend

open Source (Program)

/-- The flat code of a program. -/
def compile (program : Program) : Except CompileError (List IR.Chunk) := do
  let (frames, labels) ← Layout.ofProgram program {}
  let lowered ← Lowering.ofProgram program frames labels {}
  let (chunks, _) ← (Flattening.ofChunks lowered.chunks).run lowered.temps
  return chunks

/-- Why a program has no result. -/
inductive RunError where
  | compile (error : CompileError)
  | interrupted (reason : Machine.Interruption)
  deriving DecidableEq, Repr

/-- The result of a program and the bytes that it has printed. -/
structure RunReport where
  result : Except RunError Int
  output : ByteArray

/-- Runs the main function of a loaded machine, with what it prints going to a sink. -/
def Machine.runMain (fuel : Nat) (machine : Machine) (sink : Machine.Sink) :
    Except RunError Int × Machine :=
  match (Machine.interpret fuel Machine.mainLabel).run { machine with output := some sink } with
  | .ok result machine => (.ok result, machine)
  | .error reason machine => (.error (.interrupted reason), machine)

def Machine.printed (machine : Machine) : ByteArray := (machine.output.map (·.written)).getD .empty

/-- Runs the main function of compiled code. -/
def runChunks (fuel : Nat) (chunks : List IR.Chunk) (config : Machine.Config)
    (sink : Machine.Sink) : RunReport :=
  match Machine.load chunks config with
  | .error fault => ⟨.error (.interrupted (.fault fault)), .empty⟩
  | .ok machine =>
      let (result, machine) := machine.runMain fuel sink
      ⟨result, machine.printed⟩

/-- Compiles a program and runs its main function, for at most the given number of
statements. -/
def run (fuel : Nat) (program : Program) (config : Machine.Config) (sink : Machine.Sink) :
    RunReport :=
  match compile program with
  | .error error => ⟨.error (.compile error), .empty⟩
  | .ok chunks => runChunks fuel chunks config sink

end TreeBackend
