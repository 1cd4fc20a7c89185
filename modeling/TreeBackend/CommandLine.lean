import TreeBackend.Demo
import TreeBackend.Pipeline
import TreeBackend.Text.Numeral

/-!
# The command line

The command runs the demonstration program. It takes the size of the memory and a
seed, in this order, and anywhere among them a flag that shows the code first.
Arguments are read from left to right, and the first one that is wrong counts.
-/

namespace TreeBackend.CommandLine

open Text (NumeralError NumeralRange)

/-- What the command is asked to do. -/
structure Request where
  config : Machine.Config := {}
  showCode : Bool := false
  /-- The number of arguments so far that are no flags. -/
  values : Nat := 0

/-- What the command leaves behind. -/
structure Outcome where
  exitCode : UInt8 := 0
  output : ByteArray := .empty
  errors : String := ""

/-- Why the command does not do what it is asked to do. -/
inductive Failure where
  | badNumber (what argument : String) (cause : NumeralError)
  | usage
  | runFailed (report : String)
  deriving DecidableEq, Repr

def Failure.message : Failure → String
  | .badNumber what argument cause =>
      s!"invalid {what} '{argument}'\n\nCaused by:\n    " ++ cause.message
  | .usage => "usage: pins [memory_size] [seed] [--dump-ir]"
  | .runFailed report => report

def readArgument (request : Request) (argument : String) : Except Failure Request :=
  if argument == "--dump-ir" then .ok { request with showCode := true }
  else
    let next := { request with values := request.values + 1 }
    match request.values with
    | 0 =>
        match Text.readNumeral .signed64 argument with
        | .ok memorySize => .ok { next with config := { next.config with memorySize } }
        | .error cause => .error (.badNumber "memory size" argument cause)
    | 1 =>
        match Text.readNumeral .unsigned64 argument with
        | .ok seed =>
            .ok { next with config := { next.config with seed := some (UInt64.ofInt seed) } }
        | .error cause => .error (.badNumber "seed" argument cause)
    | _ => .error .usage

/-- The code of a program as the command shows it. -/
def showChunks (chunks : List IR.Chunk) : String :=
  String.join (chunks.map fun chunk => chunk.text ++ "\n\n")

/-- The failure of a run. A compile error whose span does not fit its text has no
report of its own. -/
def ofRunError : RunError → Failure
  | .compile error => .runFailed ((error.report? .plain).getD error.message)
  | .interrupted (.fault fault) => .runFailed fault.report
  | .interrupted .outOfFuel => .runFailed "the program does not end"

def fail (output : ByteArray) (failure : Failure) : Outcome :=
  { exitCode := 1, output, errors := "Error: " ++ failure.message ++ "\n" }

def perform (fuel : Nat) (request : Request) : Outcome :=
  match compile Demo.program with
  | .error error => fail .empty (ofRunError (.compile error))
  | .ok chunks =>
      let shown := if request.showCode then showChunks chunks else ""
      let report := runChunks fuel chunks request.config {}
      let output := shown.toUTF8 ++ report.output
      match report.result with
      | .ok result => { output := output ++ ("main returned " ++ toString result ++ "\n").toUTF8 }
      | .error error => fail output (ofRunError error)

/-- The most statements that the command runs, more than anyone can wait for. -/
def statementLimit : Nat := 4611686018427387904

/-- What the command does with its arguments. -/
def respond (fuel : Nat) (start : Request) (arguments : List String) : Outcome :=
  match arguments.foldlM readArgument start with
  | .ok request => perform fuel request
  | .error failure => fail .empty failure

end TreeBackend.CommandLine
