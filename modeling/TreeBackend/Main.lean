import TreeBackend.CommandLine

/-!
# The command

Hands the arguments to the command line and writes what it answers.
-/

open TreeBackend

/-- Runs the command with its arguments. -/
def main (arguments : List String) : IO UInt32 := do
  let entropy := Random.keyOfBytes (← IO.getRandomBytes 32).toList
  let start : CommandLine.Request := { config := { generator := .keystream entropy } }
  let outcome := CommandLine.respond CommandLine.statementLimit start arguments
  (← IO.getStdout).write outcome.output
  IO.eprint outcome.errors
  return outcome.exitCode.toUInt32
