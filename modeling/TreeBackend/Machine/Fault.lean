import TreeBackend.Label
import TreeBackend.Machine.Config

/-!
# Machine faults

What can go wrong while the machine is loaded or runs. A fault ends the run; the
machine stays as the fault found it.
-/

namespace TreeBackend.Machine

/-- Why a run ended. -/
inductive Fault where
  | notFlat (label : Label)
  | invalidMoveTarget (target : String)
  | notCallable (label : Label)
  | notAnInteger (address : Int) (found : String)
  | notAString (address : Int)
  | builtinArity (name : String) (expected found : Nat)
  | divisionByZero
  | invalidAddress (address : Int)
  | stackOverflow (stackPointer staticTop : Int)
  | outOfMemory (requested : Int)
  | emptyRange (low high : Int)
  | unknownJumpTarget (label : Label)
  | unassignedTemp (number : Nat)
  | unknownLabel (label : Label)
  | missingEntry (label : Label)
  | output (reason : String)
  | config (error : ConfigError)
  deriving DecidableEq, Repr

namespace Fault

def message : Fault → String
  | .notFlat label => s!"body of '{label.text}' is not linearized"
  | .invalidMoveTarget target => s!"cannot move into {target}"
  | .notCallable label => s!"'{label.text}' is neither a builtin nor a function"
  | .notAnInteger address found => s!"expected an integer at address {address}, found {found}"
  | .notAString address => s!"expected a string at address {address}"
  | .builtinArity name expected found =>
      s!"builtin '{name}' expects {expected} arguments, got {found}"
  | .divisionByZero => "division by zero"
  | .invalidAddress address => s!"invalid address {address}"
  | .stackOverflow stackPointer staticTop =>
      s!"stack overflow: stack pointer {stackPointer} below static data ending at {staticTop}"
  | .outOfMemory requested => s!"no room for {requested} bytes of static data"
  | .emptyRange low high => s!"rand_int range [{low}, {high}) is empty"
  | .unknownJumpTarget label => s!"jump to unknown label '{label.text}'"
  | .unassignedTemp number => s!"temporary t{number} read before assignment"
  | .unknownLabel label => s!"unknown label '{label.text}'"
  | .missingEntry label => s!"no code chunk labelled '{label.text}'"
  | .output reason => s!"output failed: {reason}"
  | .config error => error.message

def report (fault : Fault) : String := "Runtime error: " ++ fault.message

end Fault

end TreeBackend.Machine
