import TreeBackend.Diagnostic.Excerpt

/-!
# Compile errors

What can be wrong with a program that is handed over for compilation. A front
end is expected to rule all of this out, so every compile error is reported as
an internal one. It stands at the node that cannot be compiled, except where
intermediate code cannot be flattened, for that has no place in the source.
-/

namespace TreeBackend

open Source (Span)

/-- Why a node cannot be compiled. -/
inductive Cause where
  | missingFrame (function : String)
  | missingAccess (name : String)
  | missingType (what : String)
  | missingDefinition (name : String)
  | unexpectedDefinition (name : String)
  | expectedExpression (what : String)
  | emptyBlock
  | invalidCounter
  | callOutsideFunction (name : String)
  deriving DecidableEq, Repr

/-- Why a program cannot be compiled. -/
inductive CompileError where
  | located (cause : Cause) (span : Span)
  | unflattenable (what : String)
  deriving DecidableEq, Repr

def Cause.message : Cause → String
  | .missingFrame function => s!"no frame for function '{function}'"
  | .missingAccess name => s!"no access for definition '{name}'"
  | .missingType what => s!"no type for {what}"
  | .missingDefinition name => s!"'{name}' is not bound to a definition"
  | .unexpectedDefinition name => s!"'{name}' is bound to a definition of the wrong kind"
  | .expectedExpression what => s!"{what} must lower to an expression"
  | .emptyBlock => "block has no trailing expression"
  | .invalidCounter => "for loop counter must be a variable"
  | .callOutsideFunction name => s!"call to '{name}' outside of a function body"

namespace CompileError

/-- The wording of an error, without its place. -/
def message : CompileError → String
  | .located cause _ => cause.message
  | .unflattenable what => s!"cannot linearize {what}"

def span? : CompileError → Option Span
  | .located _ span => if span.source.isEmpty then none else some span
  | .unflattenable _ => none

/-- The report of an error, with an excerpt if there is a text. There is no
report for a span that does not fit its text. -/
def report? (style : Diagnostic.Style) (error : CompileError) : Option String :=
  let message := "compiler error. " ++ error.message
  match error.span? with
  | some span => Diagnostic.excerpt? style span message
  | none => some ("Internal error: " ++ message)

end CompileError

end TreeBackend
