import TreeBackend.Source.Span
import TreeBackend.Text.Lines

/-!
# Source excerpts

A message is shown with the lines of its span: the line before the span, the
lines of the span, and a pointer below them that carries the message. Lines are
numbered from one, and the text of the span can be coloured.
-/

namespace TreeBackend.Diagnostic

open Source (Place Span)

/-- How an excerpt marks the text of its span. -/
inductive Style where
  | plain
  | coloured
  deriving DecidableEq, Repr

/-- The sequence after which a terminal writes in red. -/
def red : List Char := ['\x1b', '[', '3', '1', 'm']

/-- The characters of a red text. A sequence within the text that ends all colours
is followed by one that starts red again. -/
def keepRed : List Char → List Char
  | '\x1b' :: '[' :: '0' :: 'm' :: rest => '\x1b' :: '[' :: '0' :: 'm' :: (red ++ keepRed rest)
  | c :: rest => c :: keepRed rest
  | [] => []

def Style.mark : Style → String → String
  | .plain, text => text
  | .coloured, text => String.ofList (red ++ keepRed text.toList) ++ "\x1b[0m"

def spaces (count : Nat) : String := String.ofList (List.replicate count ' ')

def firstLineParts? (span : Span) (line : String) : Option (String × String × String) := do
  let (before, rest) ← Text.splitAtByte? span.start.column line.toList
  if span.start.line = span.stop.line then
    if span.start.column ≤ span.stop.column then
      let (inside, after) ←
        Text.splitAtByte? (span.stop.column - span.start.column) rest
      return (String.ofList before, String.ofList inside, String.ofList after)
    else
      none
  else
    return (String.ofList before, String.ofList rest, "")

def lineBefore? (span : Span) (lines : List String) : Option String :=
  match span.start.line with
  | 0 => some ""
  | line + 1 => lines[line]?

/-- A message below an excerpt of the text of its span. There is none if the span
does not lie within its text, or ends at the start of a line. -/
def excerpt? (style : Style) (span : Span) (message : String) : Option String := do
  let lines := Text.lines span.source
  let margin := spaces (toString span.stop.line).length ++ " |"
  let preceding ← lineBefore? span lines
  let (before, inside, after) ← firstLineParts? span (← lines[span.start.line]?)
  let following ←
    (List.range' (span.start.line + 1) (span.stop.line - span.start.line)).mapM (lines[·]?)
  match span.stop.column with
  | 0 => none
  | column + 1 =>
      return margin ++ "\n" ++ margin ++ preceding ++ " \n" ++
        toString (span.start.line + 1) ++ " |" ++ before ++ style.mark inside ++ after ++
        String.join (following.map fun line => "\n" ++ margin ++ style.mark line) ++
        "\n" ++ toString (span.stop.line + 2) ++ " |" ++ spaces column ++ "^--- " ++ message ++
        "\n" ++ margin

end TreeBackend.Diagnostic
