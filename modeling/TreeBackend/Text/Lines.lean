/-!
# Lines of a text

A line ends with a line feed, or with a carriage return and a line feed. Text
after the last line feed is a line too, unless it is empty.
-/

namespace TreeBackend.Text

/-- The line whose characters were collected in reverse, without the carriage
return before its line feed. -/
def finishLine : List Char → List Char
  | '\r' :: reversed => reversed.reverse
  | reversed => reversed.reverse

/-- The lines of the characters that follow the collected part of a line. -/
def linesFrom (reversed : List Char) : List Char → List (List Char)
  | [] => if reversed.isEmpty then [] else [reversed.reverse]
  | '\n' :: rest => finishLine reversed :: linesFrom [] rest
  | c :: rest => linesFrom (c :: reversed) rest

def lines (text : String) : List String := (linesFrom [] text.toList).map String.ofList

/-- Splits characters after the given number of UTF-8 bytes. There is no such
place beyond the end, or inside the bytes of one character. -/
def splitAtByte? : Nat → List Char → Option (List Char × List Char)
  | 0, characters => some ([], characters)
  | _ + 1, [] => none
  | offset + 1, c :: rest =>
      if c.utf8Size ≤ offset + 1 then
        (splitAtByte? (offset + 1 - c.utf8Size) rest).map fun (before, after) => (c :: before, after)
      else none

end TreeBackend.Text
