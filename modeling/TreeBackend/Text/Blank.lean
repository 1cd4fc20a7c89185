/-!
# Blank characters

The characters with the property of being white space, and the removal of blanks
from the end of a text.
-/

namespace TreeBackend.Text

/-- Ranges of the code points of blank characters, in ascending order. -/
def blankRanges : List (Nat × Nat) :=
  [(0x9, 0xD), (0x20, 0x20), (0x85, 0x85), (0xA0, 0xA0), (0x1680, 0x1680), (0x2000, 0x200A),
    (0x2028, 0x2029), (0x202F, 0x202F), (0x205F, 0x205F), (0x3000, 0x3000)]

def inRanges (ranges : List (Nat × Nat)) (codePoint : Nat) : Bool :=
  ranges.any fun range => range.1 ≤ codePoint && codePoint ≤ range.2

/-- Whether a character is white space. -/
def isBlank (c : Char) : Bool := inRanges blankRanges c.toNat

def dropBlankEnd (characters : List Char) : List Char :=
  (characters.reverse.dropWhile isBlank).reverse

def trimEnd (text : String) : String := String.ofList (dropBlankEnd text.toList)

end TreeBackend.Text
