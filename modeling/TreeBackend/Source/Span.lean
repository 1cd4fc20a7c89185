/-!
# Positions in a source text

Lines and columns count from zero; a column counts bytes of UTF-8.
-/

namespace TreeBackend.Source

/-- A line and a column of a source text. -/
structure Place where
  line : Nat := 0
  column : Nat := 0
  deriving DecidableEq, Repr

/-- A stretch of a source text, with that text. A span of the empty text is the
span of something that was not read from a text. -/
structure Span where
  start : Place := {}
  stop : Place := {}
  source : String := ""
  deriving DecidableEq, Repr

/-- The number of a node; nodes of one program have different numbers. -/
abbrev NodeId := Nat

/-- What all nodes of a program have: a number and a span. -/
structure Node where
  id : NodeId
  span : Span := {}
  deriving DecidableEq, Repr

end TreeBackend.Source
