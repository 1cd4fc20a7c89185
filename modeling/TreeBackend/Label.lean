/-!
# Labels

A label names an address. What has a name in the source keeps that name; nested
functions, jump targets and string constants get numbered labels from a supply,
which keeps them apart within one compilation.
-/

namespace TreeBackend

/-- A symbolic address. A named label differs from every numbered one, even if
both have the same text. -/
inductive Label where
  | named (name : String)
  | anonymous (number : Nat)
  deriving DecidableEq, Repr

namespace Label

def framePointer : Label := .named "\x7bFP\x7d"

def stackPointer : Label := .named "\x7bSP\x7d"

def text : Label → String
  | .named name => name
  | .anonymous number => "L" ++ toString number

end Label

/-- The numbered labels that have not been drawn yet. -/
structure LabelSupply where
  issued : Nat := 0
  deriving DecidableEq, Repr

namespace LabelSupply

def next (supply : LabelSupply) : Label := .anonymous supply.issued

def rest (supply : LabelSupply) : LabelSupply := ⟨supply.issued + 1⟩

end LabelSupply

end TreeBackend
