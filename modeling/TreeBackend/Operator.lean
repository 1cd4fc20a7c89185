import TreeBackend.Word

/-!
# Operators

The operators that compute a word from two words. Source programs and
intermediate code share them.
-/

namespace TreeBackend

/-- An operator on two words. -/
inductive Operator where
  | add
  | sub
  | mul
  | div
  | mod
  | and
  | or
  | eq
  | neq
  | lt
  | gt
  | leq
  | geq
  deriving DecidableEq, Repr

namespace Operator

def all : List Operator :=
  [.add, .sub, .mul, .div, .mod, .and, .or, .eq, .neq, .lt, .gt, .leq, .geq]

/-- The mnemonic of an operator in outlines of intermediate code. -/
def mnemonic : Operator → String
  | .add => "ADD"
  | .sub => "SUB"
  | .mul => "MUL"
  | .div => "DIV"
  | .mod => "MOD"
  | .and => "AND"
  | .or => "OR"
  | .eq => "EQ"
  | .neq => "NEQ"
  | .lt => "LT"
  | .gt => "GT"
  | .leq => "LEQ"
  | .geq => "GEQ"

def ofMnemonic? (mnemonic : String) : Option Operator :=
  all.find? fun operator => operator.mnemonic == mnemonic

/-- The name of an operator in one-line forms of intermediate code. -/
def name : Operator → String
  | .add => "Add"
  | .sub => "Sub"
  | .mul => "Mul"
  | .div => "Div"
  | .mod => "Mod"
  | .and => "And"
  | .or => "Or"
  | .eq => "Eq"
  | .neq => "Neq"
  | .lt => "Lt"
  | .gt => "Gt"
  | .leq => "Leq"
  | .geq => "Geq"

/-- The result of an operator. Division truncates towards zero, a remainder has
the sign of the dividend, and neither has a result for a zero divisor. Any word
but zero counts as true. -/
def apply (operator : Operator) (left right : Int) : Option Int :=
  match operator with
  | .add => some (Word.wrap (left + right))
  | .sub => some (Word.wrap (left - right))
  | .mul => some (Word.wrap (left * right))
  | .div => if right = 0 then none else some (Word.wrap (left.tdiv right))
  | .mod => if right = 0 then none else some (Word.wrap (left.tmod right))
  | .and => some (Word.ofBool (left != 0 && right != 0))
  | .or => some (Word.ofBool (left != 0 || right != 0))
  | .eq => some (Word.ofBool (left == right))
  | .neq => some (Word.ofBool (left != right))
  | .lt => some (Word.ofBool (decide (left < right)))
  | .gt => some (Word.ofBool (decide (right < left)))
  | .leq => some (Word.ofBool (decide (left ≤ right)))
  | .geq => some (Word.ofBool (decide (right ≤ left)))

theorem ofMnemonic?_mnemonic (operator : Operator) :
    ofMnemonic? operator.mnemonic = some operator := by
  cases operator <;> decide

/-- Only a division by zero has no result. -/
theorem apply_eq_none_iff (operator : Operator) (left right : Int) :
    operator.apply left right = none ↔ (operator = .div ∨ operator = .mod) ∧ right = 0 := by
  cases operator <;> simp [apply]

end Operator

end TreeBackend
