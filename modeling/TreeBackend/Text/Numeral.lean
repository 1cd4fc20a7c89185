/-!
# Reading decimal numerals

A numeral is an optional sign and at least one ASCII digit. It is read from left
to right, so that of two things wrong with it the one further left is reported.
-/

namespace TreeBackend.Text

/-- Why a text is no numeral of the wanted range. -/
inductive NumeralError where
  | empty
  | invalidDigit
  | tooLarge
  | tooSmall
  deriving DecidableEq, Repr

/-- The wording of the reason. -/
def NumeralError.message : NumeralError → String
  | .empty => "cannot parse integer from empty string"
  | .invalidDigit => "invalid digit found in string"
  | .tooLarge => "number too large to fit in target type"
  | .tooSmall => "number too small to fit in target type"

/-- The integers a numeral may denote. A minus sign is a digit like any other,
and thus invalid, where no negative number is allowed. -/
structure NumeralRange where
  lowest : Int
  highest : Int

namespace NumeralRange

/-- The signed integers of 64 bits. -/
def signed64 : NumeralRange := ⟨-9223372036854775808, 9223372036854775807⟩

/-- The unsigned integers of 64 bits. -/
def unsigned64 : NumeralRange := ⟨0, 18446744073709551615⟩

end NumeralRange

def digitValue? (c : Char) : Option Int :=
  if '0' ≤ c ∧ c ≤ '9' then some (c.toNat - '0'.toNat : Nat) else none

def readDigits (range : NumeralRange) (sign : Int) : Int → List Char → Except NumeralError Int
  | number, [] => .ok number
  | number, c :: rest =>
      match digitValue? c with
      | none => .error .invalidDigit
      | some digit =>
          let next := number * 10 + sign * digit
          if range.highest < next then .error .tooLarge
          else if next < range.lowest then .error .tooSmall
          else readDigits range sign next rest

def readNumeral (range : NumeralRange) (text : String) : Except NumeralError Int :=
  match text.toList with
  | [] => .error .empty
  | ['+'] | ['-'] => .error .invalidDigit
  | '+' :: digits => readDigits range 1 0 digits
  | '-' :: digits =>
      if range.lowest < 0 then readDigits range (-1) 0 digits else .error .invalidDigit
  | digits => readDigits range 1 0 digits

end TreeBackend.Text
