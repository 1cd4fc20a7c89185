import TreeBackend.Word

/-!
# Types of the source language

The types that a variable, a parameter or an expression can have, the storage
they need, and their text.
-/

namespace TreeBackend.Source

/-- A type of the source language. -/
inductive Ty where
  | int
  | log
  | str
  | void
  | array (length : Int) (element : Ty)
  | function (parameters : List Ty) (result : Ty)
  deriving Repr

namespace Ty

mutual

/-- Decides whether two types are the same. -/
def decideEq : (first second : Ty) → Decidable (first = second)
  | .int, .int | .log, .log | .str, .str | .void, .void => isTrue rfl
  | .array firstLength firstElement, .array secondLength secondElement =>
      match decEq firstLength secondLength, decideEq firstElement secondElement with
      | isTrue lengths, isTrue elements => isTrue (by rw [lengths, elements])
      | isFalse lengths, _ => isFalse fun equal => lengths (by injection equal)
      | _, isFalse elements => isFalse fun equal => elements (by injection equal)
  | .function firstParameters firstResult, .function secondParameters secondResult =>
      match decideListEq firstParameters secondParameters, decideEq firstResult secondResult with
      | isTrue parameters, isTrue results => isTrue (by rw [parameters, results])
      | isFalse parameters, _ => isFalse fun equal => parameters (by injection equal)
      | _, isFalse results => isFalse fun equal => results (by injection equal)
  | .int, .log | .int, .str | .int, .void | .int, .array .. | .int, .function ..
  | .log, .int | .log, .str | .log, .void | .log, .array .. | .log, .function ..
  | .str, .int | .str, .log | .str, .void | .str, .array .. | .str, .function ..
  | .void, .int | .void, .log | .void, .str | .void, .array .. | .void, .function ..
  | .array .., .int | .array .., .log | .array .., .str | .array .., .void
  | .array .., .function .. | .function .., .int | .function .., .log | .function .., .str
  | .function .., .void | .function .., .array .. => isFalse (by simp)

/-- Decides whether two lists of types are the same. -/
def decideListEq : (first second : List Ty) → Decidable (first = second)
  | [], [] => isTrue rfl
  | first :: firstRest, second :: secondRest =>
      match decideEq first second, decideListEq firstRest secondRest with
      | isTrue heads, isTrue tails => isTrue (by rw [heads, tails])
      | isFalse heads, _ => isFalse fun equal => heads (by injection equal)
      | _, isFalse tails => isFalse fun equal => tails (by injection equal)
  | [], _ :: _ | _ :: _, [] => isFalse (by simp)

end

instance : DecidableEq Ty := decideEq

/-- The bytes that a parameter of a type takes: one word, also for an array or a
function, but nothing for `void`. -/
def parameterSize : Ty → Int
  | .void => 0
  | .int | .log | .str | .array .. | .function .. => Word.size

/-- The bytes that a variable of a type takes, as far as a word can tell. -/
def storageSize : Ty → Int
  | .int | .log | .str => Word.size
  | .void => 0
  | .array length element => Word.wrap (length * element.storageSize)
  | .function parameters result =>
      Word.wrap (result.storageSize + (parameters.map parameterSize).sum)

def element? : Ty → Option Ty
  | .array _ element => some element
  | _ => none

def result? : Ty → Option Ty
  | .function _ result => some result
  | _ => none

mutual

def text : Ty → String
  | .int => "int"
  | .log => "log"
  | .str => "str"
  | .void => "void"
  | .array length element => "ARR(" ++ toString length ++ "," ++ element.text ++ ")"
  | .function parameters result => "(" ++ parametersText parameters ++ ") -> " ++ result.text

/-- The texts of a list of types with commas between them. -/
def parametersText : List Ty → String
  | [] => ""
  | [parameter] => parameter.text
  | parameter :: rest => parameter.text ++ ", " ++ parametersText rest

end

end Ty

end TreeBackend.Source
