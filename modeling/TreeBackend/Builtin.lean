import TreeBackend.Source.Ty

/-!
# Builtin functions

The functions that the machine carries out itself. A call to one of their names
is a call to the builtin, whatever else has that name.
-/

namespace TreeBackend

open Source (Ty)

/-- A function that the machine carries out itself. -/
inductive Builtin where
  | printInt
  | printStr
  | printLog
  | randInt
  | seed
  deriving DecidableEq, Repr

namespace Builtin

def all : List Builtin := [.printInt, .printStr, .printLog, .randInt, .seed]

def name : Builtin → String
  | .printInt => "print_int"
  | .printStr => "print_str"
  | .printLog => "print_log"
  | .randInt => "rand_int"
  | .seed => "seed"

def ofName? (name : String) : Option Builtin := all.find? fun builtin => builtin.name == name

def parameterTypes : Builtin → List Ty
  | .printInt | .seed => [.int]
  | .printStr => [.str]
  | .printLog => [.log]
  | .randInt => [.int, .int]

/-- The number of arguments that a program passes. A call in intermediate code
passes the static link as one more, in front of them. -/
def arity (builtin : Builtin) : Nat := builtin.parameterTypes.length

def resultType : Builtin → Ty
  | .printInt | .randInt => .int
  | .printStr => .str
  | .printLog => .log
  | .seed => .void

theorem ofName?_eq_some_iff {name : String} {builtin : Builtin} :
    ofName? name = some builtin ↔ builtin.name = name := by
  constructor
  · intro found
    simpa using List.find?_some found
  · rintro rfl
    cases builtin <;> decide

end Builtin

end TreeBackend
