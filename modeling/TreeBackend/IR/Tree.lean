import TreeBackend.Label
import TreeBackend.Operator

/-!
# Intermediate code

Expressions compute a word, statements have an effect. Straight out of lowering
the two nest freely: an `eseq` runs a statement before its value is computed, and
a sequence may hold sequences. Flat code, the form that the machine runs, is one
sequence of statements without either.
-/

namespace TreeBackend.IR

/-- A temporary. Every activation of a function has temporaries of its own. -/
structure Temp where
  number : Nat
  deriving DecidableEq, Repr

/-- The temporaries that have not been drawn yet. -/
structure TempSupply where
  issued : Nat := 0
  deriving DecidableEq, Repr

namespace TempSupply

def next (supply : TempSupply) : Temp := ⟨supply.issued⟩

def rest (supply : TempSupply) : TempSupply := ⟨supply.issued + 1⟩

end TempSupply

mutual

/-- An expression of intermediate code. -/
inductive Expr where
  /-- A constant. -/
  | const (value : Int)
  /-- The address of a label. -/
  | name (label : Label)
  /-- The value of a temporary. -/
  | temp (temp : Temp)
  /-- The word at an address. -/
  | mem (address : Expr)
  /-- An operator applied to the values of two expressions. -/
  | binop (operator : Operator) (left right : Expr)
  /-- The result of a call. -/
  | call (label : Label) (arguments : List Expr)
  /-- The value of an expression after a statement. -/
  | eseq (effect : Stmt) (value : Expr)

/-- A statement of intermediate code. -/
inductive Stmt where
  /-- Statements in a row. -/
  | seq (items : List Stmt)
  /-- A place to jump to. -/
  | label (label : Label)
  /-- A jump. -/
  | jump (target : Label)
  /-- A jump to one of two places. -/
  | cjump (condition : Expr) (whenTrue whenFalse : Label)
  /-- An expression for its effect. -/
  | exp (value : Expr)
  /-- A store to the word or the temporary that the target stands for. -/
  | move (target source : Expr)

end

namespace Expr

def framePointer : Expr := .name .framePointer

def stackPointer : Expr := .name .stackPointer

mutual

def isPlain : Expr → Bool
  | .const _ | .name _ | .temp _ => true
  | .mem address => address.isPlain
  | .binop _ left right => left.isPlain && right.isPlain
  | .call _ arguments => arePlain arguments
  | .eseq .. => false

/-- Whether all expressions of a list are free of `eseq`. -/
def arePlain : List Expr → Bool
  | [] => true
  | expression :: rest => expression.isPlain && arePlain rest

end

/-- Whether no statement can change the value of an expression: that of a
constant, a name or a temporary. -/
def isFixed : Expr → Bool
  | .const _ | .name _ | .temp _ => true
  | _ => false

end Expr

namespace Stmt

/-- Whether a statement is a single one, free of `eseq`. -/
def isPlain : Stmt → Bool
  | .seq _ => false
  | .label _ | .jump _ => true
  | .cjump condition _ _ => condition.isPlain
  | .exp value => value.isPlain
  | .move target source => target.isPlain && source.isPlain

/-- Whether a statement is flat: a sequence of plain statements. -/
def isFlat : Stmt → Bool
  | .seq items => items.all isPlain
  | _ => false

end Stmt

end TreeBackend.IR
