import TreeBackend.Frame.Storage
import TreeBackend.IR.Tree
import TreeBackend.Source.Tree

/-!
# The code of each construct

What the constructs of the source language become, given the code of their parts
and the labels and temporaries they need. Nothing here looks anything up.

A variable of an enclosing function is reached by static links: the word at the
frame pointer of a nested function is the frame pointer of the function around
it, so one load leads one level out.
-/

namespace TreeBackend.Lowering

open Source (UnaryOperator)
open IR (Expr Stmt Temp)

/-- The frame pointer of the function that lies the given number of levels out. -/
def enclosingFrame : (hops : Nat) → Expr
  | 0 => .framePointer
  | hops + 1 => .mem (enclosingFrame hops)

/-- The static link that a function of one level passes to a callee of another.
A function outside all others needs none; a function nested in the caller gets
the frame of the caller. -/
def staticLink (level calleeLevel : Nat) : Expr :=
  if calleeLevel ≤ 1 then .const 0
  else if level < calleeLevel then .framePointer
  else enclosingFrame (level - calleeLevel + 1)

/-- The cell at an offset in a frame that belongs to the given level, seen from a
level that is not further out. -/
def stackCell? (level : Nat) (slot : StackSlot) : Option Expr :=
  if slot.level ≤ level then
    some (.mem (.binop .add (enclosingFrame (level - slot.level)) (.const slot.offset)))
  else none

/-- The cell of a variable or a parameter, seen from a function of the given level. -/
def cell? (level : Nat) : Storage → Option Expr
  | .global slot => some (.mem (.name slot.label))
  | .localVar slot | .parameter slot => stackCell? level slot

/-- The address that an array is given by: that of its cell, or a value that is
an address itself. -/
def baseAddress : Expr → Expr
  | .mem address => address
  | value => value

def elementCell (base index : Expr) (elementSize : Int) : Expr :=
  .mem (.binop .add (baseAddress base) (.binop .mul index (.const elementSize)))

/-- Whether an address is made of constants, names and temporaries only, so that
computing it twice is the same as computing it once. -/
def isRepeatable : Expr → Bool
  | .const _ | .name _ | .temp _ => true
  | .binop _ left right => isRepeatable left && isRepeatable right
  | _ => false

/-- An assignment to a target that may be computed twice. -/
def assignment (target value : Expr) : Expr := .eseq (.move target value) target

/-- An assignment to the cell at an address that is to be computed once, before
the value, and kept in a temporary. -/
def assignmentOnce (address value : Expr) (temp : Temp) : Expr :=
  .eseq (.seq [.move (.temp temp) address, .move (.mem (.temp temp)) value]) (.mem (.temp temp))

/-- An operator applied to one operand. Truth values are 0 and 1, so the negation
of `x` is `(x - 1) * -1`. -/
def unary : UnaryOperator → Expr → Expr
  | .plus, operand => operand
  | .minus, operand => .binop .sub (.const 0) operand
  | .not, operand => .binop .mul (.binop .sub operand (.const 1)) (.const (-1))

/-- What a call has to know about the function that it calls. -/
structure Callee where
  label : Label
  level : Nat
  /-- Where the callee keeps the frame pointer of its caller, if it has a frame. -/
  savedPointerOffset : Option Int
  deriving DecidableEq, Repr

/-- What a call does first: save the frame pointer where the callee will keep it. -/
def savePointer : Option Int → Stmt
  | some offset =>
      .move (.mem (.binop .sub .stackPointer (.const offset))) .framePointer
  | none => .seq []

def call (level : Nat) (callee : Callee) (arguments : List Expr) : Expr :=
  .eseq (savePointer callee.savedPointerOffset)
    (.call callee.label (staticLink level callee.level :: arguments))

/-- The labels of a conditional or a loop. -/
structure Labels where
  first : Label
  second : Label
  third : Label
  deriving DecidableEq, Repr

/-- A conditional without an alternative. The first label is that of the branch,
the third one ends the conditional; the second one is for an alternative. -/
def ifThen (labels : Labels) (condition : Expr) (thenBranch : Stmt) : Stmt :=
  .seq [.cjump condition labels.first labels.third,
    .label labels.first, thenBranch, .jump labels.third,
    .label labels.third]

def ifThenElse (labels : Labels) (condition : Expr) (thenBranch elseBranch : Stmt) : Stmt :=
  .seq [.cjump condition labels.first labels.second,
    .label labels.first, thenBranch, .jump labels.third,
    .label labels.second, elseBranch, .jump labels.third,
    .label labels.third]

/-- A loop that runs while its condition holds. The labels are those of the
condition, the body and the end. -/
def whileLoop (labels : Labels) (condition : Expr) (body : Stmt) : Stmt :=
  .seq [.label labels.first,
    .cjump condition labels.second labels.third,
    .label labels.second, body, .jump labels.first,
    .label labels.third]

/-- A loop that counts up to its upper bound, which does not belong to the range.
The bound and the step are computed once. The labels are those of the body, the
end and the condition. -/
def forLoop (labels : Labels) (bound stride : Temp) (counter low high step : Expr)
    (body : Stmt) : Stmt :=
  .seq [.move counter low, .move (.temp bound) high, .move (.temp stride) step,
    .label labels.third,
    .cjump (.binop .lt counter (.temp bound)) labels.first labels.second,
    .label labels.first, body,
    .move counter (.binop .add counter (.temp stride)),
    .jump labels.third,
    .label labels.second]

/-- The body of a function: its result goes to the word of the static link, where
the caller reads it. -/
def functionBody (result : Expr) : Stmt := .move (.mem .framePointer) result

end TreeBackend.Lowering
