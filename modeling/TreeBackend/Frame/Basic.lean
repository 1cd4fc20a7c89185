import TreeBackend.Label
import TreeBackend.Word

/-!
# Frames

The activation record of a function. The frame pointer points at the word that
holds the static link and later the result; the parameters lie above it, in the
area that the caller keeps for outgoing arguments. Below it, from top to bottom,
lie the locals, the saved frame pointer of the caller, the return address, and
the area for arguments of calls that the function makes itself; the stack pointer
points at the lowest word of that area.

A frame grows while the definition of its function is read.  Sizes are words: those
of locals can overflow, while parameters and arguments take one word at most each, and
there are never enough of them.
-/

namespace TreeBackend

/-- The layout of the activation record of a function. -/
structure Frame where
  /-- The label by which the function is called. -/
  label : Label
  /-- How deep the definition is nested; a function outside all others has level one. -/
  level : Nat
  /-- The bytes of the incoming parameters, with those of the static link. -/
  parametersSize : Int := 0
  /-- The bytes of the local variables. -/
  localsSize : Int := 0
  /-- The bytes of the largest group of outgoing arguments. -/
  argumentsSize : Int := 0
  deriving DecidableEq, Repr

namespace Frame

/-- How far below the frame pointer the frame pointer of the caller is saved. -/
def savedPointerOffset (frame : Frame) : Int := Word.wrap (frame.localsSize + Word.size)

/-- The bytes that a call takes from the stack: the locals, the saved frame
pointer, the return address and the outgoing arguments. -/
def size (frame : Frame) : Int :=
  Word.wrap (frame.localsSize + 2 * Word.size + frame.argumentsSize)

def topAt (frame : Frame) (framePointer : Int) : Int := Word.wrap (framePointer - frame.size)

def savedAt (frame : Frame) (framePointer : Int) : Int :=
  Word.wrap (framePointer - frame.savedPointerOffset)

/-- Takes room for the next parameter. Gives its offset from the frame pointer. -/
def reserveParameter (frame : Frame) (size : Int) : Int × Frame :=
  (frame.parametersSize, { frame with parametersSize := frame.parametersSize + size })

/-- Takes room for the next local variable, below the ones before. Gives its
offset from the frame pointer. -/
def reserveLocal (frame : Frame) (size : Int) : Int × Frame :=
  let localsSize := Word.wrap (frame.localsSize + size)
  (Word.wrap (-localsSize), { frame with localsSize })

/-- Makes room for the arguments of a call, which may lie where those of other
calls lie. -/
def reserveCall (frame : Frame) (size : Int) : Frame :=
  { frame with argumentsSize := max frame.argumentsSize size }

end Frame

end TreeBackend
