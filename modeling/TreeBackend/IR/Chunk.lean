import TreeBackend.Frame.Storage
import TreeBackend.IR.Outline
import TreeBackend.Text.Quoted

/-!
# Chunks

A compiled program is a list of chunks: a function with its frame and its body,
a string constant, or a global variable. Each has a label and a place in the
static area of the machine.
-/

namespace TreeBackend.IR

/-- A piece of a compiled program. -/
inductive Chunk where
  | code (frame : Frame) (body : Stmt)
  | data (slot : GlobalSlot) (text : String)
  | global (slot : GlobalSlot)

namespace Chunk

def outline : Chunk → List OutlineLine
  | .code frame body =>
      ⟨0, "CODE " ++ frame.label.text ++ " (level " ++ toString frame.level ++ ", size " ++
        toString frame.size ++ ", old fp at -" ++ toString frame.savedPointerOffset ++ ")"⟩ ::
        body.outline 1
  | .data slot text =>
      [⟨0, "DATA " ++ slot.label.text ++ " (size " ++ toString slot.size ++ ") " ++
        Text.quote text⟩]
  | .global slot =>
      [⟨0, "GLOBAL " ++ slot.label.text ++ " (size " ++ toString slot.size ++ ")"⟩]

def text (chunk : Chunk) : String := renderOutline chunk.outline

end Chunk

end TreeBackend.IR
