/-!
# Writers

What a program prints goes to a writer from outside.  It is offered bytes, of which it may take
some and leave the rest, and it may fail whenever it is offered something.  All of a text is
written by offering again what was left.
-/

namespace TreeBackend.Machine

/-- What a writer answers when it is offered bytes: it has taken some of them, or it fails for a
reason. If it is interrupted, then the offer is repeated, so this is what it answers in the end. -/
inductive Answer where
  | takes (count : Nat)
  | fails (reason : String)
  deriving DecidableEq, Repr

/-- A writer. What it remembers is a list of numbers. -/
structure Writer where
  /-- Answers an offer of bytes. -/
  answer : (memory : List Nat) → (offered : List UInt8) → Answer × List Nat

def Writer.unlimited : Writer := ⟨fun memory offered => (.takes offered.length, memory)⟩

/-- A writer with what it remembers and the bytes that it has taken. -/
@[ext]
structure Sink where
  writer : Writer := .unlimited
  memory : List Nat := []
  written : ByteArray := .empty

namespace Sink

def wholeBufferReason : String := "failed to write whole buffer"

/-- Offers bytes until all of them have been taken; a number of them has been already. -/
def writeAll : (taken : Nat) → List UInt8 → Sink → EStateM.Result String Sink Unit
  | _, [], sink => .ok () sink
  | taken + 1, _ :: rest, sink => writeAll taken rest sink
  | 0, byte :: rest, ⟨writer, memory, written⟩ =>
      match writer.answer memory (byte :: rest) with
      | (.takes 0, memory) => .error wholeBufferReason ⟨writer, memory, written⟩
      | (.takes (more + 1), memory) =>
          writeAll more rest
            ⟨writer, memory, written ++ (byte :: rest.take more).toByteArray⟩
      | (.fails reason, memory) => .error reason ⟨writer, memory, written⟩

def write (sink : Sink) (text : String) : EStateM.Result String Sink Unit :=
  sink.writeAll 0 text.toUTF8.data.toList

end Sink

end TreeBackend.Machine
