import TreeBackend.Machine.Fault
import TreeBackend.Table
import TreeBackend.Text.Quoted

/-!
# Memory

The memory is a row of words with byte addresses. The static area grows upwards
from the second word; the stack comes down from the end. The first word belongs to
neither, so no label stands for address zero unless it is given that address.
-/

namespace TreeBackend.Machine

/-- What a word of memory holds: an integer, the text of a string constant, or
the entry of a function, by its number. -/
inductive Value where
  | int (value : Int)
  | str (text : String)
  | code (routine : Nat)
  deriving DecidableEq, Repr

namespace Value

def asInt? : Value → Option Int
  | .int value => some value
  | .str _ | .code _ => none

def text : Value → String
  | .int value => toString value
  | .str text => Text.quote text
  | .code routine => s!"<code {routine}>"

end Value

/-- Words, the addresses of labels, and the end of the static area. -/
structure Memory where
  words : Array Value
  labels : Table Label Int := {}
  staticTop : Int := Word.size

namespace Memory

/-- A memory of the given number of bytes, filled with zeros. -/
def ofSize (size : Int) : Memory :=
  { words := Array.replicate (size.tdiv Word.size).toNat (.int 0) }

def size (memory : Memory) : Int := memory.words.size * Word.size

def isAddress (memory : Memory) (address : Int) : Bool :=
  decide (0 ≤ address) && decide (address % Word.size = 0) && decide (address < memory.size)

def wordIndex (address : Int) : Nat := (address / Word.size).toNat

def read? (memory : Memory) (address : Int) : Option Value :=
  if memory.isAddress address then memory.words[wordIndex address]? else none

def write (memory : Memory) (address : Int) (value : Value) : Memory :=
  match memory with
  | ⟨words, labels, staticTop⟩ => ⟨words.setIfInBounds (wordIndex address) value, labels, staticTop⟩

/-- Reads the value at an address. -/
def load (memory : Memory) (address : Int) : Except Fault Value :=
  match memory.read? address with
  | some value => .ok value
  | none => .error (.invalidAddress address)

def loadInt (memory : Memory) (address : Int) : Except Fault Int :=
  match memory.read? address with
  | some (.int value) => .ok value
  | some value => .error (.notAnInteger address value.text)
  | none => .error (.invalidAddress address)

def store (memory : Memory) (address : Int) (value : Value) : Except Fault Memory :=
  if memory.isAddress address then .ok (memory.write address value)
  else .error (.invalidAddress address)

def address? (memory : Memory) (label : Label) : Option Int := memory.labels.get? label

def register (memory : Memory) (label : Label) (address : Int) : Memory :=
  match memory with
  | ⟨words, labels, staticTop⟩ => ⟨words, labels.insert label address, staticTop⟩

def loadLabel (memory : Memory) (label : Label) : Except Fault Value :=
  match memory.address? label with
  | some address => memory.load address
  | none => .error (.unknownLabel label)

/-- The end of the static area behind something of the given size, which takes whole words and
at least one. It is computed in a word. -/
def topAfter (memory : Memory) (size : Int) : Int :=
  let words := (Word.wrap (max size Word.size + Word.size - 1)).tdiv Word.size
  Word.wrap (memory.staticTop + words * Word.size)

/-- Takes room at the end of the static area. Gives the address of the room. -/
def allocate (memory : Memory) (size : Int) : Except Fault (Int × Memory) :=
  let top := memory.topAfter size
  if memory.size < top then .error (.outOfMemory size)
  else .ok (memory.staticTop, { memory with staticTop := top })

theorem isAddress_iff (memory : Memory) (address : Int) :
    memory.isAddress address = true ↔
      0 ≤ address ∧ address % Word.size = 0 ∧ address < memory.size := by
  simp [isAddress, and_assoc]

theorem wordIndex_lt {memory : Memory} {address : Int} (valid : memory.isAddress address = true) :
    wordIndex address < memory.words.size := by
  rw [isAddress_iff] at valid
  simp only [wordIndex, size, Word.size] at valid ⊢
  omega

theorem wordIndex_ne {memory : Memory} {first second : Int}
    (firstValid : memory.isAddress first = true) (secondValid : memory.isAddress second = true)
    (different : first ≠ second) : wordIndex first ≠ wordIndex second := by
  rw [isAddress_iff] at firstValid secondValid
  simp only [wordIndex, size, Word.size] at firstValid secondValid ⊢
  omega

@[simp] theorem size_write (memory : Memory) (address : Int) (value : Value) :
    (memory.write address value).size = memory.size := by
  simp [write, size]

@[simp] theorem isAddress_write (memory : Memory) (address other : Int) (value : Value) :
    (memory.write address value).isAddress other = memory.isAddress other := by
  simp [isAddress]

/-- A write changes the word at its address and no other. -/
theorem read?_write (memory : Memory) {address : Int} (value : Value) (other : Int)
    (valid : memory.isAddress address = true) :
    (memory.write address value).read? other =
      if address = other then some value else memory.read? other := by
  unfold read?
  rw [isAddress_write]
  by_cases same : address = other
  · subst same
    simp [valid, write, wordIndex_lt valid]
  · rw [if_neg same]
    split
    · next otherValid =>
        simp [write, Array.getElem?_setIfInBounds_ne (wordIndex_ne valid otherValid same)]
    · rfl

end Memory

end TreeBackend.Machine
