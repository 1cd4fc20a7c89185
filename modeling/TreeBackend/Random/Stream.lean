import TreeBackend.Random.Generator
import TreeBackend.Random.Keystream

/-!
# A stream of random numbers

A stream is a key and a position in its keystream. A seed of 64 bits is expanded
to a key by a linear congruential generator with a permuted output. Numbers in a
range are drawn without bias: a draw from the incomplete part of the last
interval is thrown away. The generator that the command uses draws from such a
stream.
-/

namespace TreeBackend.Random

/-- The state of the generator that expands seeds, after one more step. -/
def expandStep (state : UInt64) : UInt64 := state * 6364136223846793005 + 11634580027462260723

def expandOutput (state : UInt64) : UInt32 :=
  let word := (((state >>> 18) ^^^ state) >>> 27).toUInt32
  let amount := (state >>> 59).toUInt32
  (word >>> amount) ||| (word <<< ((32 - amount) % 32))

/-- The states of the generator after a seed, as many as wanted. -/
def expandStates : Nat → UInt64 → List UInt64
  | 0, _ => []
  | count + 1, state => expandStep state :: expandStates count (expandStep state)

theorem length_expandStates (count : Nat) (state : UInt64) :
    (expandStates count state).length = count := by
  induction count generalizing state with
  | zero => rfl
  | succ count ih => simp [expandStates, ih]

def seedKey (seed : UInt64) : Key :=
  ⟨((expandStates 8 seed).map expandOutput).toArray, by simp [length_expandStates]⟩

/-- A place in the keystream of a key. -/
structure Stream where
  key : Key
  position : Nat := 0
  deriving DecidableEq

namespace Stream

def ofSeed (seed : UInt64) : Stream := { key := seedKey seed }

def word (stream : Stream) : Nat := (keystreamWord stream.key stream.position).toNat

def rest (stream : Stream) : Stream := { stream with position := stream.position + 1 }

/-- The number of different words, two to the power of 64. -/
def wordCount : Nat := 18446744073709551616

/-- The highest lower half of a product that a draw is accepted with: the largest
multiple of the range by a power of two that fits a word, less one. -/
def acceptedUpTo (range : Nat) : Nat := (range <<< (63 - range.log2)) - 1

/-- Draws a number below a positive range, in at most the given number of attempts. -/
def below? : (attempts range : Nat) → Stream → Option (Nat × Stream)
  | 0, _, _ => none
  | attempts + 1, range, stream =>
      let product := stream.word * range
      if product % wordCount ≤ acceptedUpTo range then some (product / wordCount, stream.rest)
      else below? attempts range stream.rest

/-- The number of words after which a keystream repeats itself, two to the power
of 67: there is a block for every word. -/
def period : Nat := wordsPerBlock * wordCount

/-- Draws a number from `low` up to, but without, `high`, where `low < high`. There
is none only if the whole keystream would be searched in vain. -/
def inRange? (low high : Int) (stream : Stream) : Option (Int × Stream) :=
  (below? period (high - low).toNat stream).map fun (offset, rest) => (low + offset, rest)

/-- What a generator remembers of a stream. -/
def memory (stream : Stream) : List Nat := stream.position :: stream.key.toList.map UInt32.toNat

def ofMemory (memory : List Nat) : Stream where
  key := Vector.ofFn fun i => UInt32.ofNat (memory.getD (i.val + 1) 0)
  position := memory.headD 0

@[simp] theorem ofMemory_memory (stream : Stream) : ofMemory stream.memory = stream := by
  obtain ⟨key, position⟩ := stream
  simp only [ofMemory, memory, List.headD_cons, Stream.mk.injEq, and_true]
  ext i bound
  simp [List.getD_eq_getElem?_getD]

theorem below?_lt {attempts range number : Nat} {stream rest : Stream}
    (drawn : below? attempts range stream = some (number, rest)) : number < range ∨ range = 0 := by
  induction attempts generalizing stream with
  | zero => simp [below?] at drawn
  | succ attempts ih =>
      simp only [below?] at drawn
      split at drawn
      · simp only [Option.some.injEq, Prod.mk.injEq] at drawn
        rcases Nat.eq_zero_or_pos range with none | positive
        · exact Or.inr none
        · left
          rw [← drawn.1, Nat.div_lt_iff_lt_mul (by decide), Nat.mul_comm range]
          exact Nat.mul_lt_mul_of_pos_right (UInt64.toNat_lt _) positive
      · exact ih drawn

end Stream

/-- The generator that draws from keystreams, from that of a given key where it has no seed. If it
would search the whole keystream in vain, then it answers with the lower end of the range. -/
def Generator.keystream (entropy : Key) : Generator where
  seeded seed := (Stream.ofSeed seed).memory
  unseeded := Stream.memory { key := entropy }
  draw? memory low high :=
    match (Stream.ofMemory memory).inRange? low high with
    | some (number, later) => some (number, later.memory)
    | none => some (low, memory)

theorem Generator.isDocumented_keystream (entropy : Key) : (keystream entropy).IsDocumented := by
  intro memory low high nonempty
  cases drawn : (Stream.ofMemory memory).inRange? low high with
  | none => exact ⟨low, memory, by simp only [keystream, drawn], Int.le_refl low, nonempty⟩
  | some found =>
      obtain ⟨⟨offset, later⟩, below, rfl⟩ := Option.map_eq_some_iff.mp drawn
      have inside := Stream.below?_lt below
      refine ⟨low + offset, later.memory, by simp only [keystream, drawn], ?_, ?_⟩ <;> omega

end TreeBackend.Random
