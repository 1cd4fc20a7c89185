/-!
# A keystream of pseudo-random words

The ChaCha keystream with twelve rounds: a key of eight words, a block counter of
two words and four constants are mixed into blocks of sixteen words. The words
left over for a nonce are zero.
-/

namespace TreeBackend.Random

/-- A key: eight words. -/
abbrev Key := Vector UInt32 8

/-- A block: sixteen words. -/
abbrev Block := Vector UInt32 16

def rotateLeft (word amount : UInt32) : UInt32 := (word <<< amount) ||| (word >>> (32 - amount))

/-- Mixes four words of a block. -/
def quarterRound (block : Block) (i j k l : Fin 16) : Block :=
  let a := block[i]
  let b := block[j]
  let c := block[k]
  let d := block[l]
  let a := a + b
  let d := rotateLeft (d ^^^ a) 16
  let c := c + d
  let b := rotateLeft (b ^^^ c) 12
  let a := a + b
  let d := rotateLeft (d ^^^ a) 8
  let c := c + d
  let b := rotateLeft (b ^^^ c) 7
  (((block.set i a).set j b).set k c).set l d

/-- Mixes the columns of a block and then its diagonals. -/
def doubleRound (block : Block) : Block :=
  let block := quarterRound block 0 4 8 12
  let block := quarterRound block 1 5 9 13
  let block := quarterRound block 2 6 10 14
  let block := quarterRound block 3 7 11 15
  let block := quarterRound block 0 5 10 15
  let block := quarterRound block 1 6 11 12
  let block := quarterRound block 2 7 8 13
  quarterRound block 3 4 9 14

def doubleRounds : Nat → Block → Block
  | 0, block => block
  | count + 1, block => doubleRounds count (doubleRound block)

def startBlock (key : Key) (counter : UInt64) : Block :=
  #v[0x61707865, 0x3320646e, 0x79622d32, 0x6b206574,
    key[0], key[1], key[2], key[3], key[4], key[5], key[6], key[7],
    counter.toUInt32, (counter >>> 32).toUInt32, 0, 0]

def keystreamBlock (key : Key) (counter : UInt64) : Block :=
  let start := startBlock key counter
  start.zipWith (· + ·) (doubleRounds 6 start)

/-- The number of 64-bit words that a block holds. -/
def wordsPerBlock : Nat := 8

def wordStart (number : Nat) : Fin 15 :=
  ⟨2 * (number % wordsPerBlock), by unfold wordsPerBlock; omega⟩

/-- The 64-bit word of the keystream with the given number: of two words in a
row the first one is the lower half. -/
def keystreamWord (key : Key) (number : Nat) : UInt64 :=
  let block := keystreamBlock key (UInt64.ofNat (number / wordsPerBlock))
  let low := block[(wordStart number).castSucc]
  let high := block[(wordStart number).succ]
  (high.toUInt64 <<< 32) ||| low.toUInt64

/-- A key made of bytes, four to a word with the first one lowest; bytes that are
missing count as zero. -/
def keyOfBytes (bytes : List UInt8) : Key :=
  Vector.ofFn fun i =>
    (List.range 4).foldr (fun j word => word * 256 + (bytes.getD (4 * i.val + j) 0).toUInt32) 0

end TreeBackend.Random
