import TreeBackend.Random.Stream

/-!
# Configuring the machine

The size of the memory, and where the random numbers come from.
-/

namespace TreeBackend.Machine

/-- The bytes of memory of a machine that is not told otherwise. -/
def defaultMemorySize : Int := 65536

/-- The most bytes of memory that a machine can have. -/
def memoryLimit : Int := 16777216

/-- A configuration. -/
structure Config where
  memorySize : Int := defaultMemorySize
  seed : Option UInt64 := none
  generator : Random.Generator := .keystream (Vector.replicate 8 0)

/-- Why a configuration is refused. -/
inductive ConfigError where
  | invalidMemorySize (memorySize : Int)
  | memoryTooLarge (memorySize limit : Int)
  deriving DecidableEq, Repr

def ConfigError.message : ConfigError → String
  | .invalidMemorySize memorySize =>
      "Configuration error: memory size " ++ toString memorySize ++
        " is not a positive multiple of the word size (" ++ toString Word.size ++ ")"
  | .memoryTooLarge memorySize limit =>
      "Configuration error: memory size " ++ toString memorySize ++ " exceeds the limit of " ++
        toString limit ++ " bytes"

namespace Config

/-- Checks that the memory consists of whole words, at least one, and is within
the limit. -/
def validate (config : Config) : Except ConfigError Unit :=
  if config.memorySize ≤ 0 ∨ config.memorySize % Word.size ≠ 0 then
    .error (.invalidMemorySize config.memorySize)
  else if memoryLimit < config.memorySize then
    .error (.memoryTooLarge config.memorySize memoryLimit)
  else .ok ()

def randomSource (config : Config) : Random.Source :=
  match config.seed with
  | some seed => .ofSeed config.generator seed
  | none => ⟨config.generator, config.generator.unseeded⟩

@[simp] theorem generator_randomSource (config : Config) :
    config.randomSource.generator = config.generator := by
  unfold randomSource
  cases config.seed <;> rfl

/-- A configuration is valid exactly if its memory has a positive number of whole
words, within the limit. -/
theorem validate_eq_ok_iff (config : Config) :
    config.validate = .ok () ↔
      0 < config.memorySize ∧ config.memorySize % Word.size = 0 ∧
        config.memorySize ≤ memoryLimit := by
  unfold validate
  split
  · simp only [reduceCtorEq, false_iff]
    omega
  · split
    · simp only [reduceCtorEq, false_iff]
      omega
    · simp only [true_iff]
      omega

end Config

end TreeBackend.Machine
