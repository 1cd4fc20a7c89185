import TreeBackend.Word

/-!
# Generators of random numbers

The machine is given its random numbers by a generator from outside.  Nothing is known of a
generator but what it answers.
-/

namespace TreeBackend.Random

/-- A generator. What it remembers is a list of numbers. -/
structure Generator where
  /-- What it remembers once it has been given a seed. -/
  seeded : UInt64 → List Nat
  /-- What it remembers where it is not given a seed. -/
  unseeded : List Nat
  /-- Draws an integer from `low` up to, but without, `high`, unless it goes on for ever. -/
  draw? : (memory : List Nat) → (low high : Int) → Option (Int × List Nat)

/-- A generator does what is documented: it answers with a number in the range if there is one. -/
def Generator.IsDocumented (generator : Generator) : Prop :=
  ∀ memory low high, low < high →
    ∃ number later, generator.draw? memory low high = some (number, later) ∧
      low ≤ number ∧ number < high

/-- A generator with what it remembers. -/
structure Source where
  generator : Generator
  memory : List Nat

namespace Source

def ofSeed (generator : Generator) (seed : UInt64) : Source := ⟨generator, generator.seeded seed⟩

def draw? (source : Source) (low high : Int) : Option (Int × Source) :=
  (source.generator.draw? source.memory low high).map fun (number, memory) =>
    (Word.wrap number, { source with memory })

/-- Starts again at a seed. -/
def reseed (source : Source) (seed : UInt64) : Source := ofSeed source.generator seed

end Source

end TreeBackend.Random
