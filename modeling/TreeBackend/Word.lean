/-!
# Machine words

A word holds an integer of 64 bits in two's complement and occupies four bytes
of the address space. Words are kept as integers; an arithmetic result is
brought back into range by `wrap`. Truth values are the words 1 and 0.
-/

namespace TreeBackend.Word

/-- The bytes that one word occupies, and the alignment of every address. -/
def size : Int := 4

/-- The integers that a word can hold. -/
def Fits (value : Int) : Prop := -9223372036854775808 ≤ value ∧ value < 9223372036854775808

instance (value : Int) : Decidable (Fits value) := inferInstanceAs (Decidable (_ ∧ _))

/-- The word that agrees with an integer modulo 2 to the power of 64. -/
def wrap (value : Int) : Int := value.bmod 18446744073709551616

/-- The word of a truth value. -/
def ofBool (truth : Bool) : Int := if truth then 1 else 0

theorem wrap_fits (value : Int) : Fits (wrap value) := by
  unfold Fits wrap
  have lower := Int.le_bmod (x := value) (m := 18446744073709551616) (by decide)
  have upper := Int.bmod_lt (x := value) (m := 18446744073709551616) (by decide)
  omega

theorem wrap_of_fits {value : Int} (fits : Fits value) : wrap value = value := by
  unfold Fits at fits
  unfold wrap
  exact Int.bmod_eq_of_le (by omega) (by omega)

@[simp] theorem wrap_wrap_add (first second : Int) :
    wrap (wrap first + second) = wrap (first + second) := Int.bmod_add_bmod

@[simp] theorem wrap_add_wrap (first second : Int) :
    wrap (first + wrap second) = wrap (first + second) := Int.add_bmod_bmod

@[simp] theorem wrap_mul_wrap (first second : Int) :
    wrap (first * wrap second) = wrap (first * second) := Int.mul_bmod_bmod

@[simp] theorem wrap_neg_wrap (value : Int) : wrap (-wrap value) = wrap (-value) := by
  rw [← Int.zero_sub, ← Int.zero_sub]
  exact Int.sub_bmod_bmod

end TreeBackend.Word
