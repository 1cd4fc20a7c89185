import TreeBackend.Source.Resolution

/-!
# Extents

The extent of a type is what a variable of it takes if sizes are counted without bounds.  The
size that a compiler computes in words is the word that agrees with it.
-/

namespace TreeBackend.Source

/-- The bytes of a variable of a type. -/
def Ty.extent : Ty → Int
  | .int | .log | .str => Word.size
  | .void => 0
  | .array length element => length * element.extent
  | .function parameters result => result.extent + (parameters.map parameterSize).sum

/-- The size of a type is its extent as far as a word can tell. -/
theorem Ty.storageSize_eq_wrap : (ty : Ty) → ty.storageSize = Word.wrap ty.extent
  | .int | .log | .str | .void => rfl
  | .array length element => by
      change Word.wrap (length * element.storageSize) = Word.wrap (length * element.extent)
      rw [element.storageSize_eq_wrap, Word.wrap_mul_wrap]
  | .function parameters result => by
      change Word.wrap (result.storageSize + _) = Word.wrap (result.extent + _)
      rw [result.storageSize_eq_wrap, Word.wrap_wrap_add]

theorem Ty.storageSize_eq {ty : Ty} (fits : Word.Fits ty.extent) : ty.storageSize = ty.extent :=
  ty.storageSize_eq_wrap.trans (Word.wrap_of_fits fits)

/-- The bytes of a variable, or none if it has no type. -/
def Resolution.extent (resolution : Resolution) (definition : NodeId) : Int :=
  (resolution.typeOf? definition).elim 0 Ty.extent

/-- The bytes of a parameter, or none if it has no type. -/
def Resolution.parameterSize (resolution : Resolution) (definition : NodeId) : Int :=
  (resolution.typeOf? definition).elim 0 Ty.parameterSize

end TreeBackend.Source
