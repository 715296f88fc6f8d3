import TensorTree.Number.Decimal

/-!
# Numbers in program text

Floating-point numbers are written in full, without a power of ten and always with a point, so
that they are read as such again.
-/

namespace TensorTree

/-- Numbers in program text never have a power of ten, and of two shortest decimals the greater
one is taken. -/
def programNumberFormat : NumberFormat := ⟨.up, none⟩

/-- A floating-point number as written in a program. -/
def Binary64.programText (x : Binary64) : String :=
  if x.isFinite then programNumberFormat.render x
  else if x.isNaN then "NaN"
  else if x.negative then "-inf"
  else "inf"

end TensorTree
