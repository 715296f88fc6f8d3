/-!
# Binary floating-point numbers

A number of the 64-bit binary interchange format is kept as its three fields.  Two numbers are
the same value of this type only if all their fields agree, so the two zeros differ and every
NaN is equal to itself; `Binary64.equals` is the comparison of numbers, in which it is the other
way round.
-/

namespace TensorTree

/-- Sign, biased exponent and fraction of a 64-bit floating-point number. -/
structure Binary64 where
  negative : Bool
  exponent : Fin 2048
  fraction : Fin (Nat.pow 2 52)
deriving DecidableEq

namespace Binary64

/-- The number with the given bit pattern; bits above the lowest 64 are ignored. -/
def ofBits (bits : Nat) : Binary64 :=
  { negative := bits.testBit 63
    exponent := ⟨bits / Nat.pow 2 52 % 2048, Nat.mod_lt _ (by decide)⟩
    fraction := ⟨bits % Nat.pow 2 52, Nat.mod_lt _ (by decide)⟩ }

/-- Neither infinite nor NaN. -/
def isFinite (x : Binary64) : Bool := x.exponent.val != 2047

def isNaN (x : Binary64) : Bool := x.exponent.val == 2047 && x.fraction.val != 0

/-- One of the two zeros. -/
def isZero (x : Binary64) : Bool := x.exponent.val == 0 && x.fraction.val == 0

/-- Equality of numbers: the zeros are equal, and a NaN equals nothing. -/
def equals (x y : Binary64) : Bool :=
  !x.isNaN && !y.isNaN && (x == y || (x.isZero && y.isZero))

/-- The factor `m` of the magnitude `m * 2 ^ q` of a finite number. -/
def significand (x : Binary64) : Nat :=
  if x.exponent.val = 0 then x.fraction.val else Nat.pow 2 52 + x.fraction.val

/-- The power `q` of the magnitude `m * 2 ^ q` of a finite number. -/
def power (x : Binary64) : Int :=
  if x.exponent.val = 0 then -1074 else (x.exponent.val : Int) - 1075

/-- The next smaller magnitude is only half as far away as the next greater one. -/
def isNarrowBelow (x : Binary64) : Bool := x.fraction.val == 0 && 1 < x.exponent.val

end Binary64

end TensorTree
