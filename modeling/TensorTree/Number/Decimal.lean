import TensorTree.Number.Binary64

/-!
# The shortest decimal of a binary number

The shortest decimal of a magnitude is the one with the fewest digits among all decimals that
round to it, and among those the nearest one.  It is found on the decimal grids of one, two, up
to seventeen digits: the first grid on which one of the two neighbours of the magnitude rounds
to it gives the answer.  All arithmetic is exact.
-/

namespace TensorTree

/-! ## §1 Decimals -/

/-- The number `coefficient * 10 ^ exponent`. -/
structure Decimal where
  coefficient : Nat
  exponent : Int
deriving DecidableEq

/-- Which of two equally near decimals is taken. -/
inductive Tie where
  /-- The greater one. -/
  | up
  /-- The one whose last digit is even. -/
  | even
deriving DecidableEq

namespace Decimal

/-- The digits of the coefficient. -/
def digits (d : Decimal) : List Char := Nat.toDigits 10 d.coefficient

/-- The power of ten of the first digit. -/
def leading (d : Decimal) : Int := d.exponent + d.digits.length - 1

/-- Move up to the given number of zeros from the end of the coefficient into the exponent. -/
def dropZeros : Nat → Decimal → Decimal
  | 0, d => d
  | n + 1, d =>
    if d.coefficient ≠ 0 ∧ d.coefficient % 10 = 0 then
      dropZeros n ⟨d.coefficient / 10, d.exponent + 1⟩
    else d

/-- The text without a power of ten, always with a point and a digit on either side of it. -/
def plain (d : Decimal) : List Char :=
  match d.exponent with
  | .ofNat n => d.digits ++ List.replicate n '0' ++ ['.', '0']
  | .negSucc n =>
    let ds := d.digits
    let whole := ds.length - (n + 1)
    if n + 1 < ds.length then ds.take whole ++ '.' :: ds.drop whole
    else '0' :: '.' :: List.replicate (n + 1 - ds.length) '0' ++ ds

/-- The text with one digit in front of the point and a power of ten with its sign. -/
def scientific (d : Decimal) : List Char :=
  let mantissa :=
    match d.digits with
    | first :: second :: more => first :: '.' :: second :: more
    | ds => ds
  let exponent :=
    if d.leading < 0 then '-' :: Nat.toDigits 10 d.leading.natAbs
    else '+' :: Nat.toDigits 10 d.leading.natAbs
  mantissa ++ 'e' :: exponent

end Decimal

/-! ## §2 The decimals that round to a number -/

/-- A magnitude with the ends of the interval that rounds to it, as fractions with one
denominator. -/
structure Rounding where
  low : Nat
  value : Nat
  high : Nat
  denominator : Nat
  /-- The ends of the interval round to the magnitude too. -/
  closed : Bool

namespace Rounding

/-- The interval that rounds to the magnitude of a finite number.  The ends lie half-way to the
neighbouring magnitudes and belong to it if the last bit is even. -/
def ofBinary (x : Binary64) : Rounding :=
  let m := x.significand
  let below := if x.isNarrowBelow then 1 else 2
  let scale := Nat.pow 2 (x.power - 2).toNat
  { low := (4 * m - below) * scale
    value := 4 * m * scale
    high := (4 * m + 2) * scale
    denominator := Nat.pow 2 (2 - x.power).toNat
    closed := m % 2 == 0 }

/-- The least number of places, up to a bound, by which the point has to move to the right for
the value to reach one. -/
def placesToOne (r : Rounding) : Nat → Nat → Nat
  | 0, places => places
  | n + 1, places =>
    if r.denominator ≤ r.value * Nat.pow 10 places then places else placesToOne r n (places + 1)

/-- The power of ten of the first digit of a value that is not zero. -/
def leading (r : Rounding) : Int :=
  if r.denominator ≤ r.value then (Nat.toDigits 10 (r.value / r.denominator)).length - 1
  else -(r.placesToOne 400 1 : Int)

/-- The decimal `n * 10 ^ p` on the grid of exponent `p` that rounds to the value, if one of the
value's two neighbours on that grid does. -/
def onGrid? (r : Rounding) (tie : Tie) (p : Int) : Option Decimal :=
  let unit := r.denominator * Nat.pow 10 p.toNat
  let factor := Nat.pow 10 (-p).toNat
  let inside (n : Nat) : Bool :=
    if r.closed then r.low * factor ≤ n * unit && n * unit ≤ r.high * factor
    else r.low * factor < n * unit && n * unit < r.high * factor
  let below := r.value * factor / unit
  let rest := 2 * (r.value * factor % unit)
  let takeAbove :=
    if rest = unit then tie == .up || below % 2 == 1 else decide (unit < rest)
  match inside below, inside (below + 1) with
  | false, false => none
  | true, false => some ⟨below, p⟩
  | false, true => some ⟨below + 1, p⟩
  | true, true => some ⟨if takeAbove then below + 1 else below, p⟩

/-- The shortest decimal that rounds to the value. -/
def shortest (r : Rounding) (tie : Tie) : Decimal :=
  if r.value = 0 then ⟨0, 0⟩
  else
    let first := r.leading
    match (List.range 17).findSome? fun (n : Nat) => r.onGrid? tie (first - n) with
    | some d => d.dropZeros 18
    | none => ⟨r.value * Nat.pow 10 (16 - first).toNat / r.denominator, first - 16⟩

end Rounding

/-! ## §3 Texts of finite numbers -/

/-- How finite numbers are written. -/
structure NumberFormat where
  /-- Which of two equally near shortest decimals is written. -/
  tie : Tie
  /-- The least and the greatest power of ten of a first digit that is written without a power
  of ten; if absent, every number is written so. -/
  plainRange : Option (Int × Int)

namespace NumberFormat

/-- The digits of a magnitude in this format. -/
def magnitude (f : NumberFormat) (x : Binary64) : List Char :=
  let d := (Rounding.ofBinary x).shortest f.tie
  match f.plainRange with
  | none => d.plain
  | some (least, greatest) =>
    if least ≤ d.leading ∧ d.leading ≤ greatest then d.plain else d.scientific

/-- The text of a finite number: a minus sign if the sign bit is set, then its magnitude. -/
def render (f : NumberFormat) (x : Binary64) : String :=
  .ofList (if x.negative then '-' :: f.magnitude x else f.magnitude x)

end NumberFormat

end TensorTree
