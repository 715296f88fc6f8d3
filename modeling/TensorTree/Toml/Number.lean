import TensorTree.Toml.Reader

/-!
# TOML numbers, dates and times

Integers have 64 bits with a sign.  A single underscore may stand between two digits.  Dates and
times are checked against the calendar.
-/

namespace TensorTree.Toml

/-! ## §1 Digits -/

/-- Digits behind a first one, with single underscores between digits. -/
def digitsAfter (p : Char → Bool) : List Char → List Char × List Char
  | '_' :: c :: cs =>
    if p c then
      let (ds, rest) := digitsAfter p cs
      (c :: ds, rest)
    else ([], '_' :: c :: cs)
  | c :: cs =>
    if p c then
      let (ds, rest) := digitsAfter p cs
      (c :: ds, rest)
    else ([], c :: cs)
  | [] => ([], [])

/-- Take one or more digits of a class, with single underscores between them. -/
def digits (p : Char → Bool) : Reader (List Char) := do
  let first ← Reader.one p
  let more ← (fun cs => some (digitsAfter p cs) : Reader (List Char))
  return first :: more

/-- Take decimal digits of which the first is zero only if it is the only one. -/
def wholeDigits : Reader (List Char) := do
  if (← Reader.peek?) == some '0' then
    Reader.char '0'
    return ['0']
  else digits Char.isDigit

/-- The value of a digit below the given base. -/
def digitValue? (base : Nat) (c : Char) : Option Nat := (hexValue? c).filter (· < base)

/-- The number that digits of the given base stand for; other characters count as zero. -/
def digitsValue (base : Nat) (cs : List Char) : Nat :=
  cs.foldl (fun n c => base * n + (digitValue? base c).getD 0) 0

/-! ## §2 Integers -/

/-- Take a sign, if one comes next, and tell whether it is a minus. -/
def sign : Reader Bool := do
  match ← Reader.peek? with
  | some '-' => Reader.char '-'; return true
  | some '+' => Reader.char '+'; return false
  | _ => return false

/-- An integer of 64 bits with a sign. -/
def checkedInt (n : Int) : Reader Int :=
  if -Int.pow 2 63 ≤ n ∧ n < Int.pow 2 63 then pure n else Reader.reject

/-- Take a decimal integer. -/
def decimalInt : Reader Int := do
  let negative ← sign
  let n := digitsValue 10 (← wholeDigits)
  checkedInt (if negative then -(n : Int) else n)

/-- Take an integer in another base, which is told by the letter behind a zero. -/
def basedInt (letter : Char) (base : Nat) : Reader Int := do
  Reader.char '0'
  Reader.char letter
  checkedInt (digitsValue base (← digits fun c => (digitValue? base c).isSome))

/-- Take an integer. -/
def integer : Reader Int := basedInt 'x' 16 <|> basedInt 'o' 8 <|> basedInt 'b' 2 <|> decimalInt

/-! ## §3 Floating-point numbers -/

/-- Numbers from here on round to infinity: the middle between the greatest finite number of 64
bits and the next power of two. -/
def floatLimit : Nat := Nat.pow 2 1024 - Nat.pow 2 970

/-- The number `n * 10 ^ e` rounds to infinity.  A number of more than 400 places in front of the
point is not computed. -/
def roundsToInfinity (n : Nat) (e : Int) : Bool :=
  let places : Int := (Nat.toDigits 10 n).length + e
  if n = 0 ∨ places < 0 then false
  else if 400 < places then true
  else floatLimit * Nat.pow 10 (-e).toNat ≤ n * Nat.pow 10 e.toNat

/-- Take a fraction: a point and digits. -/
def fraction : Reader (List Char) := do
  Reader.char '.'
  digits Char.isDigit

/-- Take the power of ten of a number. -/
def powerOfTen : Reader Int := do
  let _ ← Reader.one fun c => c == 'e' || c == 'E'
  let negative ← sign
  let n := digitsValue 10 (← digits Char.isDigit)
  return if negative then -(n : Int) else n

/-- Take a finite number with a fraction, a power of ten or both.  A number that is too large
counts as no number; one that is too small in the negative counts as minus infinity. -/
def finiteFloat : Reader Unit := do
  let negative ← sign
  let whole ← wholeDigits
  let decimals ← Reader.optional fraction
  let power ← Reader.optional powerOfTen
  if decimals.isNone && power.isNone then Reader.reject
  let places := decimals.getD []
  let tooLarge :=
    roundsToInfinity (digitsValue 10 (whole ++ places)) (power.getD 0 - (places.length : Int))
  if tooLarge && !negative then Reader.reject

/-- Take an infinity or a NaN. -/
def specialFloat : Reader Unit := do
  let _ ← sign
  Reader.exactly "inf" <|> Reader.exactly "nan"

/-- Take a floating-point number. -/
def float : Reader Unit := finiteFloat <|> specialFloat

/-! ## §4 Dates and times -/

/-- The number of days of a month. -/
def daysIn (year month : Nat) : Nat :=
  if month = 2 then
    if year % 4 = 0 ∧ (year % 100 ≠ 0 ∨ year % 400 = 0) then 29 else 28
  else if month = 4 ∨ month = 6 ∨ month = 9 ∨ month = 11 then 30
  else 31

/-- Take a date. -/
def date : Reader Unit := do
  let year ← Reader.fixedWithin 4 0 9999
  Reader.char '-'
  let month ← Reader.fixedWithin 2 1 12
  Reader.char '-'
  let _ ← Reader.fixedWithin 2 1 (daysIn year month)

/-- Take a time of day; the minute that ends with a leap second has a second more. -/
def time : Reader Unit := do
  let _ ← Reader.fixedWithin 2 0 23
  Reader.char ':'
  let _ ← Reader.fixedWithin 2 0 59
  Reader.char ':'
  let _ ← Reader.fixedWithin 2 0 60
  let _ ← Reader.optional do
    Reader.char '.'
    let _ ← Reader.oneOrMore Char.isDigit

/-- Take the distance of a time from universal time. -/
def offset : Reader Unit := do
  let c ← Reader.one fun c => c == 'Z' || c == 'z' || c == '+' || c == '-'
  if c == '+' || c == '-' then
    let _ ← Reader.fixedWithin 2 0 23
    Reader.char ':'
    let _ ← Reader.fixedWithin 2 0 59

/-- Take a date, a time, or a date and a time with or without an offset. -/
def datetime : Reader Unit :=
  (do
    date
    let _ ← Reader.optional do
      let _ ← Reader.one fun c => c == 'T' || c == 't' || c == ' '
      time
      let _ ← Reader.optional offset) <|> time

end TensorTree.Toml
