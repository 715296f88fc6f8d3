/-!
# Reading from a list of characters

A reader takes characters from the front of a list and gives a value, or it fails.  A failed
alternative leaves the characters as they were.
-/

namespace TensorTree.Toml

/-- Takes characters from the front of a list and gives a value, or fails. -/
abbrev Reader (α : Type) : Type := StateT (List Char) Option α

namespace Reader

/-- Fail. -/
def reject {α : Type} : Reader α := fun _ => none

/-- Give the value of an option, or fail without one. -/
def ofOption {α : Type} : Option α → Reader α
  | some a => pure a
  | none => reject

/-- The next character, which is not taken. -/
def peek? : Reader (Option Char) := fun cs => some (cs.head?, cs)

/-- Take one character of a class. -/
def one (p : Char → Bool) : Reader Char
  | c :: cs => if p c then some (c, cs) else none
  | [] => none

/-- Take a given character. -/
def char (c : Char) : Reader Unit := do let _ ← one (· == c)

/-- Take all characters of a class that come next. -/
def many (p : Char → Bool) : Reader (List Char) := fun cs => some (cs.takeWhile p, cs.dropWhile p)

/-- Take one or more characters of a class. -/
def oneOrMore (p : Char → Bool) : Reader (List Char) := do
  let first ← one p
  return first :: (← many p)

/-- Take a given text. -/
def exactly (text : String) : Reader Unit := fun cs =>
  if text.toList.isPrefixOf cs then some ((), cs.drop text.toList.length) else none

/-- Take what a reader takes, or nothing if it fails. -/
def optional {α : Type} (r : Reader α) : Reader (Option α) := fun cs =>
  match r cs with
  | some (a, rest) => some (some a, rest)
  | none => some (none, cs)

/-- The characters that a reader takes. -/
def taken {α : Type} (r : Reader α) : Reader (List Char) := fun cs =>
  (r cs).map fun (_, rest) => (cs.take (cs.length - rest.length), rest)

/-- Take a given number of decimal digits behind those that were read as a number before. -/
def moreDigits : Nat → Nat → Reader Nat
  | 0, value => pure value
  | n + 1, value => do
    let c ← one Char.isDigit
    moreDigits n (10 * value + (c.toNat - '0'.toNat))

/-- Take a given number of decimal digits whose number lies within bounds. -/
def fixedWithin (digits low high : Nat) : Reader Nat := do
  let n ← moreDigits digits 0
  if low ≤ n ∧ n ≤ high then pure n else reject

end Reader

/-! ## Characters -/

/-- The value of a hexadecimal digit in either case. -/
def hexValue? (c : Char) : Option Nat :=
  if '0' ≤ c ∧ c ≤ '9' then some (c.toNat - '0'.toNat)
  else if 'a' ≤ c ∧ c ≤ 'f' then some (c.toNat - 'a'.toNat + 10)
  else if 'A' ≤ c ∧ c ≤ 'F' then some (c.toNat - 'A'.toNat + 10)
  else none

/-! ## Blank space, line ends and comments -/

/-- Space and tab. -/
def isSpace (c : Char) : Bool := c == ' ' || c == '\t'

/-- Characters that may stand in a comment: no control characters but the tab. -/
def isCommentChar (c : Char) : Bool := c == '\t' || (' ' ≤ c && c != '\x7f')

/-- Take blank space within a line. -/
def spaces : Reader Unit := do let _ ← Reader.many isSpace

/-- Take a line end: a line feed, with or without a carriage return in front of it. -/
def lineEnd : Reader Unit := do
  let _ ← Reader.optional (Reader.char '\r')
  Reader.char '\n'

/-- Take a comment, if one comes next. -/
def comment : Reader Unit := do
  if (← Reader.peek?) == some '#' then
    let _ ← Reader.many isCommentChar

/-- Nothing is left to read. -/
def atEnd : Reader Bool := fun cs => some (cs.isEmpty, cs)

/-- Take the rest of a line, which may hold a comment, and its end. -/
def restOfLine : Reader Unit := do
  spaces
  comment
  if !(← atEnd) then lineEnd

/-- Take blank space, line ends and comments, in at most the given number of steps. -/
def gap : Nat → Reader Unit
  | 0 => pure ()
  | n + 1 => do
    spaces
    match ← Reader.peek? with
    | some '#' => comment; gap n
    | some '\n' | some '\r' => lineEnd; gap n
    | _ => pure ()

end TensorTree.Toml
