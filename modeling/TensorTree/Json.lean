import TensorTree.Number.Decimal

/-!
# JSON values and their text

Values are written compactly or over several lines with two spaces per level.  The fields of an
object keep their order.  Only quotation marks, backslashes and control characters are escaped;
a number that is not finite is written as null.
-/

namespace TensorTree

/-- A JSON value whose objects keep the order of their fields. -/
inductive Json where
  | null
  | bool (value : Bool)
  | int (value : Int)
  | float (value : Binary64)
  | str (value : String)
  | arr (items : List Json)
  | obj (fields : List (String × Json))

namespace Json

/-! ## §1 Scalars -/

def nat (n : Nat) : Json := .int n

/-- The value of an option, or null. -/
def option {α : Type} (f : α → Json) : Option α → Json
  | none => .null
  | some a => f a

def list {α : Type} (f : α → Json) (items : List α) : Json := .arr (items.map f)

/-- Numbers are written without a power of ten from `0.00001` to below `10 ^ 16`, and of two
shortest decimals the even one is taken. -/
def numberFormat : NumberFormat := ⟨.even, some (-5, 15)⟩

def floatText (x : Binary64) : String := if x.isFinite then numberFormat.render x else "null"

def hexDigit (n : Nat) : Char := (Nat.toDigits 16 n).headD '0'

/-- A character inside a string. -/
def escape (c : Char) : List Char :=
  if c = '"' then ['\\', '"']
  else if c = '\\' then ['\\', '\\']
  else if c = '\n' then ['\\', 'n']
  else if c = '\r' then ['\\', 'r']
  else if c = '\t' then ['\\', 't']
  else if c = '\x08' then ['\\', 'b']
  else if c = '\x0c' then ['\\', 'f']
  else if c.toNat < 32 then ['\\', 'u', '0', '0', hexDigit (c.toNat / 16), hexDigit (c.toNat % 16)]
  else [c]

def quote (s : String) : String := .ofList ('"' :: s.toList.flatMap escape ++ ['"'])

def boolText (b : Bool) : String := if b then "true" else "false"

/-! ## §2 Compact text -/

mutual

/-- The text on one line, without blank space. -/
def compact : Json → String
  | .null => "null"
  | .bool b => boolText b
  | .int n => toString n
  | .float x => floatText x
  | .str s => quote s
  | .arr items => "[" ++ compactItems items ++ "]"
  | .obj fields => "\x7b" ++ compactFields fields ++ "\x7d"

def compactItems : List Json → String
  | [] => ""
  | [item] => item.compact
  | item :: items => item.compact ++ "," ++ compactItems items

def compactFields : List (String × Json) → String
  | [] => ""
  | [(name, value)] => quote name ++ ":" ++ value.compact
  | (name, value) :: fields => quote name ++ ":" ++ value.compact ++ "," ++ compactFields fields

end

/-! ## §3 Indented text -/

/-- A line break and the indentation of a level. -/
def lineBreak (depth : Nat) : String := .ofList ('\n' :: List.replicate (2 * depth) ' ')

mutual

/-- The text over several lines; empty arrays and objects stay on one line. -/
def pretty (depth : Nat) : Json → String
  | .null => "null"
  | .bool b => boolText b
  | .int n => toString n
  | .float x => floatText x
  | .str s => quote s
  | .arr [] => "[]"
  | .arr (item :: items) =>
    "[" ++ prettyItems (depth + 1) (item :: items) ++ lineBreak depth ++ "]"
  | .obj [] => "\x7b\x7d"
  | .obj (field :: fields) =>
    "\x7b" ++ prettyFields (depth + 1) (field :: fields) ++ lineBreak depth ++ "\x7d"

def prettyItems (depth : Nat) : List Json → String
  | [] => ""
  | [item] => lineBreak depth ++ item.pretty depth
  | item :: items => lineBreak depth ++ item.pretty depth ++ "," ++ prettyItems depth items

def prettyFields (depth : Nat) : List (String × Json) → String
  | [] => ""
  | [(name, value)] => lineBreak depth ++ quote name ++ ": " ++ value.pretty depth
  | (name, value) :: fields =>
    lineBreak depth ++ quote name ++ ": " ++ value.pretty depth ++ "," ++
      prettyFields depth fields

end

end Json

end TensorTree
