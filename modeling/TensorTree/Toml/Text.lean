import TensorTree.Toml.Reader

/-!
# TOML strings

Basic strings know escapes, literal strings do not; both exist on one line and, between three
quotation marks, over several.
-/

namespace TensorTree.Toml

/-! ## §1 Characters -/

/-- Characters that stand for themselves between double quotes. -/
def isBasicChar (c : Char) : Bool := isCommentChar c && c != '"' && c != '\\'

/-- Characters that stand between single quotes. -/
def isLiteralChar (c : Char) : Bool := isCommentChar c && c != '\''

/-- The number that hexadecimal digits stand for. -/
def hexNumber? (cs : List Char) : Option Nat :=
  cs.foldlM (fun n c => (hexValue? c).map (16 * n + ·)) 0

/-- The character of a code point written with hexadecimal digits; surrogates are no
characters. -/
def codePoint? (cs : List Char) : Option Char :=
  match hexNumber? cs with
  | some n => if n.isValidChar then some (Char.ofNat n) else none
  | none => none

/-- The character of a one-letter escape. -/
def simpleEscape? : Char → Option Char
  | 'b' => some '\x08'
  | 't' => some '\t'
  | 'n' => some '\n'
  | 'f' => some '\x0c'
  | 'r' => some '\r'
  | '"' => some '"'
  | '\\' => some '\\'
  | _ => none

/-! ## §2 Strings on one line -/

/-- The characters of a basic string behind its first quotation mark, and what follows it. -/
def basicBody : List Char → Option (List Char × List Char)
  | [] => none
  | '"' :: cs => some ([], cs)
  | '\\' :: 'u' :: a :: b :: c :: d :: cs => do
    let char ← codePoint? [a, b, c, d]
    let (text, rest) ← basicBody cs
    some (char :: text, rest)
  | '\\' :: 'U' :: a :: b :: c :: d :: e :: f :: g :: h :: cs => do
    let char ← codePoint? [a, b, c, d, e, f, g, h]
    let (text, rest) ← basicBody cs
    some (char :: text, rest)
  | '\\' :: c :: cs => do
    let char ← simpleEscape? c
    let (text, rest) ← basicBody cs
    some (char :: text, rest)
  | c :: cs =>
    if isBasicChar c then (basicBody cs).map fun (text, rest) => (c :: text, rest) else none

/-- Take a basic string of one line. -/
def basicString : Reader String := do
  Reader.char '"'
  let text ← (basicBody : Reader (List Char))
  return .ofList text

/-- Take a literal string of one line. -/
def literalString : Reader String := do
  Reader.char '\''
  let text ← Reader.many isLiteralChar
  Reader.char '\''
  return .ofList text

/-! ## §3 Strings over several lines -/

/-- What a backslash at the end of a line does to the characters behind it. -/
inductive Trim where
  /-- Characters are kept. -/
  | keep
  /-- Only blank space may come before the end of the line. -/
  | toLineEnd
  /-- Blank space and line ends are dropped. -/
  | blank
deriving DecidableEq

/-- The characters of a basic string of several lines behind its opening, and what follows it. -/
def longBasicBody : Trim → List Char → Option (List Char × List Char)
  | _, [] => none
  | .toLineEnd, '\n' :: cs => longBasicBody .blank cs
  | .toLineEnd, '\r' :: '\n' :: cs => longBasicBody .blank cs
  | .toLineEnd, c :: cs => if isSpace c then longBasicBody .toLineEnd cs else none
  | .blank, '\n' :: cs => longBasicBody .blank cs
  | .blank, '\r' :: '\n' :: cs => longBasicBody .blank cs
  | _, '"' :: '"' :: '"' :: '"' :: '"' :: cs => some (['"', '"'], cs)
  | _, '"' :: '"' :: '"' :: '"' :: cs => some (['"'], cs)
  | _, '"' :: '"' :: '"' :: cs => some ([], cs)
  | _, '\\' :: 'u' :: a :: b :: c :: d :: cs => do
    let char ← codePoint? [a, b, c, d]
    let (text, rest) ← longBasicBody .keep cs
    some (char :: text, rest)
  | _, '\\' :: 'U' :: a :: b :: c :: d :: e :: f :: g :: h :: cs => do
    let char ← codePoint? [a, b, c, d, e, f, g, h]
    let (text, rest) ← longBasicBody .keep cs
    some (char :: text, rest)
  | _, '\\' :: '\n' :: cs => longBasicBody .blank cs
  | _, '\\' :: '\r' :: '\n' :: cs => longBasicBody .blank cs
  | _, '\\' :: c :: cs =>
    if isSpace c then longBasicBody .toLineEnd cs
    else do
      let char ← simpleEscape? c
      let (text, rest) ← longBasicBody .keep cs
      some (char :: text, rest)
  | _, '\r' :: '\n' :: cs =>
    (longBasicBody .keep cs).map fun (text, rest) => ('\n' :: text, rest)
  | trim, c :: cs =>
    if trim = .blank ∧ isSpace c then longBasicBody .blank cs
    else if isBasicChar c || c == '"' || c == '\n' then
      (longBasicBody .keep cs).map fun (text, rest) => (c :: text, rest)
    else none

/-- The characters of a literal string of several lines behind its opening, and what follows
it. -/
def longLiteralBody : List Char → Option (List Char × List Char)
  | [] => none
  | '\'' :: '\'' :: '\'' :: '\'' :: '\'' :: cs => some (['\'', '\''], cs)
  | '\'' :: '\'' :: '\'' :: '\'' :: cs => some (['\''], cs)
  | '\'' :: '\'' :: '\'' :: cs => some ([], cs)
  | '\r' :: '\n' :: cs => (longLiteralBody cs).map fun (text, rest) => ('\n' :: text, rest)
  | c :: cs =>
    if isLiteralChar c || c == '\'' || c == '\n' then
      (longLiteralBody cs).map fun (text, rest) => (c :: text, rest)
    else none

/-- Take a basic string of several lines; a line end behind the opening is dropped. -/
def longBasicString : Reader String := do
  Reader.exactly "\"\"\""
  let _ ← Reader.optional lineEnd
  let text ← (longBasicBody .keep : Reader (List Char))
  return .ofList text

/-- Take a literal string of several lines; a line end behind the opening is dropped. -/
def longLiteralString : Reader String := do
  Reader.exactly "'''"
  let _ ← Reader.optional lineEnd
  let text ← (longLiteralBody : Reader (List Char))
  return .ofList text

/-- Take a string of any form. -/
def anyString : Reader String :=
  longBasicString <|> basicString <|> longLiteralString <|> literalString

end TensorTree.Toml
