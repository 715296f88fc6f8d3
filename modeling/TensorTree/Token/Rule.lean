import TensorTree.Text.Pattern
import TensorTree.Token.Kind

/-!
# The lexical rules

Each rule pairs a pattern with what becomes of the text that it matches: a token of some kind,
or nothing.  Fixed texts stand before the open classes, so a reserved word is never read as an
identifier of the same length.
-/

namespace TensorTree

/-! ## §1 Character classes -/

/-- The decimal digits `0` to `9`. -/
def isDigit (c : Char) : Bool := '0' ≤ c && c ≤ '9'

/-- The letters `a` to `z` and `A` to `Z` and the underscore. -/
def isNameStart (c : Char) : Bool := ('a' ≤ c && c ≤ 'z') || ('A' ≤ c && c ≤ 'Z') || c == '_'

/-- What may follow in a name: a letter, an underscore or a digit. -/
def isNamePart (c : Char) : Bool := isNameStart c || isDigit c

/-- Space, tab, carriage return and line feed. -/
def isBlank (c : Char) : Bool := c == ' ' || c == '\t' || c == '\r' || c == '\n'

/-! ## §2 Rules -/

/-- What becomes of a matched text. -/
inductive Rule where
  /-- Blank space and comments leave no token. -/
  | skip
  /-- A token of this kind. -/
  | token (kind : TokenKind)
deriving DecidableEq

namespace Rule

open Pattern (one seq alt many exactly optional)

/-- One or more digits. -/
def digits : Pattern := .oneOrMore (one isDigit)

/-- The letter `e` in either case, an optional sign and digits. -/
def exponent : Pattern :=
  seq (one fun c => c == 'e' || c == 'E')
    (seq (optional (one fun c => c == '+' || c == '-')) digits)

/-- Digits with a point and a fraction, with an exponent, or with both. -/
def float : Pattern :=
  alt (seq digits (seq (one (· == '.')) (seq digits (optional exponent)))) (seq digits exponent)

/-- A letter or underscore, then letters, underscores and digits. -/
def ident : Pattern := seq (one isNameStart) (many (one isNamePart))

/-- A run of blank characters. -/
def blanks : Pattern := .oneOrMore (one isBlank)

/-- A percent sign and the rest of its line, unless an exclamation mark follows at once. -/
def comment : Pattern :=
  seq (one (· == '%'))
    (optional (seq (one fun c => c != '!' && c != '\n') (many (one (· != '\n')))))

/-- Every rule, in order of precedence among matches of one length. -/
def all : List (Rule × Pattern) :=
  Word.all.map (fun w => (.token (.word w), exactly w.spelling.toList)) ++
  Mark.all.map (fun m => (.token (.mark m), exactly m.spelling.toList)) ++
  [(.token .int, digits), (.token .float, float), (.token .ident, ident),
   (.skip, blanks), (.skip, comment)]

end Rule

end TensorTree
