import TensorTree.Location
import TensorTree.Token.Rule

/-!
# The scanner

A scanner reads a text from left to right.  At each point it takes the longest match of the
lexical rules; where nothing matches it reports one character and goes on behind it.  It can be
asked for one token at a time or for all that remain, and after the token that marks the end of
the text it has nothing more to give.
-/

namespace TensorTree

/-! ## §1 Tokens and errors -/

/-- A token: its kind, where it stands and how it was written. -/
structure Token where
  kind : TokenKind
  span : Span
  lexeme : String
deriving DecidableEq

/-- A character at which no lexical rule matches. -/
structure ScanError where
  found : Char
  span : Span
deriving DecidableEq

/-- The message for an unexpected character. -/
def ScanError.message (e : ScanError) : String :=
  s!"unexpected character '{e.found}' at {e.span.text}"

/-! ## §2 The next match -/

/-- A match that is not skipped, with the text behind it. -/
structure Found where
  kind : TokenKind
  start : Location
  lexeme : List Char
  rest : List Char

/-- What the rules make of a text that is not empty: a rule and one less than the length of its
match, or nothing. -/
def matchRule? (cs : List Char) : Option (Rule × Nat) :=
  match Pattern.longest? Rule.all cs with
  | some (rule, n + 1) => some (rule, n)
  | _ => none

/-- Look for the first match that is not skipped.  The first argument counts the characters
that still belong to a skipped match. -/
def findNext : Nat → Location → List Char → Found
  | _, here, [] => ⟨.eof, here, [], []⟩
  | n + 1, here, c :: cs => findNext n (here.next c) cs
  | 0, here, c :: cs =>
    match matchRule? (c :: cs) with
    | some (.skip, n) => findNext n (here.next c) cs
    | some (.token kind, n) => ⟨kind, here, c :: cs.take n, cs.drop n⟩
    | none => ⟨.error, here, [c], cs⟩

namespace Found

/-- The span of a match; the end of the text has the span of the point where it stands. -/
def span (m : Found) : Span := .ofText m.start m.lexeme

/-- The token made of a match. -/
def token (m : Found) : Token := ⟨m.kind, m.span, .ofList m.lexeme⟩

/-- The error that a match reports, if any. -/
def error? (m : Found) : Option ScanError :=
  match m.kind, m.lexeme with
  | .error, c :: _ => some ⟨c, m.span⟩
  | _, _ => none

end Found

/-! ## §3 Scanners -/

/-- The state of a scanner. -/
structure Scanner where
  /-- The text that has not been read. -/
  rest : List Char
  /-- Where that text begins. -/
  here : Location
  /-- The errors reported so far, in order. -/
  errors : List ScanError
  /-- The end of the text has been reported. -/
  finished : Bool

namespace Scanner

/-- A scanner at the beginning of a text. -/
def ofText (text : String) : Scanner := ⟨text.toList, .start, [], false⟩

/-- The next token, if the end has not been reported yet. -/
def next (s : Scanner) : Option Token × Scanner :=
  if s.finished then (none, s)
  else
    let m := findNext 0 s.here s.rest
    (some m.token,
      { rest := m.rest
        here := m.start.after m.lexeme
        errors := s.errors ++ m.error?.toList
        finished := m.kind == .eof })

/-- The tokens of at most the given number of steps. -/
def take : Nat → Scanner → List Token × Scanner
  | 0, s => ([], s)
  | n + 1, s =>
    match s.next with
    | (none, s') => ([], s')
    | (some t, s') =>
      let (ts, s'') := take n s'
      (t :: ts, s'')

/-- All the tokens that remain.  Each token but the last one uses up a character, so the length
of the text bounds their number. -/
def collect (s : Scanner) : List Token × Scanner := s.take (s.rest.length + 1)

/-- All the tokens and all the errors of a text. -/
def tokenize (text : String) : List Token × List ScanError :=
  let (tokens, s) := (ofText text).collect
  (tokens, s.errors)

end Scanner

end TensorTree
