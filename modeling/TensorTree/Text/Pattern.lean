/-!
# Regular patterns and the longest match

A pattern denotes a set of character lists (`Pattern.Matches`).  Matching never looks at that
set: reading a character replaces a pattern by its residual, the pattern of what may still
follow, and `longest?` runs a list of labelled patterns in step, remembering the last point at
which one of them accepted.  Among labels that accept at the same point the first one wins.
-/

namespace TensorTree

/-- A regular pattern over characters. -/
inductive Pattern where
  /-- No text at all. -/
  | nothing
  /-- The empty text only. -/
  | empty
  /-- Any single character of a class. -/
  | one (accepts : Char → Bool)
  /-- A text of the left pattern, then one of the right pattern. -/
  | seq (left right : Pattern)
  /-- A text of either pattern. -/
  | alt (left right : Pattern)
  /-- Any number of texts of the body, one after another. -/
  | many (body : Pattern)

namespace Pattern

/-! ## §1 What a pattern denotes -/

/-- The texts that a pattern denotes. -/
inductive Matches : Pattern → List Char → Prop where
  | empty : Matches .empty []
  | one {accepts : Char → Bool} {c : Char} : accepts c = true → Matches (.one accepts) [c]
  | seq {p q : Pattern} {u v : List Char} :
      Matches p u → Matches q v → Matches (.seq p q) (u ++ v)
  | altLeft {p q : Pattern} {u : List Char} : Matches p u → Matches (.alt p q) u
  | altRight {p q : Pattern} {u : List Char} : Matches q u → Matches (.alt p q) u
  | manyNil {p : Pattern} : Matches (.many p) []
  | manyCons {p : Pattern} {u v : List Char} :
      Matches p u → Matches (.many p) v → Matches (.many p) (u ++ v)

/-! ## §2 Building patterns -/

/-- Exactly one given text. -/
def exactly : List Char → Pattern
  | [] => .empty
  | c :: cs => .seq (.one (· == c)) (exactly cs)

/-- A text of the pattern or nothing. -/
def optional (p : Pattern) : Pattern := .alt p .empty

/-- One or more texts of the pattern. -/
def oneOrMore (p : Pattern) : Pattern := .seq p (.many p)

/-! ## §3 Residuals -/

/-- The pattern accepts the empty text. -/
def nullable : Pattern → Bool
  | .nothing => false
  | .empty => true
  | .one _ => false
  | .seq p q => p.nullable && q.nullable
  | .alt p q => p.nullable || q.nullable
  | .many _ => true

/-- Sequence, with the trivial cases removed. -/
def andThen : Pattern → Pattern → Pattern
  | .nothing, _ => .nothing
  | .empty, q => q
  | p, q => .seq p q

/-- Alternative, with the trivial cases removed. -/
def orElse : Pattern → Pattern → Pattern
  | .nothing, q => q
  | p, .nothing => p
  | p, q => .alt p q

/-- What may still follow once a character has been read. -/
def residual : Pattern → Char → Pattern
  | .nothing, _ => .nothing
  | .empty, _ => .nothing
  | .one accepts, c => if accepts c then .empty else .nothing
  | .seq p q, c =>
    if p.nullable then ((p.residual c).andThen q).orElse (q.residual c)
    else (p.residual c).andThen q
  | .alt p q, c => (p.residual c).orElse (q.residual c)
  | .many p, c => (p.residual c).andThen (.many p)

/-- The pattern can be told at sight to denote nothing. -/
def isNothing : Pattern → Bool
  | .nothing => true
  | _ => false

/-! ## §4 The longest match of a list of labelled patterns -/

variable {α : Type}

/-- The first label whose pattern accepts at this point. -/
def accepted? (live : List (α × Pattern)) : Option α :=
  (live.find? fun entry => entry.2.nullable).map Prod.fst

/-- The labelled patterns that are still alive after a character. -/
def step (live : List (α × Pattern)) (c : Char) : List (α × Pattern) :=
  (live.map fun entry => (entry.1, entry.2.residual c)).filter fun entry => !entry.2.isNothing

/-- The label and the length of the longest beginning of the text that some pattern denotes. -/
def longest? : List (α × Pattern) → List Char → Option (α × Nat)
  | live, [] => (accepted? live).map fun label => (label, 0)
  | live, c :: cs =>
    let here := (accepted? live).map fun label => (label, 0)
    match step live c with
    | [] => here
    | entry :: entries =>
      match longest? (entry :: entries) cs with
      | some (label, n) => some (label, n + 1)
      | none => here

end Pattern

end TensorTree
