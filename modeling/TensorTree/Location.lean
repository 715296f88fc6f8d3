/-!
# Source locations and spans

A location is a line and a column, both counted from one in words of 32 bits; line zero stands for a
location that was never recorded.  A span holds two locations, and both of its ends are inclusive: a
token of one character begins and ends at the same location.
-/

namespace TensorTree

/-! ## §1 Locations -/

/-- A line and a column, counted in characters from one.  Behind the greatest word both go on with
zero. -/
structure Location where
  line : UInt32
  column : UInt32
deriving DecidableEq

namespace Location

/-- The location of the first character of a text. -/
def start : Location := ⟨1, 1⟩

/-- A location was never recorded exactly if its line is zero. -/
def isUnset (here : Location) : Bool := here.line == 0

/-- The location that follows a character: a line feed opens a new line. -/
def next (here : Location) (c : Char) : Location :=
  if c = '\n' then ⟨here.line + 1, 1⟩ else ⟨here.line, here.column + 1⟩

/-- The location that follows a run of characters. -/
def after (here : Location) (cs : List Char) : Location := cs.foldl next here

/-- Locations are ordered by line, then by column. -/
def compare (a b : Location) : Ordering :=
  (Ord.compare a.line b.line).then (Ord.compare a.column b.column)

/-- The text `line:column`. -/
def text (here : Location) : String := s!"{here.line}:{here.column}"

@[simp] theorem after_nil (here : Location) : here.after [] = here := rfl

@[simp] theorem after_cons (here : Location) (c : Char) (cs : List Char) :
    here.after (c :: cs) = (here.next c).after cs := rfl

theorem after_append (here : Location) (cs ds : List Char) :
    here.after (cs ++ ds) = (here.after cs).after ds := by
  simp [after]

end Location

/-! ## §2 Spans -/

/-- The locations of the first and of the last character of a stretch of text. -/
structure Span where
  first : Location
  last : Location
deriving DecidableEq

namespace Span

/-- The span of which nothing was recorded. -/
def unset : Span := ⟨⟨0, 0⟩, ⟨0, 0⟩⟩

def isUnset (s : Span) : Bool := s.first.isUnset && s.last.isUnset

def hasLast (s : Span) : Bool := !s.last.isUnset

/-- From the beginning of one span through the end of another. -/
def through (s t : Span) : Span := ⟨s.first, t.last⟩

/-- The same end with the beginning of another span. -/
def withFirstOf (s t : Span) : Span := ⟨t.first, s.last⟩

/-- The span of a run of characters that begins at a location. -/
def ofText (here : Location) (cs : List Char) : Span := ⟨here, here.after cs.dropLast⟩

/-- The text `line:column-line:column`. -/
def text (s : Span) : String := s!"{s.first.text}-{s.last.text}"

end Span

end TensorTree
