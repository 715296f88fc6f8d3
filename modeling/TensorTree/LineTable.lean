import TensorTree.Location

/-!
# Byte offsets and lines

A line table keeps the byte offset at which each line of a text starts and turns byte offsets of
the UTF-8 form into locations.  Offsets, lines and columns are words of 32 bits, so a text has to be
shorter than 4 GiB for its offsets to be told apart.  An offset past the end counts as the end.  A
column counts characters; where the offset falls inside a character it counts bytes.
-/

namespace TensorTree

/-! ## §1 Bytes of a list of characters -/

/-- The length of the UTF-8 form. -/
def byteLength : List Char → Nat
  | [] => 0
  | c :: cs => c.utf8Size + byteLength cs

/-- What follows the given number of bytes, unless that point falls inside a character or
beyond the end. -/
def dropBytes? : Nat → List Char → Option (List Char)
  | 0, cs => some cs
  | _ + 1, [] => none
  | n + 1, c :: cs => if c.utf8Size ≤ n + 1 then dropBytes? (n + 1 - c.utf8Size) cs else none

/-- The characters of exactly the given number of bytes, unless that point falls inside a
character or beyond the end. -/
def takeBytes? : Nat → List Char → Option (List Char)
  | 0, _ => some []
  | _ + 1, [] => none
  | n + 1, c :: cs =>
    if c.utf8Size ≤ n + 1 then (takeBytes? (n + 1 - c.utf8Size) cs).map (c :: ·) else none

/-- The characters between two byte offsets, if both are boundaries and in order. -/
def slice? (cs : List Char) (start stop : Nat) : Option (List Char) :=
  if start ≤ stop then (dropBytes? start cs).bind (takeBytes? (stop - start)) else none

/-- The byte offsets behind the line feeds of a text that begins at the given offset. -/
def lineStartsFrom : Nat → List Char → List Nat
  | _, [] => []
  | offset, c :: cs =>
    let next := offset + c.utf8Size
    if c = '\n' then next :: lineStartsFrom next cs else lineStartsFrom next cs

/-! ## §2 Line tables -/

/-- A text with the byte offset of each line. -/
structure LineTable where
  text : List Char
  starts : List UInt32

namespace LineTable

def ofText (text : String) : LineTable :=
  ⟨text.toList, (0 :: lineStartsFrom 0 text.toList).map .ofNat⟩

/-- The number of lines: one more than the number of line feeds. -/
def lineCount (t : LineTable) : Nat := t.starts.length

/-- The byte offset at which a line starts; lines are counted from zero. -/
def lineStart? (t : LineTable) (line : Nat) : Option UInt32 := t.starts[line]?

/-- The index of the last line that starts at or before an offset. -/
def lineAt (t : LineTable) (offset : UInt32) : Nat :=
  (t.starts.takeWhile (· ≤ offset)).length - 1

/-- The location of a byte offset. -/
def location (t : LineTable) (offset : UInt32) : Location :=
  let line := t.lineAt offset
  let lineStart := (t.starts.getD line 0).toNat
  let stop := min offset.toNat (byteLength t.text)
  let width :=
    match slice? t.text lineStart stop with
    | some cs => cs.length
    | none => stop - lineStart
  ⟨.ofNat (line + 1), .ofNat width + 1⟩

/-- The span of the bytes from `start` up to, and without, `stop`.  Its last location is that of
the last character; a range that is empty or cuts a character counts as its start. -/
def span (t : LineTable) (start stop : UInt32) : Span :=
  let last :=
    match slice? t.text start.toNat stop.toNat with
    | some cs => start + .ofNat (byteLength cs.dropLast)
    | none => start
  ⟨t.location start, t.location last⟩

end LineTable

end TensorTree
