import TensorTree.Location
import TensorTree.Forest.Fault

/-!
# Pieces of printed text and their layout

A node is printed in pieces that say nothing about spaces at the beginning of a line or about
spans.  Written under given options, one after the other, they fill a page, which adds both.
Indentation is written in front of the first text of a line, so a line without text stays empty.
-/

namespace TensorTree

/-! ## §1 Pieces -/

/-- A piece of printed text. -/
inductive Piece where
  /-- Some text of a line. -/
  | text (s : String)
  /-- The end of a line, and the statement or declaration that the line belongs to, if its span
  can be noted there. -/
  | lineEnd (subject : Option NodeId)
  | indent
  | dedent
  /-- A part that cannot be printed. -/
  | fault (f : ReadFault)
deriving DecidableEq

/-! ## §2 Options -/

/-- How printed text is laid out. -/
structure LayoutOptions where
  /-- The number of spaces for each level. -/
  indentWidth : Nat := 4
  /-- The lines of statements and declarations end with their spans. -/
  showSpans : Bool := false
  /-- The text of a program ends with a line break. -/
  finalNewline : Bool := true
deriving DecidableEq

/-! ## §3 Layout -/

namespace LayoutOptions

/-- The spaces in front of a line. -/
def indentation (o : LayoutOptions) (depth : Nat) : String :=
  .ofList (List.replicate (depth * o.indentWidth) ' ')

/-- The comment at the end of a line that notes a span. -/
def spanNote (s : Span) : String := "  % " ++ s.text

end LayoutOptions

/-- A page that is being written. -/
structure Page where
  text : String := ""
  /-- The depth at which the next line stands. -/
  depth : Nat := 0
  /-- The line that is being written has no text yet. -/
  opensLine : Bool := true
deriving DecidableEq

namespace Page

/-- Write a text, with the indentation in front of it if it opens a line. -/
def write (o : LayoutOptions) (page : Page) (s : String) : Page :=
  if s.isEmpty then page
  else if page.opensLine then
    { page with text := page.text ++ o.indentation page.depth ++ s, opensLine := false }
  else { page with text := page.text ++ s }

def breakLine (page : Page) : Page := { page with text := page.text ++ "\n", opensLine := true }

/-- Write a piece.  Spans are only asked for if they are shown. -/
def add (o : LayoutOptions) (spanOf : NodeId → Except ReadFault Span) (page : Page) :
    Piece → Except ReadFault Page
  | .text s => .ok (page.write o s)
  | .lineEnd none => .ok page.breakLine
  | .lineEnd (some id) =>
    if o.showSpans then
      (spanOf id).map fun span => (page.write o (LayoutOptions.spanNote span)).breakLine
    else .ok page.breakLine
  | .indent => .ok { page with depth := page.depth + 1 }
  | .dedent => .ok { page with depth := page.depth - 1 }
  | .fault f => .error f

end Page

namespace LayoutOptions

/-- The text of pieces that are written on an empty page; the first fault among them counts. -/
def layout (o : LayoutOptions) (spanOf : NodeId → Except ReadFault Span) (pieces : List Piece) :
    Except ReadFault String :=
  (pieces.foldlM (Page.add o spanOf) {}).map Page.text

/-- Remove all line breaks at the end of a text. -/
def dropFinalNewlines (cs : List Char) : List Char :=
  (cs.reverse.dropWhile (· == '\n')).reverse

/-- End the text of a program as the options ask for: with a line break unless it is empty, or
without any. -/
def finish (o : LayoutOptions) (s : String) : String :=
  if o.finalNewline then
    if s.isEmpty || s.toList.getLast? == some '\n' then s else s ++ "\n"
  else .ofList (dropFinalNewlines s.toList)

end LayoutOptions

end TensorTree
