import TensorTree.Print.Piece
import TensorTree.Toml.Document

/-!
# Layout options from TOML

The options are read from the table `print` of a document.  What is not mentioned keeps its
default, and unknown keys are ignored; an array gives the options by position.
-/

namespace TensorTree

namespace LayoutOptions

open Toml (Item Fields)

def width? : Item → Option Nat
  | .int (.ofNat n) => some n
  | _ => none

def flag? : Item → Option Bool
  | .bool b => some b
  | _ => none

/-- Read an item that may be absent. -/
def readOr {α : Type} (default : α) (read? : Item → Option α) : Option Item → Option α
  | none => some default
  | some item => read? item

/-- The options that the items give; those that are absent keep their defaults. -/
def ofItems? (width spans newline : Option Item) : Option LayoutOptions := do
  let defaults : LayoutOptions := {}
  return {
    indentWidth := ← readOr defaults.indentWidth width? width
    showSpans := ← readOr defaults.showSpans flag? spans
    finalNewline := ← readOr defaults.finalNewline flag? newline }

/-- The options of the item `print`.  A date counts as a table without known keys. -/
def ofItem? : Item → Option LayoutOptions
  | .table _ fields =>
    ofItems? (fields.lookup "indent_size") (fields.lookup "show_spans")
      (fields.lookup "trailing_newline")
  | .array items => ofItems? items[0]? items[1]? items[2]?
  | .datetime _ => some {}
  | _ => none

/-- The options of a document, unless it is malformed or gives an option a value of a wrong
kind. -/
def ofToml? (source : String) : Option LayoutOptions := do
  let fields ← Toml.parse? source
  match fields.find? "print" with
  | none => return {}
  | some item => ofItem? item

/-! ## Files -/

/-- What is found where options are looked for. -/
inductive Source where
  | missing
  | directory
  | file (content : ByteArray)

/-- The options of a file.  A missing file gives the defaults; a directory and a file that is not
UTF-8 give none. -/
def load? : Source → Option LayoutOptions
  | .missing => some {}
  | .directory => none
  | .file content => (String.fromUTF8? content).bind ofToml?

end LayoutOptions

end TensorTree
