import TensorTree.Toml.Item
import TensorTree.Toml.Number
import TensorTree.Toml.Text

/-!
# Reading TOML documents

A document is read line by line: keys with values go into the table of the last header.  Arrays
and inline tables nest to a limited depth, and dotted keys have a limited number of parts.
-/

namespace TensorTree.Toml

/-! ## §1 Keys -/

/-- The number of nested values, and of parts of a dotted key, that is not reached. -/
def nestingLimit : Nat := 80

/-- Characters of a key without quotation marks. -/
def isBareKeyChar (c : Char) : Bool := c.isAlphanum || c == '_' || c == '-'

/-- Take one part of a key. -/
def simpleKey : Reader String := do
  match ← Reader.peek? with
  | some '"' => basicString
  | some '\'' => literalString
  | _ => return .ofList (← Reader.oneOrMore isBareKeyChar)

/-- Take the parts of a dotted key behind a first one, in at most the given number of steps. -/
def moreKeys : Nat → Reader (List String)
  | 0 => pure []
  | n + 1 => do
    spaces
    if (← Reader.peek?) == some '.' then
      Reader.char '.'
      spaces
      let key ← simpleKey
      return key :: (← moreKeys n)
    else return []

/-- Take a dotted key, with blank space around its parts, and give the path and the last part. -/
def dottedKey : Reader (List String × String) := do
  spaces
  let first ← simpleKey
  let keys := first :: (← moreKeys nestingLimit)
  if keys.length < nestingLimit then
    match keys.getLast? with
    | some key => return (keys.dropLast, key)
    | none => Reader.reject
  else Reader.reject

/-! ## §2 Values -/

/-- Take a value that holds no other values. -/
def scalar : Reader Item := do
  match ← Reader.peek? with
  | some '"' | some '\'' => return .text (← anyString)
  | some 't' => Reader.exactly "true"; return .bool true
  | some 'f' => Reader.exactly "false"; return .bool false
  | _ =>
    (do return .datetime (.ofList (← Reader.taken datetime))) <|>
    (do return .float (.ofList (← Reader.taken float))) <|>
    (do return .int (← integer))

mutual

/-- Take a value inside the given number of others, in at most the given number of steps. -/
def value : Nat → Nat → Reader Item
  | 0, _ => Reader.reject
  | n + 1, depth => do
    match ← Reader.peek? with
    | some '[' =>
      if depth + 1 < nestingLimit then
        Reader.char '['
        return .array (← arrayItems n (depth + 1))
      else Reader.reject
    | some '\x7b' =>
      if depth + 1 < nestingLimit then
        Reader.char '\x7b'
        spaces
        if (← Reader.peek?) == some '\x7d' then
          Reader.char '\x7d'
          return .table .inline []
        else return .table .inline (← inlineFields n (depth + 1) [])
      else Reader.reject
    | _ => scalar

/-- Take the items of an array behind its opening or behind a comma, and its closing. -/
def arrayItems : Nat → Nat → Reader (List Item)
  | 0, _ => Reader.reject
  | n + 1, depth => do
    gap (n + 1)
    if (← Reader.peek?) == some ']' then
      Reader.char ']'
      return []
    else
      let item ← value n depth
      gap (n + 1)
      if (← Reader.peek?) == some ',' then
        Reader.char ','
        return item :: (← arrayItems n depth)
      else
        Reader.char ']'
        return [item]

/-- Take the fields of an inline table behind its opening or behind a comma, and its closing. -/
def inlineFields : Nat → Nat → Fields → Reader Fields
  | 0, _, _ => Reader.reject
  | n + 1, depth, fields => do
    let (path, key) ← dottedKey
    Reader.char '='
    spaces
    let item ← value n depth
    spaces
    let fields ← Reader.ofOption (Fields.insert path key item .inline fields)
    if (← Reader.peek?) == some ',' then
      Reader.char ','
      inlineFields n depth fields
    else
      Reader.char '\x7d'
      return fields

end

/-! ## §3 Documents -/

/-- What has been read of a document: its fields and the header under which the next key
stands. -/
structure Draft where
  fields : Fields
  header : List String

/-- Take a header and open its table. -/
def header (d : Draft) : Reader Draft := do
  Reader.char '['
  if (← Reader.peek?) == some '[' then
    Reader.char '['
    let (path, key) ← dottedKey
    Reader.exactly "]]"
    restOfLine
    return ⟨← Reader.ofOption (d.fields.openElement path key), path ++ [key]⟩
  else
    let (path, key) ← dottedKey
    Reader.char ']'
    restOfLine
    return ⟨← Reader.ofOption (d.fields.openTable path key), path ++ [key]⟩

/-- Take a key with its value and add it to the table of the last header. -/
def keyValue (steps : Nat) (d : Draft) : Reader Draft := do
  let (path, key) ← dottedKey
  Reader.char '='
  spaces
  let item ← value steps 0
  restOfLine
  return { d with fields := ← Reader.ofOption (d.fields.insertBelow d.header path key item) }

/-- Take all lines of a document, in at most the given number of steps. -/
def lines : Nat → Draft → Reader Draft
  | 0, _ => Reader.reject
  | n + 1, d => do
    spaces
    match ← Reader.peek? with
    | none => return d
    | some '#' => restOfLine; lines n d
    | some '\n' | some '\r' => lineEnd; lines n d
    | some '[' => lines n (← header d)
    | some _ => lines n (← keyValue (2 * n + 2) d)

/-- The fields of a document; a byte order mark in front of it is ignored. -/
def parse? (source : String) : Option Fields :=
  let cs :=
    match source.toList with
    | '\ufeff' :: cs => cs
    | cs => cs
  ((lines (cs.length + 1) ⟨[], []⟩).run cs).map fun (d, _) => d.fields

end TensorTree.Toml
