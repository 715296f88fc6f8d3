/-!
# TOML documents

A document is a table of items.  Tables come into being in four ways, which decide what may be
added to them later: a table named by a header takes no second header, a table that a longer
header implies may still get its own, a table made by a dotted key takes further dotted keys only,
and an inline table is complete as it stands.
-/

namespace TensorTree.Toml

/-! ## §1 Items -/

/-- How a table came into being. -/
inductive Origin where
  /-- Named by a header of its own, or the whole document. -/
  | header
  /-- Implied by the header of a table inside it. -/
  | implied
  /-- Made by a dotted key. -/
  | dotted
  /-- Written between braces. -/
  | inline
deriving DecidableEq

/-- A value, a table or a list of tables. -/
inductive Item where
  | text (value : String)
  | int (value : Int)
  | bool (value : Bool)
  /-- A floating-point number, as written. -/
  | float (written : String)
  /-- A date, a time or both, as written. -/
  | datetime (written : String)
  | array (items : List Item)
  | table (origin : Origin) (fields : List (String × Item))
  /-- The tables of one repeated header. -/
  | tables (elements : List (List (String × Item)))

/-- The fields of a table. -/
abbrev Fields : Type := List (String × Item)

namespace Fields

/-- The item of a key. -/
def find? (fields : Fields) (key : String) : Option Item := fields.lookup key

/-- Give a key an item, in place of the one that it has or behind all others. -/
def put (key : String) (item : Item) : Fields → Fields
  | [] => [(key, item)]
  | (k, old) :: fields =>
    if k = key then (key, item) :: fields else (k, old) :: put key item fields

/-- Give a new key an item. -/
def add? (fields : Fields) (key : String) (item : Item) : Option Fields :=
  match fields.find? key with
  | none => some (fields ++ [(key, item)])
  | some _ => none

/-! ## §2 Changing a table along a path -/

/-- Change the table that a path leads to.  Tables that are missing on the way are made with the
given origin; a list of tables leads to its last one; values lead nowhere, and a dotted key does
not lead into a table that has a header or is inline. -/
def alter (origin : Origin) (change : Origin → Fields → Option Fields) :
    List String → Origin → Fields → Option Fields
  | [], here, fields => change here fields
  | key :: path, _, fields =>
    match fields.find? key with
    | none =>
      (alter origin change path origin []).map fun inner => fields.put key (.table origin inner)
    | some (.table found inner) =>
      if found = .inline ∨ (found = .header ∧ origin = .dotted) then none
      else
        (alter origin change path found inner).map fun inner => fields.put key (.table found inner)
    | some (.tables elements) =>
      match elements.getLast? with
      | none => none
      | some last =>
        (alter origin change path .header last).map fun last =>
          fields.put key (.tables (elements.dropLast ++ [last]))
    | some _ => none

/-- Add an item under a dotted key, whose last part is the name of the item.  A table that was
made by a dotted key takes items from dotted keys only, and any other table from plain keys
only. -/
def insert (path : List String) (key : String) (item : Item) (here : Origin) (fields : Fields) :
    Option Fields :=
  alter .dotted
    (fun origin fields =>
      if (origin == .dotted) == path.isEmpty then none else fields.add? key item)
    path here fields

/-- Open the table of a header, given the path to its parent. -/
def openTable (path : List String) (key : String) (fields : Fields) : Option Fields :=
  alter .implied
    (fun _ fields =>
      match fields.find? key with
      | none => some (fields.put key (.table .header []))
      | some (.table .implied inner) => some (fields.put key (.table .header inner))
      | some _ => none)
    path .header fields

/-- Open the next table of a repeated header, given the path to its parent. -/
def openElement (path : List String) (key : String) (fields : Fields) : Option Fields :=
  alter .implied
    (fun _ fields =>
      match fields.find? key with
      | none => some (fields.put key (.tables [[]]))
      | some (.tables elements) => some (fields.put key (.tables (elements ++ [[]])))
      | some _ => none)
    path .header fields

/-- Add an item under a dotted key below the table of a header. -/
def insertBelow (header : List String) (path : List String) (key : String) (item : Item)
    (fields : Fields) : Option Fields :=
  alter .implied (insert path key item) header .header fields

end Fields

end TensorTree.Toml
