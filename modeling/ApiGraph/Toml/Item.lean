import ApiGraph.Number.Binary64
import ApiGraph.OrderedMap

/-!
# What a TOML document holds

A document is a table of items.  How a table came about decides who may add to it: a header may
take over a table that only longer headers have mentioned, a dotted key may add to tables made by
dotted keys, and nothing may add to a table written between braces.

## What is here

* `Item`, `Origin`, and `Origin.passes`: where paths lead.
* `Table.define`: gives a dotted key a value.
* `Table.openTable`, `Table.openRow`: what a header does.
-/

set_option autoImplicit false

namespace ApiGraph.Toml

/-- How a table came about. -/
inductive Origin where
  /-- By a header of its own, or as the document itself. -/
  | header
  /-- As a part of longer headers. -/
  | implied
  /-- As a part of a dotted key. -/
  | dotted
  /-- Between braces. -/
  | inline
deriving DecidableEq, Repr

/-- Whether a path whose own tables have the first origin leads through tables of the second.  No
path leads into a table between braces, and no dotted key into one with a header of its own. -/
def Origin.passes (own : Origin) : Origin → Bool
  | .inline => false
  | .header => own != .dotted
  | .implied | .dotted => true

/-- What a key stands for. -/
inductive Item where
  | string (text : String)
  | integer (value : Int)
  /-- A finite number, or none for infinities and what is no number. -/
  | float (value : Option Binary64)
  | boolean (value : Bool)
  | dateTime (text : String)
  /-- A list between brackets. -/
  | array (items : List Item)
  | table (origin : Origin) (entries : List (String × Item))
  /-- The rows made by headers in double brackets. -/
  | rows (rows : List (List (String × Item)))

/-- The entries of a table. -/
abbrev Table := OrderedMap String Item

namespace Table

/-- Changes the last of some rows. -/
def changeLast (change : Table → Option Table) : List Table → Option (List Table)
  | [] => none
  | [row] => (change row).map fun row ↦ [row]
  | row :: rest => (changeLast change rest).map fun rest ↦ row :: rest

/-- Changes the table to which a path leads, given how that table came about.  The path is of
headers, whose own tables are implied, or of a dotted key; what is missing is made on the way. -/
def along (own : Origin) (change : Origin → Table → Option Table) :
    List String → Origin → Table → Option Table
  | [], origin, t => change origin t
  | key :: path, _, t =>
    match OrderedMap.find t key with
    | none => do
      let made ← along own change path own []
      return OrderedMap.put t key (.table own made)
    | some (.table origin entries) =>
      if own.passes origin then do
        let made ← along own change path origin entries
        return OrderedMap.put t key (.table origin made)
      else none
    | some (.rows rows) => do
      let made ← changeLast (along own change path .header) rows
      return OrderedMap.put t key (.rows made)
    | some _ => none

/-- Gives a key without a value a value. -/
def insertNew (key : String) (item : Item) (t : Table) : Option Table :=
  if OrderedMap.has t key then none else some (OrderedMap.put t key item)

/-- Gives a dotted key a value.  The key goes through tables that longer headers imply, but the
table that gets the value must have been made by dotted keys, or be the one where they start. -/
def define (path : List String) (item : Item) (t : Table) : Option Table :=
  match path.getLast? with
  | none => none
  | some key =>
    along .dotted
      (fun origin t ↦ if origin == .dotted then insertNew key item t else none)
      path.dropLast .dotted t

/-- Gives a dotted key a value in the table of a header. -/
def defineUnder (header path : List String) (item : Item) (t : Table) : Option Table :=
  along .implied (fun _ t ↦ define path item t) header .header t

/-- Opens the table of a header; it may be there only as a part of longer headers. -/
def openTable (path : List String) (t : Table) : Option Table :=
  match path.getLast? with
  | none => none
  | some key =>
    along .implied
      (fun _ t ↦
        match OrderedMap.find t key with
        | none => some (OrderedMap.put t key (.table .header []))
        | some (.table .implied entries) => some (OrderedMap.put t key (.table .header entries))
        | some _ => none)
      path.dropLast .header t

/-- Opens a new row for a header in double brackets. -/
def openRow (path : List String) (t : Table) : Option Table :=
  match path.getLast? with
  | none => none
  | some key =>
    along .implied
      (fun _ t ↦
        match OrderedMap.find t key with
        | none => some (OrderedMap.put t key (.rows [[]]))
        | some (.rows rows) => some (OrderedMap.put t key (.rows (rows ++ [[]])))
        | some _ => none)
      path.dropLast .header t

end Table

end ApiGraph.Toml
