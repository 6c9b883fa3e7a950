import ApiGraph.Config
import ApiGraph.Toml.Document

/-!
# Configurations in TOML

The keys of a document's outermost table that a configuration knows must have values of the right
kind; all other keys are passed over, though their numbers must be within range.

## What is here

* `Config.ofTable?`: the configuration of a table, with defaults for what is missing.
* `Config.ofToml?`: the configuration of a text.
-/

set_option autoImplicit false

namespace ApiGraph

namespace Toml

/-- A text. -/
def Item.text? : Item → Option String
  | .string text => some text
  | _ => none

/-- A number of things, of 64 bits. -/
def Item.count? : Item → Option Nat
  | .integer value => if 0 ≤ value && value.toNat < Nat.pow 2 64 then some value.toNat else none
  | _ => none

/-- A truth value. -/
def Item.truth? : Item → Option Bool
  | .boolean value => some value
  | _ => none

/-- The value of a key, or a default if the key is missing. -/
def Table.getD {α : Type} (t : Table) (key : String) (read : Item → Option α) (default : α) :
    Option α :=
  match OrderedMap.find t key with
  | some item => read item
  | none => some default

mutual

/-- Whether all integers of an item have at most 128 bits. -/
def Item.inRange : Item → Bool
  | .integer value =>
    if value < 0 then value.natAbs ≤ Nat.pow 2 127 else value.natAbs < Nat.pow 2 128
  | .array items => itemsInRange items
  | .table _ entries => entriesInRange entries
  | .rows rows => rowsInRange rows
  | _ => true

/-- Whether all integers of a list have at most 128 bits. -/
def itemsInRange : List Item → Bool
  | [] => true
  | item :: rest => item.inRange && itemsInRange rest

/-- Whether all integers of a table have at most 128 bits. -/
def entriesInRange : List (String × Item) → Bool
  | [] => true
  | (_, item) :: rest => item.inRange && entriesInRange rest

/-- Whether all integers of some rows have at most 128 bits. -/
def rowsInRange : List (List (String × Item)) → Bool
  | [] => true
  | row :: rest => entriesInRange row && rowsInRange rest

end

end Toml

namespace Config

open Toml

/-- The configuration of a table; a key with a value of another kind is an error. -/
def ofTable? (t : Table) : Option Config := do
  let defaults : Config := {}
  let queryTypeName ← t.getD "query_type_name" Item.text? defaults.queryTypeName
  let mutationTypeName ← t.getD "mutation_type_name" Item.text? defaults.mutationTypeName
  let maxDepth ← t.getD "max_depth" Item.count? defaults.maxDepth
  let maxComplexity ← t.getD "max_complexity" Item.count? defaults.maxComplexity
  let introspection ← t.getD "introspection" Item.truth? defaults.introspection
  if entriesInRange t then
    some { queryTypeName, mutationTypeName, maxDepth, maxComplexity, introspection }
  else none

/-- The configuration of a text; it is not checked. -/
def ofToml? (text : String) : Option Config := (document? text).bind ofTable?

end Config

end ApiGraph
