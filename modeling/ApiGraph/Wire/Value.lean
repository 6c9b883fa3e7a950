import ApiGraph.OrderedMap
import ApiGraph.Wire.Number

/-!
# Values on the wire

A `WireValue` is what crosses the border to the query engine: arguments, defaults, enum values and
response data.  Objects keep the order of their keys, but equality does not look at it.

## What is here

* `WireValue` with its equality `same`.
* `WireValue.sorted`: the value with the keys of every object sorted and enum names turned into
  strings, which is what becomes of a value that travels as a variable.
-/

set_option autoImplicit false

namespace ApiGraph

/-- A value of the query language. -/
inductive WireValue where
  | null
  | boolean (value : Bool)
  | number (value : WireNumber)
  | string (text : String)
  /-- An enum member, written as a bare name. -/
  | enum (name : String)
  /-- Raw bytes, which no document has but a program may make. -/
  | binary (bytes : List UInt8)
  | list (items : List WireValue)
  | object (entries : List (String × WireValue))
deriving Repr

namespace WireValue

instance : Inhabited WireValue := ⟨.null⟩

/-- The value of an integer. -/
def ofInt (n : Int) : WireValue := .number (.int n)

/-- What a document has in the place of bytes. -/
def ofBytes (bytes : List UInt8) : WireValue := .list (bytes.map fun b ↦ .ofInt b.toNat)

/-- Whether a value is null. -/
def isNull : WireValue → Bool
  | .null => true
  | _ => false

/-! ## Equality -/

mutual

/-- Equality of values: objects regardless of the order of their keys, and an enum member equal to
a string of its name. -/
def same : WireValue → WireValue → Bool
  | .null, .null => true
  | .boolean a, .boolean b => a == b
  | .number a, .number b => a.same b
  | .string a, .string b => a == b
  | .string a, .enum b => a == b
  | .enum a, .string b => a == b
  | .enum a, .enum b => a == b
  | .binary a, .binary b => a == b
  | .list as, .list bs => sameItems as bs
  | .object as, .object bs => as.length == bs.length && sameEntries as bs
  | _, _ => false

/-- Equality of lists, item by item. -/
def sameItems : List WireValue → List WireValue → Bool
  | [], [] => true
  | a :: as, b :: bs => same a b && sameItems as bs
  | _, _ => false

/-- Whether every entry has an equal one under its key. -/
def sameEntries : List (String × WireValue) → List (String × WireValue) → Bool
  | [], _ => true
  | (key, a) :: rest, bs =>
    (match OrderedMap.find bs key with
      | some b => same a b
      | none => false) && sameEntries rest bs

end

/-! ## Variables -/

/-- Puts an entry among entries sorted by key, in front of the first greater key and in place of
an equal one. -/
def insertSorted (key : String) (value : WireValue) :
    List (String × WireValue) → List (String × WireValue)
  | [] => [(key, value)]
  | (k, v) :: rest =>
    if key = k then (key, value) :: rest
    else if key < k then (key, value) :: (k, v) :: rest
    else (k, v) :: insertSorted key value rest

mutual

/-- The value as a plain document carries it: enum names become strings, and the keys of every
object are sorted. -/
def sorted : WireValue → WireValue
  | .enum name => .string name
  | .binary bytes => .ofBytes bytes
  | .list items => .list (sortedItems items)
  | .object entries => .object (sortedEntries entries)
  | other => other

/-- The items of a list, each sorted. -/
def sortedItems : List WireValue → List WireValue
  | [] => []
  | v :: rest => sorted v :: sortedItems rest

/-- The entries of an object by key, each value sorted; of two equal keys the last one stays. -/
def sortedEntries : List (String × WireValue) → List (String × WireValue)
  | [] => []
  | (k, v) :: rest =>
    let tail := sortedEntries rest
    if OrderedMap.has tail k then tail else insertSorted k (sorted v) tail

end

end WireValue

end ApiGraph
