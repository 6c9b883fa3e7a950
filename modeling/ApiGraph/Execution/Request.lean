import ApiGraph.Graph.Node
import ApiGraph.Host
import ApiGraph.Json.Reader

/-!
# Requests

A request selects fields of an operation, with arguments that are written in the query or given as
values of variables.

## What is here

* `WireValue.written`: what a value becomes by being written into a query.
* `QueryValue`, `Selection`, `Request`.
* `Selection.fieldCount`, `Selection.depth`: what the limits of a schema are on.
* `Selection.levels`: what the limit of the engine is on.
* `PathStep`: places in arguments and in responses.
-/

set_option autoImplicit false

namespace ApiGraph

/-! ## Written values -/

/-- A number as it is read from its own text.  A float with many digits may become a neighbour,
since reading rounds twice. -/
def WireNumber.written (n : WireNumber) : WireNumber :=
  match Json.readNumber n.text.toList with
  | some (m, []) => m
  | _ => n

namespace WireValue

mutual

/-- A value as it is read from its own text. -/
def written : WireValue → WireValue
  | .number n => .number n.written
  | .binary bytes => .ofBytes bytes
  | .list items => .list (writtenItems items)
  | .object entries => .object (writtenEntries entries)
  | value => value

/-- The items of a list as they are read from their texts. -/
def writtenItems : List WireValue → List WireValue
  | [] => []
  | v :: rest => v.written :: writtenItems rest

/-- The entries of an object as they are read from their texts. -/
def writtenEntries : List (String × WireValue) → List (String × WireValue)
  | [] => []
  | (key, v) :: rest => (key, v.written) :: writtenEntries rest

end

end WireValue

/-! ## Requests -/

/-- An argument as written in a query. -/
inductive QueryValue where
  | literal (value : WireValue)
  | variable (name : String)
  | list (items : List QueryValue)
  | object (entries : List (String × QueryValue))

namespace QueryValue

mutual

/-- The value of an argument under values for the variables, which travel as plain documents and
are not part of the query's text. -/
def resolve (vars : OrderedMap String WireValue) : QueryValue → WireValue
  | .literal value => value.written
  | .variable name => ((OrderedMap.find vars name).map WireValue.sorted).getD .null
  | .list items => .list (resolveItems vars items)
  | .object entries => .object (resolveEntries vars entries)

/-- The values of the items of a list. -/
def resolveItems (vars : OrderedMap String WireValue) : List QueryValue → List WireValue
  | [] => []
  | v :: rest => v.resolve vars :: resolveItems vars rest

/-- The values of the entries of an object. -/
def resolveEntries (vars : OrderedMap String WireValue) :
    List (String × QueryValue) → List (String × WireValue)
  | [] => []
  | (key, v) :: rest => (key, v.resolve vars) :: resolveEntries vars rest

end

end QueryValue

/-- A part of a selection set. -/
inductive Selection where
  /-- A field, under its own name or another one. -/
  | field (name : String) (alias? : Option String) (args : List (String × QueryValue))
      (select : List Selection)
  /-- Selections that apply to objects of a type. -/
  | fragment (type : String) (select : List Selection)

/-- A request to an executable schema. -/
structure Request where
  operation : Operation := .query
  select : List Selection
  vars : OrderedMap String WireValue := []
  context : Option RequestContext := none

/-! ## Measures -/

namespace Selection

mutual

/-- How many fields a selection has; the name of a type is not one of them. -/
def fieldCount : Selection → Nat
  | .field name _ _ select => if name == "__typename" then 0 else fieldCounts select + 1
  | .fragment _ select => fieldCounts select

/-- How many fields a selection set has. -/
def fieldCounts : List Selection → Nat
  | [] => 0
  | s :: rest => s.fieldCount + fieldCounts rest

end

mutual

/-- How deep the fields of a selection are nested. -/
def depth : Selection → Nat
  | .field name _ _ select => if name == "__typename" then 0 else depths select + 1
  | .fragment _ select => depths select

/-- How deep the fields of a selection set are nested. -/
def depths : List Selection → Nat
  | [] => 0
  | s :: rest => max s.depth (depths rest)

end

mutual

/-- How many selection sets lie in one another in a selection, those of fragments included. -/
def levels : Selection → Nat
  | .field _ _ _ select => if select.isEmpty then 0 else levelsAll select + 1
  | .fragment _ select => levelsAll select + 1

/-- How many selection sets lie in one another within a selection set. -/
def levelsAll : List Selection → Nat
  | [] => 0
  | s :: rest => max s.levels (levelsAll rest)

end

mutual

/-- The fields of a selection on an object type that claims no interfaces. -/
def fieldsOn (type : String) : Selection → List Selection
  | .field name other args select => [.field name other args select]
  | .fragment name select => if name == type then allFieldsOn type select else []

/-- The fields of a selection set on an object type that claims no interfaces. -/
def allFieldsOn (type : String) : List Selection → List Selection
  | [] => []
  | s :: rest => s.fieldsOn type ++ allFieldsOn type rest

end

end Selection

/-! ## Places -/

/-- A step from a value to a part of it. -/
inductive PathStep where
  | key (name : String)
  | index (position : Nat)
deriving DecidableEq, Repr

/-- The text of a step. -/
def PathStep.display : PathStep → String
  | .key name => name
  | .index position => toString position

end ApiGraph
