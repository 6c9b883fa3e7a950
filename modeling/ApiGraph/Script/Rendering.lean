import ApiGraph.Script.Scope

/-!
# Values and reports as documents

## What is here

* `Json.ofWire`: wire values; objects list their entries, so that any key may occur.
* `Scope.renderValue`, `Scope.renderReport`: values of the program and reports of callables.
-/

set_option autoImplicit false

namespace ApiGraph

namespace Json

/-- The document of an integer. -/
def ofInt (n : Int) : Json := .number (.int n)

/-- The document of something that may be missing. -/
def ofOption {α : Type} (render : α → Json) : Option α → Json
  | some a => render a
  | none => .null

/-- The document of a text that may be missing. -/
def ofText? : Option String → Json := ofOption .string

/-- A list of entries, each a list of a key and a value. -/
def ofPairs (entries : List (String × Json)) : Json :=
  .array (entries.map fun (key, v) ↦ .array [.string key, v])

/-- An object that says what it is under the key `$`. -/
def tagged (tag : String) (entries : List (String × Json)) : Json :=
  .object (("$", .string tag) :: entries)

mutual

/-- The document of a wire value. -/
def ofWire : WireValue → Json
  | .null => .null
  | .boolean value => .boolean value
  | .number value => .number value
  | .string text => .string text
  | .enum name => tagged "enum" [("name", .string name)]
  | .binary bytes => .array (bytes.map fun b ↦ ofInt b.toNat)
  | .list items => .array (ofWireItems items)
  | .object entries => tagged "object" [("entries", ofPairs (ofWireEntries entries))]

/-- The documents of several wire values. -/
def ofWireItems : List WireValue → List Json
  | [] => []
  | v :: rest => ofWire v :: ofWireItems rest

/-- The documents of entries. -/
def ofWireEntries : List (String × WireValue) → List (String × Json)
  | [] => []
  | (key, v) :: rest => (key, ofWire v) :: ofWireEntries rest

end

/-- The document of a place in the graph. -/
def ofInfo (i : ResolveInfo) : Json :=
  .array [.string i.parentType, .string i.fieldName, .string i.returnType]

/-- The document of a wire value that is a scalar; what is none says so. -/
def ofScalar (v : WireValue) : Json :=
  match v with
  | .null | .list _ | .object _ => tagged "scalar" [("value", ofWire v)]
  | v => ofWire v

/-- The document of foreign data. -/
def ofForeign : Foreign → Json
  | .data d => tagged "opaque" [("tag", .string d.label)]
  | .context d => tagged "opaque" [("context", .string d.label)]
  | .info i _ => tagged "opaque" [("info", ofInfo i)]

end Json

namespace Script

namespace Scope

mutual

/-- The document of a value; methods are left out. -/
def renderValue (s : Scope) : HostValue → Json
  | .undefined => Json.tagged "undefined" []
  | .null => .null
  | .scalar v => Json.ofScalar v
  | .list items => .array (renderItems s items)
  | .object entries => Json.tagged "object" [("entries", Json.ofPairs (renderEntries s entries))]
  | .instanceOf c props _ =>
    Json.tagged "instance"
      [("class", .string (s.className c)), ("props", Json.ofPairs (renderEntries s props))]
  | .foreign d => Json.ofForeign d

/-- The documents of several values. -/
def renderItems (s : Scope) : List HostValue → List Json
  | [] => []
  | v :: rest => renderValue s v :: renderItems s rest

/-- The documents of entries. -/
def renderEntries (s : Scope) : List (String × HostValue) → List (String × Json)
  | [] => []
  | (key, v) :: rest => (key, renderValue s v) :: renderEntries s rest

end

/-- The document of a request's context. -/
def renderContext (c : Option RequestContext) : Json := Json.ofText? (c.map HostData.label)

/-- The documents of what a callable of a field sees. -/
def renderData (s : Scope) (d : ResolverData) : List Json :=
  [s.renderValue d.source, Json.ofPairs (s.renderEntries d.args), renderContext d.context,
    Json.ofInfo d.info]

/-- The document of a report. -/
def renderReport (s : Scope) : Report → Json
  | .method tag source args =>
    .array [.string "method", .string tag, s.renderValue source, .array (s.renderItems args)]
  | .before tag data => .array (.string "before" :: .string tag :: s.renderData data)
  | .after tag v data =>
    .array (.string "after" :: .string tag :: s.renderValue v :: s.renderData data)
  | .discriminated tag v context info =>
    .array [.string "discriminate", .string tag, s.renderValue v, renderContext context,
      Json.ofInfo info]
  | .constructed c => .array [.string "construct", .string (s.className c)]
  | .forced label => .array [.string "thunk", .string label]

end Scope

end Script

end ApiGraph
