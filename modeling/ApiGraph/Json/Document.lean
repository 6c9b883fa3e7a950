import ApiGraph.Wire.Value

/-!
# JSON documents

A document keeps the order of the keys of its objects and tells integers from floats, as the wire
does.

## What is here

* `Json` with look-ups into it.
* `Json.render`: the text of a document.
* `WireValue.ofJson`: the wire value that a document stands for.
-/

set_option autoImplicit false

namespace ApiGraph

/-- A JSON document. -/
inductive Json where
  | null
  | boolean (value : Bool)
  | number (value : WireNumber)
  | string (text : String)
  | array (items : List Json)
  | object (entries : List (String × Json))

namespace Json

instance : Inhabited Json := ⟨.null⟩

/-! ## Looking into a document -/

/-- The value of a key of an object. -/
def get? (j : Json) (key : String) : Option Json :=
  match j with
  | .object entries => OrderedMap.find entries key
  | _ => none

/-- The value of a key of an object, if it is not null. -/
def given? (j : Json) (key : String) : Option Json :=
  match j.get? key with
  | some .null => none
  | other => other

/-- A text. -/
def text? : Json → Option String
  | .string text => some text
  | _ => none

/-- A truth value. -/
def truth? : Json → Option Bool
  | .boolean value => some value
  | _ => none

/-- A natural number. -/
def nat? : Json → Option Nat
  | .number (.int n) => if 0 ≤ n then some n.toNat else none
  | _ => none

/-- The items of an array; anything else has none. -/
def items : Json → List Json
  | .array items => items
  | _ => []

/-- The text under a key. -/
def textAt? (j : Json) (key : String) : Option String := (j.get? key).bind text?

/-- The truth value under a key. -/
def truthAt? (j : Json) (key : String) : Option Bool := (j.get? key).bind truth?

/-- The natural number under a key. -/
def natAt? (j : Json) (key : String) : Option Nat := (j.get? key).bind nat?

/-- The items of the array under a key. -/
def itemsAt (j : Json) (key : String) : List Json := ((j.get? key).map items).getD []

mutual

/-- How deep arrays and objects are nested. -/
def depth : Json → Nat
  | .array items => depths items + 1
  | .object entries => entryDepths entries + 1
  | _ => 0

/-- How deep the deepest of some documents is. -/
def depths : List Json → Nat
  | [] => 0
  | j :: rest => max j.depth (depths rest)

/-- How deep the deepest of some entries is. -/
def entryDepths : List (String × Json) → Nat
  | [] => 0
  | (_, j) :: rest => max j.depth (entryDepths rest)

end

/-! ## Writing -/

/-- The lower-case digit of a number below 16. -/
def hexDigit (n : Nat) : Char := if n < 10 then .ofNat (n + 48) else .ofNat (n + 87)

/-- A character between quotes: quotes, backslashes and control characters are escaped. -/
def escaped (c : Char) : String :=
  if c = '\"' then "\\\""
  else if c = '\\' then "\\\\"
  else if c = '\n' then "\\n"
  else if c = '\r' then "\\r"
  else if c = '\t' then "\\t"
  else if c.toNat < 0x20 then
    "\\u00" ++ .ofList [hexDigit (c.toNat / 16), hexDigit (c.toNat % 16)]
  else c.toString

/-- A text between quotes. -/
def quotedText (text : String) : String :=
  "\"" ++ String.join (text.toList.map escaped) ++ "\""

mutual

/-- The text of a document, without blanks. -/
def render : Json → String
  | .null => "null"
  | .boolean value => if value then "true" else "false"
  | .number value => value.text
  | .string text => quotedText text
  | .array items => "[" ++ ",".intercalate (renderItems items) ++ "]"
  | .object entries => "\x7b" ++ ",".intercalate (renderEntries entries) ++ "\x7d"

/-- The texts of several documents. -/
def renderItems : List Json → List String
  | [] => []
  | j :: rest => j.render :: renderItems rest

/-- The texts of entries. -/
def renderEntries : List (String × Json) → List String
  | [] => []
  | (key, j) :: rest => (quotedText key ++ ":" ++ j.render) :: renderEntries rest

end

end Json

/-! ## To the wire -/

namespace WireValue

mutual

/-- The wire value that a document stands for. -/
def ofJson : Json → WireValue
  | .null => .null
  | .boolean value => .boolean value
  | .number value => .number value
  | .string text => .string text
  | .array items => .list (itemsOfJson items)
  | .object entries => .object (entriesOfJson entries)

/-- The wire values that several documents stand for. -/
def itemsOfJson : List Json → List WireValue
  | [] => []
  | j :: rest => ofJson j :: itemsOfJson rest

/-- The wire values of entries. -/
def entriesOfJson : List (String × Json) → List (String × WireValue)
  | [] => []
  | (key, j) :: rest => (key, ofJson j) :: entriesOfJson rest

end

end WireValue

end ApiGraph
