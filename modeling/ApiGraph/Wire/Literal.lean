import ApiGraph.Wire.Value

/-!
# The written form of wire values

Defaults in a schema document and values in error messages are written as literals of the query
language.

## What is here

* `WireValue.literal`: the literal of a value.
* `quoted`: a string between quotes, with its escapes.
-/

set_option autoImplicit false

namespace ApiGraph

/-! ## Strings -/

/-- Whether a character is a control character. -/
def isControl (c : Char) : Bool := c.val < 0x20 || (0x7f ≤ c.val && c.val < 0xa0)

/-- The decimal code of a character, in at least four places. -/
def paddedCode (c : Char) : String :=
  let code := toString c.toNat
  String.ofList (List.replicate (4 - code.length) '0') ++ code

/-- One character as it stands between quotes. -/
def escaped (c : Char) : String :=
  if c = '\r' then "\\r"
  else if c = '\n' then "\\n"
  else if c = '\t' then "\\t"
  else if c = '\"' then "\\\""
  else if c = '\\' then "\\\\"
  else if isControl c then "\\u" ++ paddedCode c
  else c.toString

/-- A text between quotes. -/
def quoted (text : String) : String := "\"" ++ String.join (text.toList.map escaped) ++ "\""

/-! ## Values -/

namespace WireValue

mutual

/-- The literal that denotes a value. -/
def literal : WireValue → String
  | .null => "null"
  | .boolean value => if value then "true" else "false"
  | .number value => value.text
  | .string text => quoted text
  | .enum name => name
  | .binary bytes => "[" ++ ", ".intercalate (bytes.map fun b ↦ toString b.toNat) ++ "]"
  | .list items => "[" ++ ", ".intercalate (itemLiterals items) ++ "]"
  | .object entries => "\x7b" ++ ", ".intercalate (entryLiterals entries) ++ "\x7d"

/-- The literals of the items of a list. -/
def itemLiterals : List WireValue → List String
  | [] => []
  | v :: rest => literal v :: itemLiterals rest

/-- The entries of an object, each a key and a literal. -/
def entryLiterals : List (String × WireValue) → List String
  | [] => []
  | (key, v) :: rest => (key ++ ": " ++ literal v) :: entryLiterals rest

end

end WireValue

end ApiGraph
