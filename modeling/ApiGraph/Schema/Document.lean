import ApiGraph.Schema.Executable
import ApiGraph.Wire.Literal

/-!
# The schema document

An executable schema written in the schema definition language: its types sorted by name, each
followed by an empty line, then the directives and the two roots.  Types with reserved names are
left out, and the engine's own scalars are none of its types.

## What is here

* `description`, `deprecated`: parts of items.
* `EngineType.definition`: the definition of one type.
* `Executable.document`.
-/

set_option autoImplicit false

namespace ApiGraph

namespace Document

/-- Tabs at the start of a line. -/
def tabs (level : Nat) : String := String.ofList (List.replicate level '\t')

/-- Three quotes. -/
def fence : String := "\"\"\""

/-- A description on lines of its own; the text is not escaped. -/
def description (level : Nat) : Option String → String
  | none => ""
  | some text =>
    let indent := tabs level
    let lines := text.replace "\n" ("\n" ++ indent)
    indent ++ fence ++ "\n" ++ indent ++ lines ++ "\n" ++ indent ++ fence ++ "\n"

/-- A character of a deprecation reason; quotes stay as they are. -/
def reasonChar (c : Char) : String :=
  if c = '\\' then "\\\\"
  else if c = '\x08' then "\\b"
  else if c = '\x0c' then "\\f"
  else if c = '\n' then "\\n"
  else if c = '\r' then "\\r"
  else if c = '\t' then "\\t"
  else c.toString

/-- The mark of a deprecated item. -/
def deprecated : Option String → String
  | none => ""
  | some reason =>
    " @deprecated(reason: \"" ++ String.join (reason.toList.map reasonChar) ++ "\")"

/-- A default value. -/
def default : Option WireValue → String
  | none => ""
  | some value => " = " ++ value.literal

/-- An argument without its description. -/
def argument (a : CompiledArg) : String :=
  a.name ++ ": " ++ a.type.display ++ default a.default

/-- Arguments on one line. -/
def plainArguments (args : List CompiledArg) : String :=
  ", ".intercalate (args.map argument)

/-- An argument on a line of its own, after its description if it has one. -/
def tallArgument (a : CompiledArg) : String :=
  (if a.description.isSome then "\n" ++ description 2 a.description else "") ++
    tabs 2 ++ argument a

/-- Arguments each at two tabs. -/
def tallArguments (args : List CompiledArg) : String :=
  ",".intercalate (args.map tallArgument) ++ "\n\t"

/-- The arguments of a field; one with a description makes them all tall. -/
def arguments (args : List CompiledArg) : String :=
  if args.isEmpty then ""
  else if args.any (·.description.isSome) then "(" ++ tallArguments args ++ ")"
  else "(" ++ plainArguments args ++ ")"

/-- A field of an object or an interface. -/
def field (f : CompiledField) : String :=
  description 1 f.description ++ "\t" ++ f.name ++ arguments (OrderedMap.values f.args) ++ ": " ++
    f.type.display ++ deprecated f.deprecation ++ "\n"

/-- A field of an input type. -/
def inputField (f : CompiledInputField) : String :=
  description 1 f.description ++ "\t" ++ f.name ++ ": " ++ f.type.display ++ default f.default ++
    "\n"

/-- A member of an enum. -/
def member (m : EnumMember) : String :=
  description 1 m.description ++ "\t" ++ m.name ++ deprecated m.deprecation ++ "\n"

/-- The members of an enum by name: one declared again keeps its place and has its last content. -/
def members (d : EnumDef) : List EnumMember :=
  OrderedMap.values (OrderedMap.ofEntries (d.members.map fun m ↦ (m.name, m)))

/-- A definition with a body between braces. -/
def block (head body : String) : String := head ++ " \x7b\n" ++ body ++ "\x7d\n"

end Document

open Document in
/-- The definition of a type. -/
def EngineType.definition (t : EngineType) : String :=
  description 0 t.node.description ++
    match t with
    | .scalar n => "scalar " ++ n.name ++ "\n"
    | .object n fields =>
      let names := (n.interfaces.map InterfaceNode.name).eraseDups
      let claims := if names.isEmpty then "" else " implements " ++ " & ".intercalate names
      block ("type " ++ n.name ++ claims)
        (String.join ((OrderedMap.values fields).map field))
    | .interface n fields =>
      block ("interface " ++ n.name) (String.join ((OrderedMap.values fields).map field))
    | .input n fields =>
      block ("input " ++ n.name) (String.join ((OrderedMap.values fields).map inputField))
    | .enum n => block ("enum " ++ n.name) (String.join ((members n.definition).map member))
    | .union n =>
      let names := (n.members.map ObjectNode.name).eraseDups
      let body := if names.isEmpty then "" else " " ++ " | ".intercalate names
      "union " ++ n.name ++ " =" ++ body ++ "\n"

/-- Whether a type has a deprecated item of which the document's directives speak. -/
def EngineType.hasDeprecated : EngineType → Bool
  | .object _ fields => (OrderedMap.values fields).any (·.deprecation.isSome)
  | .enum n => (Document.members n.definition).any (·.deprecation.isSome)
  | _ => false

namespace Document

/-- A directive with its description. -/
def directive (text definition : String) : String :=
  description 0 (some text) ++ "directive @" ++ definition ++ "\n"

/-- The directive that marks deprecated items. -/
def deprecatedDirective : String :=
  directive "Marks an element of a GraphQL schema as no longer supported."
    ("deprecated(reason: String = \"No longer supported\") on FIELD_DEFINITION | " ++
      "ARGUMENT_DEFINITION | INPUT_FIELD_DEFINITION | ENUM_VALUE")

/-- The directive that includes an item. -/
def includeDirective : String :=
  directive
    ("Directs the executor to include this field or fragment only when the \x60if\x60 " ++
      "argument is true.")
    "include(if: Boolean!) on FIELD | FRAGMENT_SPREAD | INLINE_FRAGMENT"

/-- The directive that skips an item. -/
def skipDirective : String :=
  directive "Directs the executor to skip this field or fragment when the \x60if\x60 argument is true."
    "skip(if: Boolean!) on FIELD | FRAGMENT_SPREAD | INLINE_FRAGMENT"

end Document

open Document in
/-- The document of an executable schema. -/
def Executable.document (x : Executable) : String :=
  let shown := x.types.filter fun t ↦ !isReserved t.name
  let sorted := shown.mergeSort fun a b ↦ decide (a.name ≤ b.name)
  let definitions := sorted.map fun t ↦ t.definition ++ "\n"
  let marks := if x.types.any EngineType.hasDeprecated then deprecatedDirective else ""
  let mutation := (x.mutation.map fun m ↦ "\tmutation: " ++ m ++ "\n").getD ""
  String.join definitions ++ marks ++ includeDirective ++ skipDirective ++
    block "schema" ("\tquery: " ++ x.query ++ "\n" ++ mutation)

end ApiGraph
