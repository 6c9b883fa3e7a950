import ApiGraph.Class
import ApiGraph.Wire.Value

/-!
# Enumerations

An enum is an ordered list of named values with an identity of its own.

## What is here

* `EnumMember` and `EnumDef`.
* `EnumDef.nameOf?` and `EnumDef.valueOf?`: between an internal value and a member's name.
-/

set_option autoImplicit false

namespace ApiGraph

/-- One member of an enum. -/
structure EnumMember where
  name : String
  /-- The value that stands for the member inside the program. -/
  value : WireValue
  description : Option String := none
  deprecation : Option String := none

/-- An enum: its identity and its members in order. -/
structure EnumDef where
  key : TypeKey
  members : List EnumMember

namespace EnumDef

/-- Enums are equal if their keys are. -/
instance : BEq EnumDef := ⟨fun a b ↦ a.key == b.key⟩

/-- Members numbered from zero. -/
def numbered (names : List String) : List EnumMember :=
  names.mapIdx fun i name ↦ { name, value := .ofInt i }

/-- Members with the given texts as values. -/
def texts (pairs : List (String × String)) : List EnumMember :=
  pairs.map fun (name, text) ↦ { name, value := .string text }

/-- The name of the first member that has a value. -/
def nameOf? (d : EnumDef) (value : WireValue) : Option String :=
  (d.members.find? fun m ↦ m.value.same value).map EnumMember.name

/-- The value of the first member of a name. -/
def valueOf? (d : EnumDef) (name : String) : Option WireValue :=
  (d.members.find? fun m ↦ m.name == name).map EnumMember.value

end EnumDef

end ApiGraph
