import ApiGraph.Execution.Request
import ApiGraph.Schema.Executable

/-!
# Objections to arguments

An argument is checked against its type before a request runs.  Scalars have their own checks, enums
take the names of their members, input objects are checked field by field, and a single value may
stand for a list of one item.  Only the first objection to an argument is told.

## What is here

* `Objection`: what is wrong with a value.
* `NativeScalar.admits`, `ScalarNode.admits`: the values that the engine takes for a scalar.
* `Executable.objection?`: the first objection to a value at a type, with its place.
-/

set_option autoImplicit false

namespace ApiGraph

/-- What is wrong with a value at its place. -/
inductive Objection where
  /-- The value is none of the type. -/
  | notA (type : String)
  /-- The enum has no member of the name. -/
  | noMember (enum name : String)
  /-- A field of the type is required and not supplied. -/
  | missing (field type : String)
  /-- The input type has no such field. -/
  | stray (field input : String)
deriving DecidableEq, Repr

/-- The text of an objection. -/
def Objection.message : Objection → String
  | .notA type => s!"expected type \"{type}\""
  | .noMember enum name =>
    s!"enumeration type \"{enum}\" does not contain the value \"{name}\""
  | .missing field type => s!"field \"{field}\" of type \"{type}\" is required but not provided"
  | .stray field input => s!"unknown field \"{field}\" of type \"{input}\""

/-- An objection with the place in the argument to which it is made. -/
abbrev PlacedObjection := List PathStep × Objection

/-- Whether the engine takes a value for a native scalar. -/
def NativeScalar.admits (value : WireValue) : NativeScalar → Bool
  | .string => (value matches .string _)
  | .number => (value matches .number _)
  | .boolean => (value matches .boolean _)
  | .date => isDateTime value
  | .int =>
    match value with
    | .number n => n.toInt64?.isSome
    | _ => false
  | .id =>
    match value with
    | .number n => n.toInt64?.isSome
    | .string _ => true
    | _ => false

/-- Whether the engine takes a value for a scalar. -/
def ScalarNode.admits (n : ScalarNode) (value : WireValue) : Bool :=
  match n.id with
  | .native scalar => scalar.admits value
  | _ => n.accepts value

/-- The objection to a name at an enum. -/
def EnumNode.objection? (n : EnumNode) (name : String) : Option Objection :=
  if (n.definition.valueOf? name).isSome then none else some (.noMember n.name name)

/-- The objection to a value that is neither null nor an object, at a node. -/
def GraphNode.objection? (value : WireValue) : GraphNode → Option Objection
  | .scalar n => if n.admits value then none else some (.notA n.name)
  | .enum n =>
    match value with
    | .enum name | .string name => n.objection? name
    | _ => some (.notA n.name)
  | _ => none

/-- The objection to null at a type. -/
def GraphType.nullObjection? : GraphType → Option Objection
  | .nonNull inner => some (.notA inner.display)
  | _ => none

/-- The checks of the entries of an object by key, each for a type still to be found. -/
abbrev EntryChecks := List (String × (GraphType → Option PlacedObjection))

/-- The first objection to an entry of an input type: to what is supplied for it, or to there being
nothing where something is required. -/
def CompiledInputField.objection? (checks : EntryChecks) (f : CompiledInputField) :
    Option PlacedObjection :=
  match OrderedMap.find checks f.name with
  | some check => (check f.type).map fun (place, o) ↦ (.key f.name :: place, o)
  | none =>
    if f.type.isNonNull && f.default.isNone then some ([], .missing f.name f.type.display) else none

namespace Executable

/-- The first objection to the entries of an object, at an input type: in the order of its fields,
and then to what is none of them. -/
def entriesObjection? (x : Executable) (checks : EntryChecks) (n : InputNode) :
    Option PlacedObjection :=
  (x.input? n.name).bind fun (_, fields) ↦
    ((OrderedMap.values fields).findSome? (CompiledInputField.objection? checks)).or <|
      (checks.find? fun (key, _) ↦ !OrderedMap.has fields key).map fun (key, _) ↦
        ([], .stray key n.name)

mutual

/-- The first objection to a value at a type.  A single value may stand for a list of one item. -/
def objection? (x : Executable) : WireValue → GraphType → Option PlacedObjection
  | .null, type => type.nullObjection?.map fun o ↦ ([], o)
  | .list items, type =>
    match type.item? with
    | some item => itemsObjection? x 0 items item
    | none => (type.node.objection? (.list items)).map fun o ↦ ([], o)
  | .object entries, type =>
    match type.node with
    | .input n => x.entriesObjection? (entryChecks x entries) n
    | node => (node.objection? (.object entries)).map fun o ↦ ([], o)
  | .boolean value, type => (type.node.objection? (.boolean value)).map fun o ↦ ([], o)
  | .number value, type => (type.node.objection? (.number value)).map fun o ↦ ([], o)
  | .string value, type => (type.node.objection? (.string value)).map fun o ↦ ([], o)
  | .enum name, type => (type.node.objection? (.enum name)).map fun o ↦ ([], o)
  | .binary bytes, type => (type.node.objection? (.binary bytes)).map fun o ↦ ([], o)

/-- The first objection to the items of a list, counted from a position on. -/
def itemsObjection? (x : Executable) : Nat → List WireValue → GraphType → Option PlacedObjection
  | _, [], _ => none
  | i, v :: rest, type =>
    ((objection? x v type).map fun (place, o) ↦ (.index i :: place, o)).or
      (itemsObjection? x (i + 1) rest type)

/-- The checks of the entries of an object. -/
def entryChecks (x : Executable) : List (String × WireValue) → EntryChecks
  | [] => []
  | (key, v) :: rest => (key, objection? x v) :: entryChecks x rest

end

end Executable

end ApiGraph
