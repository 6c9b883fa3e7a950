import ApiGraph.Compile.FieldMap
import ApiGraph.Field.Resolver
import ApiGraph.Wire.Literal

/-!
# Arguments of a query

An argument is converted by the type of the parameter it is for: names of enum members become the
values that stand for them, input objects become instances of their class, and a single value that
stands where a list is expected becomes a list of one item.  A field of an input object that is not
supplied gets its default, which is converted by the same rules.

Conversion is structural in the value.  Only a default can be larger than what it stands in, so a
chain of defaults within defaults is what has to be bounded: there are no more links in it than
there are input fields, unless a default contains itself.

## What is here

* `Execute`: a computation over a workspace that can fail as a field does.
* `convert`: the conversion, given what becomes of a default.
* `convertWithin`: the conversion with a bound on chains of defaults, and `convertArgument`.
* `readArguments`: the arguments of a field, with defaults for those that are not supplied.
-/

set_option autoImplicit false

namespace ApiGraph

variable {σ : Type}

/-- A computation over a workspace that can fail as a field does. -/
abbrev Execute (σ : Type) := ExceptT FieldError (StateM (Workspace σ))

namespace Execute

variable {α : Type}

/-- A compilation, whose failure fails the field. -/
def ofCompile (c : Compile σ α) : Execute σ α :=
  ExceptT.mk (Except.mapError FieldError.compile <$> c.outcome)

/-- A computation that cannot fail. -/
def ofAction (a : Action σ α) : Execute σ α := ExceptT.lift a

end Execute

/-! ## Conversion -/

/-- A value in lists of one item each. -/
def HostValue.nested : Nat → HostValue → HostValue
  | 0, value => value
  | n + 1, value => .list [value.nested n]

/-- The value of a member of an enum. -/
def EnumNode.read (n : EnumNode) (written : WireValue) (name : String) :
    Except FieldError HostValue :=
  match n.definition.valueOf? name with
  | some value => .ok (.ofWire value)
  | none => .error (.invalidEnumValue n.name written.literal)

/-- A name, written bare or as a string, at the node of a type. -/
def GraphNode.readName (node : GraphNode) (written : WireValue) (name : String) :
    Except FieldError HostValue :=
  match node with
  | .enum n => n.read written name
  | _ => .ok (.ofWire written)

/-- Any value that is neither a name nor an object, at the node of a type. -/
def GraphNode.readOther (node : GraphNode) (written : WireValue) : Except FieldError HostValue :=
  match node with
  | .enum n => n.read written ""
  | _ => .ok (.ofWire written)

/-- The entry of an input field among entries that are converted once their type is known, or else
the default of the field. -/
def CompiledInputField.read (onDefault : GraphType → WireValue → Execute σ HostValue)
    (supplied : List (String × (GraphType → Execute σ HostValue))) (f : CompiledInputField) :
    Execute σ (Option (String × HostValue)) := do
  match OrderedMap.find supplied f.name, f.default with
  | some converted, _ => return some (f.property, ← converted f.type)
  | none, some value => return some (f.property, ← onDefault f.type value)
  | none, none => return none

/-- An instance of an input type, its properties in the order of the type's fields. -/
def InputNode.read (host : Host σ) (onDefault : GraphType → WireValue → Execute σ HostValue)
    (n : InputNode) (supplied : List (String × (GraphType → Execute σ HostValue))) :
    Execute σ HostValue := do
  let fields ← Execute.ofCompile (n.fields host)
  let props ← (OrderedMap.values fields).mapM (CompiledInputField.read onDefault supplied)
  return .instanceOf n.cls (OrderedMap.ofEntries (props.filterMap fun p ↦ p)) []

mutual

/-- Converts a value at a type.  Null stays null; what the first argument gives stands for a
default. -/
def convert (host : Host σ) (onDefault : GraphType → WireValue → Execute σ HostValue) :
    WireValue → GraphType → Execute σ HostValue
  | .null, _ => return .null
  | .list items, type =>
    match type.item? with
    | some item => HostValue.list <$> convertItems host onDefault items item
    | none => ExceptT.mk (pure (type.node.readOther (.list items)))
  | .object entries, type =>
    HostValue.nested type.listDepth <$>
      match type.node with
      | .input n => n.read host onDefault (prepareEntries host onDefault entries)
      | node => ExceptT.mk (pure (node.readOther (.object entries)))
  | .enum name, type =>
    HostValue.nested type.listDepth <$>
      ExceptT.mk (pure (type.node.readName (.enum name) name))
  | .string name, type =>
    HostValue.nested type.listDepth <$>
      ExceptT.mk (pure (type.node.readName (.string name) name))
  | .boolean value, type =>
    HostValue.nested type.listDepth <$> ExceptT.mk (pure (type.node.readOther (.boolean value)))
  | .number value, type =>
    HostValue.nested type.listDepth <$> ExceptT.mk (pure (type.node.readOther (.number value)))
  | .binary bytes, type =>
    HostValue.nested type.listDepth <$> ExceptT.mk (pure (type.node.readOther (.binary bytes)))

/-- Converts the items of a list at the type of its items. -/
def convertItems (host : Host σ) (onDefault : GraphType → WireValue → Execute σ HostValue) :
    List WireValue → GraphType → Execute σ (List HostValue)
  | [], _ => return []
  | v :: rest, type => do
    let one ← convert host onDefault v type
    let others ← convertItems host onDefault rest type
    return one :: others

/-- Makes the entries of an object ready for conversion at types still to be found. -/
def prepareEntries (host : Host σ) (onDefault : GraphType → WireValue → Execute σ HostValue) :
    List (String × WireValue) → List (String × (GraphType → Execute σ HostValue))
  | [] => []
  | (key, v) :: rest => (key, convert host onDefault v) :: prepareEntries host onDefault rest

end

/-! ## Chains of defaults -/

/-- Converts a value at a type; defaults may stand in one another up to the given depth. -/
def convertWithin (host : Host σ) : Nat → GraphType → WireValue → Execute σ HostValue
  | 0, type, value => convert host (fun _ _ ↦ throw .endlessDefault) value type
  | n + 1, type, value => convert host (convertWithin host n) value type

/-- How many fields the input types of a session can have between them. -/
def Registries.inputFieldCount (r : Registries) : Nat :=
  r.inputs.length * (r.inputFields.owners.flatMap Prod.snd).length

/-- How many fields the input types of a workspace can have between them. -/
def Workspace.inputFieldCount (w : Workspace σ) : Nat :=
  w.sessions.foldr (fun s n ↦ s.registries.inputFieldCount + n) 0

/-- Converts an argument; a chain of defaults that is longer than there are input fields never
ends. -/
def convertArgument (host : Host σ) (type : GraphType) (value : WireValue) :
    Execute σ HostValue := do
  convertWithin host (← get).inputFieldCount type value

/-! ## The arguments of a field -/

/-- The arguments of a field by exposed name, in the order of their declaration: the supplied
value or else the default, and nothing if there is neither. -/
def readArguments (host : Host σ) (args : OrderedMap String CompiledArg)
    (supplied : List (String × WireValue)) : Execute σ (OrderedMap String HostValue) := do
  let read ← args.mapM fun (name, arg) ↦ do
    match (OrderedMap.find supplied name).or arg.default with
    | some value => return some (name, ← convertArgument host arg.type value)
    | none => return none
  return read.filterMap fun a ↦ a

end ApiGraph
