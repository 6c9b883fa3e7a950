import ApiGraph.Schema.Assembly

/-!
# Executable schemas

An executable is a schema with the fields of all its types made and checked by the query engine.  It
keeps the field maps of its session as the schema does.

## What is here

* `EngineType`: a type with its fields, and `Executable`.
* `EngineVerdict`: what a query engine says of a lowered schema.
* `Executable.fault?`: the rules of one engine, and `Executable.verdict`, what it says.
* `Schema.lower` and `Schema.executable`.
-/

set_option autoImplicit false

namespace ApiGraph

variable {σ : Type}

/-- A type as the engine knows it. -/
inductive EngineType where
  | scalar (node : ScalarNode)
  | object (node : ObjectNode) (fields : FieldMap)
  | input (node : InputNode) (fields : InputMap)
  | enum (node : EnumNode)
  | union (node : UnionNode)
  | interface (node : InterfaceNode) (fields : FieldMap)

namespace EngineType

/-- The node of a type. -/
def node : EngineType → GraphNode
  | .scalar n => .scalar n
  | .object n _ => .object n
  | .input n _ => .input n
  | .enum n => .enum n
  | .union n => .union n
  | .interface n _ => .interface n

/-- The name of a type. -/
def name (t : EngineType) : String := t.node.name

end EngineType

/-- The scalars that every engine has. -/
def engineScalars : List String := ["String", "Int", "Float", "Boolean", "ID"]

/-- An executable schema. -/
structure Executable where
  serial : Nat
  session : SessionId
  /-- The name of the query type. -/
  query : String
  /-- The name of the mutation type. -/
  mutation : Option String
  types : List EngineType
  config : Config

namespace Executable

/-- The type of a name. -/
def find (x : Executable) (name : String) : Option EngineType :=
  x.types.find? fun t ↦ t.name == name

/-- The object type of a name, with its fields. -/
def object? (x : Executable) (name : String) : Option (ObjectNode × FieldMap) :=
  match x.find name with
  | some (.object n fields) => some (n, fields)
  | _ => none

/-- The interface of a name, with its fields. -/
def interface? (x : Executable) (name : String) : Option (InterfaceNode × FieldMap) :=
  match x.find name with
  | some (.interface n fields) => some (n, fields)
  | _ => none

/-- The input type of a name, with its fields. -/
def input? (x : Executable) (name : String) : Option (InputNode × InputMap) :=
  match x.find name with
  | some (.input n fields) => some (n, fields)
  | _ => none

end Executable

/-- What a query engine says of a lowered schema: why it refuses the schema, or nothing. -/
abbrev EngineVerdict := Executable → Option String

/-! ## The rules of an engine -/

/-- Whether a name is reserved for the engine. -/
def isReserved (name : String) : Bool := name.toList.take 2 == ['_', '_']

/-- The first reserved name among a field and its arguments. -/
def CompiledField.reserved? (owner : String) (f : CompiledField) : Option EngineFault :=
  if isReserved f.name then some (.reservedField owner f.name)
  else
    ((OrderedMap.values f.args).find? fun a ↦ isReserved a.name).map fun a ↦
      .reservedArgument owner f.name a.name

/-- What an argument of an interface's field asks of the same field of an object. -/
def CompiledArg.unmet? (object interface : String) (f : CompiledField) (a : CompiledArg) :
    Option EngineFault :=
  match OrderedMap.find f.args a.name with
  | none =>
    if a.type.isNonNull then some (.missingArgument object f.name a.name interface) else none
  | some own =>
    if a.type.expr.covers own.type.expr then none
    else some (.argumentNotCovered interface f.name a.name object)

/-- What a field of an interface asks of the fields of an object. -/
def CompiledField.unmet? (object interface : String) (fields : FieldMap) (f : CompiledField) :
    Option EngineFault :=
  match OrderedMap.find fields f.name with
  | none => some (.missingField object f.name interface)
  | some own =>
    ((OrderedMap.values f.args).findSome? (CompiledArg.unmet? object interface own)).or <|
      if own.type.expr.covers f.type.expr then none
      else some (.fieldNotCovered object f.name interface)

/-- The input types that the plain non-null fields of an input type name. -/
def requiredInputs (fields : InputMap) : List String :=
  (OrderedMap.values fields).filterMap fun f ↦
    match f.type with
    | .nonNull (.named (.input n)) => some n.name
    | _ => none

/-- The input types that a list of names leads to through plain non-null fields, in at most the
given number of steps. -/
def requiredFrom (x : Executable) : Nat → List String → List String
  | 0, names => names
  | n + 1, names =>
    let next := names.flatMap fun name ↦
      ((x.input? name).map fun (_, fields) ↦ requiredInputs fields).getD []
    requiredFrom x n (names ++ next.filter fun name ↦ !names.contains name).eraseDups

/-- Whether an input type leads back to itself through plain non-null fields. -/
def Executable.leadsBack (x : Executable) (name : String) (fields : InputMap) : Bool :=
  (requiredFrom x x.types.length (requiredInputs fields)).contains name

/-- The first rule that a type breaks as an object. -/
def Executable.objectFault? (x : Executable) : EngineType → Option EngineFault
  | .object n fields =>
    if fields.isEmpty then some (.noFields n.name)
    else
      ((OrderedMap.values fields).findSome? (CompiledField.reserved? n.name)).or <|
        n.interfaces.findSome? fun i ↦
          (x.interface? i.name).bind fun (_, required) ↦
            (OrderedMap.values required).findSome?
              (CompiledField.unmet? n.name i.name fields)
  | _ => none

/-- The first rule that a type breaks as an input type. -/
def Executable.inputFault? (x : Executable) : EngineType → Option EngineFault
  | .input n fields =>
    (((OrderedMap.values fields).find? fun f ↦ isReserved f.name).map fun f ↦
      .reservedField n.name f.name).or <|
      if x.leadsBack n.name fields then some (.selfReference n.name) else none
  | _ => none

/-- The first rule that a type breaks as an interface. -/
def interfaceFault? : EngineType → Option EngineFault
  | .interface n fields => (OrderedMap.values fields).findSome? (CompiledField.reserved? n.name)
  | _ => none

/-- The rule that a type breaks if it has the name of one of the engine's own scalars. -/
def nameFault? (t : EngineType) : Option EngineFault :=
  if engineScalars.contains t.name then some (.nameTaken t.name) else none

/-- The first rule that a schema breaks: names are checked first, then objects, then inputs, then
interfaces. -/
def Executable.fault? (x : Executable) : Option EngineFault :=
  (x.types.findSome? nameFault?).or <| (x.types.findSome? x.objectFault?).or <|
    (x.types.findSome? x.inputFault?).or (x.types.findSome? interfaceFault?)

/-- The verdict of the engine with these rules. -/
def Executable.verdict : EngineVerdict := fun x ↦ x.fault?.map EngineFault.message

/-! ## Lowering -/

/-- A type with its fields made; the engine has the built-in scalars already. -/
def GraphNode.lower (host : Host σ) : GraphNode → Compile σ (Option EngineType)
  | .scalar n => return if n.builtin then none else some (.scalar n)
  | .object n => do
    let fields ← n.fields host
    return some (.object n fields)
  | .input n => do
    let fields ← n.fields host
    return some (.input n fields)
  | .enum n => return some (.enum n)
  | .union n => return some (.union n)
  | .interface n => do
    let fields ← n.fields host
    return some (.interface n fields)

namespace Schema

/-- The executable of a schema, of a serial number and with the types as the engine knows them. -/
def withTypes (schema : Schema) (serial : Nat) (types : List EngineType) : Executable where
  serial
  session := schema.session
  query := schema.query.name
  mutation := schema.mutation.map ObjectNode.name
  types
  config := schema.config

/-- The lowered form of a schema, checked by the engine. -/
def lower (verdict : EngineVerdict := Executable.verdict) (host : Host σ) (schema : Schema) :
    Compile σ Executable := do
  let types ← schema.types.mapM (GraphNode.lower host)
  let x := schema.withTypes (← get).nextExecutable (types.filterMap id)
  match verdict x with
  | some reason => throw (.assembly (.engine reason))
  | none => return x

/-- Builds the executable of a schema, which from then on keeps the session's field maps. -/
def executable (verdict : EngineVerdict := Executable.verdict) (host : Host σ)
    (schema : Schema) : Compile σ Executable := do
  let x ← schema.lower verdict host
  modify fun w ↦
    let w := w.modifySession x.session fun s ↦
      { s with owners := s.owners ++ [.executable x.serial] }
    { w with nextExecutable := x.serial + 1 }
  return x

end Schema

end ApiGraph
