import ApiGraph.Discrimination
import ApiGraph.Execution.Argument

/-!
# Results for the engine

What a resolver returns is turned into what the engine completes, by the type of the field: values
of scalars and enums go to the wire, objects are handed over as the source of their own fields, and
values of unions and interfaces with the name of their concrete type.

## What is here

* `EngineValue`: what the engine completes.
* `GraphType.toEngine`: the engine's value of a result; a nullish result is no value at all.
-/

set_option autoImplicit false

namespace ApiGraph

variable {σ : Type}

/-- The value of a field as the engine gets it. -/
inductive EngineValue where
  /-- A value of a scalar or an enum. -/
  | wire (value : WireValue)
  | list (items : List EngineValue)
  /-- The source of an object's fields. -/
  | source (value : HostValue)
  /-- The source of an object's fields, with the name of the object's type. -/
  | typed (value : HostValue) (type : String)

/-- The source that a value is for the fields of an object; a value of another kind is none. -/
def EngineValue.toSource : EngineValue → HostValue
  | .source value | .typed value _ => value
  | .wire _ | .list _ => .undefined

/-- The name of the member of an enum that a value stands for. -/
def EnumNode.write (n : EnumNode) (value : WireValue) : Except FieldError WireValue :=
  match n.definition.nameOf? value with
  | some name => .ok (.enum name)
  | none => .error (.invalidEnumValue n.name value.literal)

/-- A source with the name of its concrete type, which must be known. -/
def EngineValue.ofConcrete (type : String) (value : HostValue) :
    Option String → Except FieldError EngineValue
  | some name => .ok (.typed value name)
  | none => .error (.discrimination type)

/-- The engine's value of a value that is there, at a node. -/
def GraphNode.toEngine (host : Host σ) (node : GraphNode) (value : HostValue)
    (context : Option RequestContext) (info : ResolveInfo) : Execute σ EngineValue := do
  match node with
  | .scalar _ | .input _ => return .wire value.toWire
  | .enum n => EngineValue.wire <$> ExceptT.mk (pure (n.write value.toWire))
  | .object _ => return .source value
  | .union n =>
    let name ← Execute.ofAction (n.concrete host value context info)
    ExceptT.mk (pure (EngineValue.ofConcrete n.name value name))
  | .interface n =>
    let name ← Execute.ofAction (n.concrete host value context info)
    ExceptT.mk (pure (EngineValue.ofConcrete n.name value name))

/-- The engine's value of a result, if it is not nullish.  Nullish items of a list are null. -/
def GraphType.toEngine (host : Host σ) : GraphType → HostValue → Option RequestContext →
    ResolveInfo → Execute σ (Option EngineValue)
  | .nonNull inner, value, context, info => inner.toEngine host value context info
  | .named node, value, context, info =>
    if value.isNullish then return none
    else some <$> node.toEngine host value context info
  | .list item, value, context, info =>
    if value.isNullish then return none
    else match value with
      | .list items => do
        let converted ← items.mapM fun v ↦ do
          return (← item.toEngine host v context info).getD (.wire .null)
        return some (.list converted)
      | other => throw (.cast (.notAList info.fieldName other.kind))

end ApiGraph
