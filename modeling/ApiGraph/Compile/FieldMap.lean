import ApiGraph.Compile.Field

/-!
# The fields of a type

The field map of a type is made when it is first asked for and then kept with the session's nodes,
so that types may refer to themselves and to each other.  A map that cannot be made is not kept:
the next request tries again.

## What is here

* `ObjectNode.walk`: the classes whose fields an object type sees.
* `ObjectNode.fields`, `InterfaceNode.fields`, `InputNode.fields`.
-/

set_option autoImplicit false

namespace ApiGraph

variable {σ : Type}

/-- The classes whose fields an object type sees: the lineages of its interfaces, of its mixins and
of its class, each oldest first. -/
def ObjectNode.walk (n : ObjectNode) : List ClassRef :=
  (n.interfaces.map InterfaceNode.cls ++ n.mixins ++ n.cls.toList).flatMap ClassRef.oldestFirst

/-- Compiles the output fields that a class sees through a walk. -/
def compileFields (host : Host σ) (s : SessionId) (cls : ClassRef) (walk : List ClassRef) :
    Compile σ FieldMap := do
  let declared ← ExceptT.mk (pure (collectFields ((← get).registries s) cls walk))
  declared.mapM fun (name, owner, spec) ↦ do
    let field ← compileField host s owner spec none
    return (name, field)

/-- Compiles the input fields of a class. -/
def compileInputFields (host : Host σ) (s : SessionId) (cls : ClassRef) : Compile σ InputMap := do
  let declared := collectInputFields ((← get).registries s) cls.oldestFirst
  declared.mapM fun (name, spec) ↦ do
    let field ← compileInputField host s cls spec
    return (name, field)

/-- The fields of an object type.  The roots of a schema have theirs from the beginning. -/
def ObjectNode.fields (host : Host σ) (n : ObjectNode) : Compile σ FieldMap := do
  match n.id, n.cls with
  | .compiled s _ key, some cls =>
    Compile.remember s .objectFields key do
      Compile.requireOpen s
      compileFields host s cls n.walk
  | .root schema operation, _ =>
    match OrderedMap.find (← get).roots (schema, operation) with
    | some (_, known) => return known
    | none => throw .sessionDropped
  | _, _ => throw .sessionDropped

/-- The fields of an interface. -/
def InterfaceNode.fields (host : Host σ) (n : InterfaceNode) : Compile σ FieldMap :=
  match n.id with
  | .compiled s _ key =>
    Compile.remember s .interfaceFields key do
      Compile.requireOpen s
      compileFields host s n.cls n.cls.oldestFirst
  | _ => throw .sessionDropped

/-- The fields of an input type. -/
def InputNode.fields (host : Host σ) (n : InputNode) : Compile σ InputMap :=
  match n.id with
  | .compiled s _ key =>
    Compile.remember s .inputFields key do
      Compile.requireOpen s
      compileInputFields host s n.cls
  | _ => throw .sessionDropped

/-- The object types of the registered implementors of an interface. -/
def InterfaceNode.implementations (n : InterfaceNode) : Compile σ (List ObjectNode) := do
  match n.id with
  | .compiled s _ _ =>
    Compile.requireOpen s
    (((← get).registries s).implementorsOf n.cls).mapM (compileObject s)
  | _ => throw .sessionDropped

end ApiGraph
