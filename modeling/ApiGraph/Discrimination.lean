import ApiGraph.Compile.FieldMap

/-!
# The concrete type of a value

A value of a union or an interface belongs to one object type.  By default it is found through the
class of the value; the program may also say it by a type reference of its own.

## What is here

* `UnionNode.memberOf?`: the first member to whose class a value belongs.
* `UnionNode.concrete` and `InterfaceNode.concrete`: the name of the object type of a value.
-/

set_option autoImplicit false

namespace ApiGraph

variable {σ : Type}

/-- The name of the first member to whose class an instance belongs. -/
def UnionNode.memberOf? (n : UnionNode) (value : HostValue) : Option String :=
  value.instance?.bind fun i ↦
    (n.members.find? fun m ↦ m.cls.any fun c ↦ i.isA c.key).map ObjectNode.name

/-- The implementor to which an instance belongs: the first registered one among its ancestors, or
else its own class if that is an object type. -/
def Registries.implementorFor (r : Registries) (interface : ClassRef) (i : Instance) :
    Option ClassRef :=
  match (r.implementorsOf interface).find? fun c ↦ i.isA c.key with
  | some c => some c
  | none => if r.isObject i.cls.key then some i.cls else none

/-- The value of a computation that may fail. -/
def Compile.toOption {α : Type} (c : Compile σ α) : Action σ (Option α) := do
  return (← c.outcome).toOption

/-- The name of the node to which a reference of the program resolves, if the session is there. -/
def customName (host : Host σ) (s : SessionId) (reference : TypeRef) :
    Action σ (Option String) := do
  if (← get).isOpen s then
    let type ← (resolveType host s reference { nullable := true }).toOption
    return type.map fun t ↦ t.node.name
  else return none

/-- The name that a discriminator of the program gives to a value. -/
def customConcrete (host : Host σ) (s : SessionId) (id : DiscriminatorId) (value : HostValue)
    (context : Option RequestContext) (info : ResolveInfo) : Action σ (Option String) := do
  match ← Action.ofHost (host.discriminate id value context info) with
  | some reference => customName host s reference
  | none => return none

/-- The session that made a node. -/
def NodeId.session? : NodeId → Option SessionId
  | .compiled s _ _ => some s
  | _ => none

/-- The name of the member of a union to which a value belongs. -/
def UnionNode.concrete (host : Host σ) (n : UnionNode) (value : HostValue)
    (context : Option RequestContext) (info : ResolveInfo) : Action σ (Option String) :=
  match n.custom, n.id.session? with
  | none, _ => return n.memberOf? value
  | some id, some s => customConcrete host s id value context info
  | some _, none => return none

/-- The name of the implementor of an interface to which a value belongs, as long as the session is
there. -/
def InterfaceNode.implementorName (s : SessionId) (n : InterfaceNode) (value : HostValue) :
    Action σ (Option String) := do
  let w ← get
  if w.isOpen s then
    match value.instance?.bind ((w.registries s).implementorFor n.cls) with
    | some cls =>
      let node ← (compileObject s cls : Compile σ ObjectNode).toOption
      return node.map ObjectNode.name
    | none => return none
  else return none

/-- The name of the object type to which a value of an interface belongs. -/
def InterfaceNode.concrete (host : Host σ) (n : InterfaceNode) (value : HostValue)
    (context : Option RequestContext) (info : ResolveInfo) : Action σ (Option String) :=
  match n.custom, n.id.session? with
  | none, some s => n.implementorName s value
  | some id, some s => customConcrete host s id value context info
  | _, none => return none

end ApiGraph
