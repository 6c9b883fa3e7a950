import ApiGraph.Compile.Node

/-!
# From a type reference to a graph type

A class is looked up as a union, an interface, an input type (for arguments only) and an object
type, in this order.  A deferred reference is forced once, and what it yields may not be deferred
again.

## What is here

* `ResolveOptions`: where a reference stands.
* `resolveType`.
-/

set_option autoImplicit false

namespace ApiGraph

variable {σ : Type}

/-- The place and the modifiers of a type reference. -/
structure ResolveOptions where
  nullable : Bool := false
  /-- Whether the items of the outermost list are nullable. -/
  itemNullable : Bool := false
  /-- Whether the reference may be deferred. -/
  allowThunk : Bool := true
  /-- Whether the reference is the type of an argument or an input field. -/
  argument : Bool := false
deriving DecidableEq, Repr

namespace ResolveOptions

/-- A type with the nullability that the options ask for. -/
def wrap (o : ResolveOptions) (t : GraphType) : GraphType := if o.nullable then t else t.required

/-- The options for the items of a list. -/
def forItem (o : ResolveOptions) : ResolveOptions :=
  { o with nullable := o.itemNullable, itemNullable := false }

end ResolveOptions

/-- The node of a class where a type is expected. -/
def compileClass (s : SessionId) (cls : ClassRef) (argument : Bool) : Compile σ GraphNode := do
  let r := (← get).registries s
  if r.isUnion cls.key then GraphNode.union <$> compileUnion s cls
  else if r.isInterface cls.key then GraphNode.interface <$> compileInterface s cls
  else if argument && r.isInput cls.key then GraphNode.input <$> compileInput s cls
  else if r.isObject cls.key then GraphNode.object <$> compileObject s cls
  else throw (.resolve (.unresolvable cls.name))

/-- The graph type of a type reference. -/
def resolveType (host : Host σ) (s : SessionId) : TypeRef → ResolveOptions → Compile σ GraphType
  | .node node, o => return o.wrap (.named node)
  | .scalar scalar, o => return o.wrap (.named (.scalar scalar.node))
  | .array [item], o => do
    let item ← resolveType host s item o.forItem
    return o.wrap (.list item)
  | .array items, _ => throw (.resolve (.listArity items.length))
  | .enum d, o => do
    let node ← compileEnum s d
    return o.wrap (.named (.enum node))
  | .cls c, o => do
    let node ← compileClass s c o.argument
    return o.wrap (.named node)
  | .thunk label target, o =>
    if o.allowThunk then do
      Compile.ofHost (host.forced label)
      if target.isThunk then throw (.resolve .nestedThunk)
      else resolveType host s target { o with allowThunk := false }
    else throw (.resolve .nestedThunk)

end ApiGraph
