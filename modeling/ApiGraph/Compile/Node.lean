import ApiGraph.Workspace

/-!
# The node of a declaration

Each function consults the cache of the session first, so that a declaration has one node in each
role.  A node is made from the options that are registered when it is first asked for.

## What is here

* `compileEnum`, `compileInterface`, `compileObject`, `compileUnion`, `compileInput`.
-/

set_option autoImplicit false

namespace ApiGraph

variable {σ : Type}

/-- The node of an enum. -/
def compileEnum (s : SessionId) (d : EnumDef) : Compile σ EnumNode :=
  Compile.remember s .enums d.key do
    match OrderedMap.find ((← get).registries s).enums d.key with
    | none => throw (.resolve (.unregisteredEnum ("enum" ++ d.key.display)))
    | some (_, spec) =>
      return {
        id := .compiled s .enum d.key
        name := spec.name
        description := spec.description
        definition := d }

/-- The node of an interface. -/
def compileInterface (s : SessionId) (cls : ClassRef) : Compile σ InterfaceNode :=
  Compile.remember s .interfaces cls.key do
    match OrderedMap.find ((← get).registries s).interfaces cls.key with
    | none => throw (.type (.unregisteredInterface cls.name cls.name))
    | some spec =>
      return {
        id := .compiled s .interface cls.key
        name := spec.name.getD cls.name
        description := spec.description
        cls
        custom := spec.discriminator }

/-- Whether a class may be a mixin: it is an object type, or someone in its lineage has fields. -/
def Registries.canMix (r : Registries) (mixin : ClassRef) : Bool :=
  r.isObject mixin.key || mixin.lineage.any fun c ↦ !r.fields.isEmpty c.key

/-- The node of an interface that an object type claims. -/
def compileClaimed (s : SessionId) (cls interface : ClassRef) : Compile σ InterfaceNode := do
  if ((← get).registries s).isInterface interface.key then compileInterface s interface
  else throw (.type (.unregisteredInterface cls.name interface.name))

/-- The node of an object type. -/
def compileObject (s : SessionId) (cls : ClassRef) : Compile σ ObjectNode :=
  Compile.remember s .objects cls.key do
    let r := (← get).registries s
    match OrderedMap.find r.objects cls.key with
    | none => throw (.type (.unregistered cls.name))
    | some spec =>
      match spec.mixins.find? fun m ↦ !r.canMix m with
      | some mixin => throw (.type (.unregisteredMixin cls.name mixin.name))
      | none =>
        let interfaces ← spec.implements.mapM (compileClaimed s cls)
        return {
          id := .compiled s .object cls.key
          name := spec.name.getD cls.name
          description := spec.description
          cls := some cls
          interfaces
          mixins := spec.mixins }

/-- The node of a member of a union of a name; it must be an object type. -/
def compileMember (s : SessionId) (union : String) (member : ClassRef) : Compile σ ObjectNode := do
  let r := (← get).registries s
  if r.isUnion member.key || r.isInterface member.key then
    throw (.union (.nonObjectMember union member.name))
  else if r.isObject member.key then compileObject s member
  else throw (.resolve (.unresolvable member.name))

/-- The node of a union; its members must be object types. -/
def compileUnion (s : SessionId) (cls : ClassRef) : Compile σ UnionNode :=
  Compile.remember s .unions cls.key do
    match OrderedMap.find ((← get).registries s).unions cls.key with
    | none => throw (.resolve (.unresolvable cls.name))
    | some spec =>
      let name := spec.name.getD cls.name
      let members ← spec.members.mapM (compileMember s name)
      return {
        id := .compiled s .union cls.key
        name
        description := spec.description
        cls
        members
        custom := spec.discriminator }

/-- The node of an input type, which must have input fields somewhere in its lineage. -/
def compileInput (s : SessionId) (cls : ClassRef) : Compile σ InputNode :=
  Compile.remember s .inputs cls.key do
    let r := (← get).registries s
    match OrderedMap.find r.inputs cls.key with
    | none => throw (.type (.unregistered cls.name))
    | some spec =>
      if cls.lineage.all fun c ↦ r.inputFields.isEmpty c.key then
        throw (.type (.emptyInputType cls.name))
      else
        return {
          id := .compiled s .input cls.key
          name := spec.name.getD cls.name
          description := spec.description
          cls }

end ApiGraph
