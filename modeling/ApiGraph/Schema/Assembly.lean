import ApiGraph.Schema.Reachable

/-!
# Assembling a schema from its roots

The root fields of every listed class, its own and the inherited ones, are merged into one query
type and one mutation type.  A schema is these two and every type they reach.

## What is here

* `rootFieldsOf`: the root fields of a class by exposed name, the youngest declaration counting.
* `gatherRoots`: the root fields of a list of classes, each with the instance that serves it.
* `makeRoots` and `compileRoots`: the root types.
* `compileSchema`.
-/

set_option autoImplicit false

namespace ApiGraph

variable {σ : Type}

/-- A root field before it is compiled. -/
structure RootField where
  /-- The root that contributes the field. -/
  root : ClassRef
  /-- The class that declares it. -/
  owner : ClassRef
  spec : FieldSpec
  /-- The instance of the root. -/
  served : Instance

/-- The root fields of the two operations, by exposed name. -/
structure RootFields where
  query : OrderedMap String RootField := []
  mutation : OrderedMap String RootField := []

/-- A compiled schema. -/
structure Schema where
  serial : Nat
  session : SessionId
  query : ObjectNode
  mutation : Option ObjectNode
  /-- Every type that the roots reach, roots included. -/
  types : List GraphNode
  config : Config

/-! ## Gathering root fields -/

/-- The root fields that a class itself declares; two of one exposed name collide. -/
def ownRootFields (r : Registries) (owner : ClassRef) :
    Except CompileError (OrderedMap String FieldSpec) :=
  let declared := (OrderedMap.values (r.fields.getAll owner.key)).filter (·.exposure.isSome)
  declared.foldlM
    (fun found spec ↦
      if OrderedMap.has found spec.exposedName then
        .error (.assembly (.duplicateRootField spec.exposedName owner.name owner.name))
      else .ok (OrderedMap.put found spec.exposedName spec))
    []

/-- The root fields of a class with the inherited ones, by exposed name; a class overrides what its
ancestors declare. -/
def rootFieldsOf (r : Registries) (root : ClassRef) :
    Except CompileError (OrderedMap String (ClassRef × FieldSpec)) :=
  root.oldestFirst.foldlM
    (fun found owner ↦
      (ownRootFields r owner).map fun own ↦
        own.foldl (fun m (name, spec) ↦ OrderedMap.put m name (owner, spec)) found)
    []

/-- Adds a field to those of an operation; a name can be contributed once. -/
def addRootField (fields : OrderedMap String RootField) (name : String) (field : RootField) :
    Except CompileError (OrderedMap String RootField) :=
  match OrderedMap.find fields name with
  | some known =>
    .error (.assembly (.duplicateRootField name known.root.name field.root.name))
  | none => .ok (OrderedMap.put fields name field)

/-- Adds a field to those of an operation if it is exposed there. -/
def exposeRootField (operation : Operation) (fields : OrderedMap String RootField) (name : String)
    (field : RootField) : Except CompileError (OrderedMap String RootField) :=
  if field.spec.exposure.any (·.includes operation) then addRootField fields name field
  else .ok fields

/-- Adds a field to the operations under which it is exposed. -/
def RootFields.add (fields : RootFields) (name : String) (field : RootField) :
    Except CompileError RootFields := do
  let query ← exposeRootField .query fields.query name field
  let mutation ← exposeRootField .mutation fields.mutation name field
  return { query, mutation }

/-- The instance that serves the fields of a root. -/
def makeRoot (host : Host σ) (root : ClassRef) (spec : RootSpec) : Compile σ Instance :=
  match spec.constructor with
  | some id => Compile.ofHost (host.construct id)
  | none => return { cls := root }

/-- Adds the root fields of a class to those of the classes before it. -/
def gatherRoot (host : Host σ) (s : SessionId) (fields : RootFields) (root : ClassRef) :
    Compile σ RootFields := do
  let r := (← get).registries s
  match OrderedMap.find r.roots root.key with
  | none => throw (.assembly (.notSchemaRoot root.name))
  | some spec =>
    let served ← makeRoot host root spec
    let own ← ExceptT.mk (pure (rootFieldsOf r root))
    ExceptT.mk (pure (own.foldlM
      (fun fields (name, owner, spec) ↦ fields.add name { root, owner, spec, served }) fields))

/-- The root fields of a list of classes. -/
def gatherRoots (host : Host σ) (s : SessionId) (roots : List ClassRef) : Compile σ RootFields :=
  roots.foldlM (gatherRoot host s) {}

/-! ## The schema -/

/-- Compiles the fields of a root type. -/
def compileRootFields (host : Host σ) (s : SessionId) (fields : OrderedMap String RootField) :
    Compile σ FieldMap :=
  fields.mapM fun (name, field) ↦ do
    let compiled ← compileField host s field.owner field.spec (some field.served)
    return (name, compiled)

/-- The node of a root type. -/
def rootNode (serial : Nat) (operation : Operation) (name : String) : ObjectNode :=
  { id := .root serial operation
    name
    description := none
    cls := none
    interfaces := []
    mixins := [] }

/-- The root types of a schema of a serial number, before it is known what they reach. -/
structure SchemaRoots where
  serial : Nat
  query : ObjectNode
  mutation : Option ObjectNode
  config : Config

/-- The nodes of the root types. -/
def SchemaRoots.nodes (r : SchemaRoots) : List GraphNode :=
  .object r.query :: (r.mutation.map GraphNode.object).toList

/-- A workspace with one more root, under the next serial number. -/
def Workspace.enroll (w : Workspace σ) (operation : Operation) (n : ObjectNode)
    (fields : FieldMap) : Workspace σ :=
  { w with roots := OrderedMap.put w.roots (w.nextSchema, operation) (n, fields) }

/-- Compiles the root types for root fields, under the next serial number. -/
def makeRoots (host : Host σ) (s : SessionId) (fields : RootFields) : Compile σ SchemaRoots := do
  let config := ((← get).session s).config
  let queryMap ← compileRootFields host s fields.query
  let mutationMap ← compileRootFields host s fields.mutation
  let serial := (← get).nextSchema
  let query := rootNode serial .query config.queryTypeName
  let mutation :=
    if fields.mutation.isEmpty then none
    else some (rootNode serial .mutation config.mutationTypeName)
  modify fun w ↦
    let w := w.enroll .query query queryMap
    mutation.elim w fun node ↦ w.enroll .mutation node mutationMap
  return { serial, query, mutation, config }

/-- Compiles the root types of a schema: each root is made once, its fields share that instance. -/
def compileRoots (host : Host σ) (s : SessionId) (roots : List ClassRef) :
    Compile σ SchemaRoots := do
  let fields ← gatherRoots host s roots
  if fields.query.isEmpty then throw (.assembly .noQueryFields)
  else makeRoots host s fields

/-- Compiles a schema from its roots.  The root types of a schema that fails are given up. -/
def compileSchema (host : Host σ) (s : SessionId) (roots : List ClassRef) :
    Compile σ Schema := do
  let kept := (← get).roots
  let made ← compileRoots host s roots
  let types ← tryCatch (collectTypes host made.nodes) fun e ↦ do
    modify fun w ↦ { w with roots := kept }
    throw e
  modify fun w ↦
    let w := w.modifySession s fun x ↦ { x with owners := x.owners ++ [.schema made.serial] }
    { w with nextSchema := made.serial + 1 }
  return {
    serial := made.serial
    session := s
    query := made.query
    mutation := made.mutation
    types
    config := made.config }

end ApiGraph
