import ApiGraph.Config
import ApiGraph.Field.Compiled

/-!
# Sessions and what they have compiled

A workspace holds sessions that know nothing of one another.  A session's nodes and field maps are
kept by its owners: the session itself, the schemas compiled from it, and the executables built
from those.  When the last owner is gone, the field maps are released.

## What is here

* `NodeCache` with its tables, `Owner`, `Session`, `Workspace`.
* `Workspace.open`, `Workspace.release`: the lives of sessions and of their owners.
* `Compile`: a computation that may fail, over a workspace; what it has cached stays cached.
* `Compile.remember`: the one way in which a table of a cache is filled.
-/

set_option autoImplicit false

namespace ApiGraph

/-- The nodes that a session has compiled, and the field maps that have been asked for. -/
structure NodeCache where
  objects : OrderedMap TypeKey ObjectNode := []
  inputs : OrderedMap TypeKey InputNode := []
  enums : OrderedMap TypeKey EnumNode := []
  unions : OrderedMap TypeKey UnionNode := []
  interfaces : OrderedMap TypeKey InterfaceNode := []
  objectFields : OrderedMap TypeKey FieldMap := []
  interfaceFields : OrderedMap TypeKey FieldMap := []
  inputFields : OrderedMap TypeKey InputMap := []

/-- The tables of a cache. -/
inductive CacheTable where
  | objects
  | inputs
  | enums
  | unions
  | interfaces
  | objectFields
  | interfaceFields
  | inputFields
deriving DecidableEq, Repr

/-- What a table holds. -/
abbrev CacheTable.Value : CacheTable → Type
  | .objects => ObjectNode
  | .inputs => InputNode
  | .enums => EnumNode
  | .unions => UnionNode
  | .interfaces => InterfaceNode
  | .objectFields => FieldMap
  | .interfaceFields => FieldMap
  | .inputFields => InputMap

namespace NodeCache

/-- A table of a cache. -/
def table (c : NodeCache) : (t : CacheTable) → OrderedMap TypeKey t.Value
  | .objects => c.objects
  | .inputs => c.inputs
  | .enums => c.enums
  | .unions => c.unions
  | .interfaces => c.interfaces
  | .objectFields => c.objectFields
  | .interfaceFields => c.interfaceFields
  | .inputFields => c.inputFields

/-- The cache with one of its tables replaced. -/
def setTable (c : NodeCache) : (t : CacheTable) → OrderedMap TypeKey t.Value → NodeCache
  | .objects, m => { c with objects := m }
  | .inputs, m => { c with inputs := m }
  | .enums, m => { c with enums := m }
  | .unions, m => { c with unions := m }
  | .interfaces, m => { c with interfaces := m }
  | .objectFields, m => { c with objectFields := m }
  | .interfaceFields, m => { c with interfaceFields := m }
  | .inputFields, m => { c with inputFields := m }

/-- The cache with one more entry. -/
def enter (c : NodeCache) (t : CacheTable) (key : TypeKey) (value : t.Value) : NodeCache :=
  c.setTable t (OrderedMap.put (c.table t) key value)

end NodeCache

/-- The cache without its field maps. -/
def NodeCache.released (c : NodeCache) : NodeCache :=
  { c with objectFields := [], interfaceFields := [], inputFields := [] }

/-- What keeps the field maps of a session. -/
inductive Owner where
  /-- The session itself. -/
  | session
  /-- The compiled schema of a serial number. -/
  | schema (serial : Nat)
  /-- The executable of a serial number. -/
  | executable (serial : Nat)
deriving DecidableEq, Repr

/-- A compilation context. -/
structure Session where
  registries : Registries := {}
  cache : NodeCache := {}
  config : Config := {}
  owners : List Owner := [.session]

/-- Whether a session can still be used. -/
def Session.isOpen (s : Session) : Bool := s.owners.contains .session

/-- Drops an owner; without owners the field maps are released. -/
def Session.release (s : Session) (owner : Owner) : Session :=
  let owners := s.owners.erase owner
  { s with owners, cache := if owners.isEmpty then s.cache.released else s.cache }

/-- All sessions, the roots of all schemas, and the state of the program. -/
structure Workspace (σ : Type) where
  sessions : List Session := []
  /-- The roots of each schema with their fields, which are kept throughout. -/
  roots : OrderedMap (Nat × Operation) (ObjectNode × FieldMap) := []
  /-- The serial number of the next schema. -/
  nextSchema : Nat := 0
  /-- The serial number of the next executable. -/
  nextExecutable : Nat := 0
  /-- The number of the next call of a resolver. -/
  nextCall : Nat := 0
  host : σ

namespace Workspace

variable {σ : Type}

/-- The session of a number; one that was never opened has no owners. -/
def session (w : Workspace σ) (s : SessionId) : Session :=
  (w.sessions[s]?).getD { owners := [] }

/-- Changes a session. -/
def modifySession (w : Workspace σ) (s : SessionId) (f : Session → Session) : Workspace σ :=
  { w with sessions := w.sessions.modify s f }

/-- Opens a session and gives its number. -/
def openSession (w : Workspace σ) (config : Config) : SessionId × Workspace σ :=
  (w.sessions.length, { w with sessions := w.sessions ++ [{ config }] })

/-- Drops an owner of a session's field maps. -/
def release (w : Workspace σ) (s : SessionId) (owner : Owner) : Workspace σ :=
  w.modifySession s (·.release owner)

/-- The registries of a session. -/
def registries (w : Workspace σ) (s : SessionId) : Registries := (w.session s).registries

/-- The cache of a session. -/
def cache (w : Workspace σ) (s : SessionId) : NodeCache := (w.session s).cache

/-- Whether a session can still be used. -/
def isOpen (w : Workspace σ) (s : SessionId) : Bool := (w.session s).isOpen

/-- Changes the cache of a session. -/
def modifyCache (w : Workspace σ) (s : SessionId) (f : NodeCache → NodeCache) : Workspace σ :=
  w.modifySession s fun x ↦ { x with cache := f x.cache }

/-- Changes the registries of a session. -/
def modifyRegistries (w : Workspace σ) (s : SessionId) (f : Registries → Registries) :
    Workspace σ :=
  w.modifySession s fun x ↦ { x with registries := f x.registries }

end Workspace

/-! ## Computations over a workspace -/

/-- A computation over a workspace. -/
abbrev Action (σ : Type) := StateM (Workspace σ)

/-- A computation over a workspace that can fail to compile. -/
abbrev Compile (σ : Type) := ExceptT CompileError (StateM (Workspace σ))

namespace Action

variable {σ α : Type}

/-- A step of the program. -/
def ofHost (step : StateM σ α) : Action σ α := fun w ↦
  let (a, host) := step w.host
  (a, { w with host })

end Action

namespace Compile

variable {σ : Type}

/-- Fails unless a session can still be used. -/
def requireOpen (s : SessionId) : Compile σ Unit := do
  if (← get).isOpen s then return () else throw .sessionDropped

/-- A computation that cannot fail. -/
def ofAction {α : Type} (a : Action σ α) : Compile σ α := ExceptT.lift a

/-- A step of the program. -/
def ofHost {α : Type} (step : StateM σ α) : Compile σ α := ofAction (Action.ofHost step)

/-- The outcome of a computation, as a value. -/
def outcome {α : Type} (c : Compile σ α) : Action σ (Except CompileError α) := ExceptT.run c

/-- What a table of a session's cache holds for a key.  A missing value is made and then kept; one
that cannot be made is not kept, so the next request tries again. -/
def remember (s : SessionId) (t : CacheTable) (key : TypeKey) (make : Compile σ t.Value) :
    Compile σ t.Value := do
  match OrderedMap.find (((← get).cache s).table t) key with
  | some known => return known
  | none =>
    let made ← make
    modify fun w ↦ w.modifyCache s (·.enter t key made)
    return made

end Compile

end ApiGraph
