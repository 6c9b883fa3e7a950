import ApiGraph.Execution.Result
import ApiGraph.Proofs.Argument.Convert
import ApiGraph.Proofs.Compile.Placed
import ApiGraph.Proofs.Schema.Complete

/-!
# Schemas whose types are in their places

Every workspace of a run keeps its fields in their places, so every schema has them there.  What
converts values relies on it: the result of a field never meets an input type, and what is supplied
for an argument meets nothing else, down to the last item of a list and the last field of a field.

## What is here

* `Workspace.Step.placed` and `Workspace.Reachable.placed`: the fields of all runs.
* `GraphType.toEngineBy`: the conversion of results, with another conversion at the nodes.
* `Schema.Places`: what stands where in a schema.
* `compileSchema_placed`: all of it, for schemas of all runs and from then on.
-/

set_option autoImplicit false

namespace ApiGraph

open Compile (Ensures)
open Workspace (Placed Reachable Step)

variable {σ : Type} {d : Declarations} {host : Host σ}

/-! ## Assembling a schema -/

namespace Workspace.Placed

variable {w : Workspace σ}

theorem of_entries {v : Workspace σ} (hw : w.Placed)
    (he : ∀ {s t key x}, v.entry s t key = some x → w.entry s t key = some x)
    (hroots : v.roots = w.roots) : v.Placed :=
  ⟨fun h ↦ hw.entries (he h), fun h ↦ hw.roots (hroots ▸ h)⟩

theorem enroll (hw : w.Placed) (operation : Operation) (n : ObjectNode) {fields : FieldMap}
    (hf : fields.Placed) : (w.enroll operation n fields).Placed := by
  refine ⟨fun h ↦ hw.entries h, fun {key m fields'} h ↦ ?_⟩
  rw [Workspace.enroll, OrderedMap.find_put] at h
  split at h
  · cases h
    exact hf
  · exact hw.roots h

theorem addOwner (hw : w.Placed) (s : SessionId) (owner : Owner) :
    (w.modifySession s fun x ↦ { x with owners := x.owners ++ [owner] }).Placed := by
  have hd : w.Drops (w.modifySession s fun x ↦ { x with owners := x.owners ++ [owner] }) :=
    .of_modifySession rfl (fun _ ↦ rfl) fun _ ↦ rfl
  exact hw.of_entries hd.entries rfl

end Workspace.Placed

section Assembly

variable (host) (s : SessionId)

theorem makeRoots_placed (fields : RootFields) : Ensures Placed (makeRoots host s fields) := by
  refine .get fun w _ ↦ ?_
  refine (compileRootFields_placed s host fields.query).bind fun queryMap hquery ↦ ?_
  refine (compileRootFields_placed s host fields.mutation).bind fun mutationMap hmutation ↦ ?_
  refine .get fun w₁ _ ↦ ?_
  refine (Ensures.modify fun w₂ hw₂ ↦ ?_).bind fun _ _ ↦ .pure trivial
  have hw := hw₂.enroll .query (rootNode w₁.nextSchema .query
    (w.session s).config.queryTypeName) hquery
  split
  · exact hw
  · exact hw.enroll .mutation _ hmutation

theorem compileRoots_placed (roots : List ClassRef) :
    Ensures Placed (compileRoots host s roots) := by
  refine (gatherRoots_ensures host Placed.ofHost s roots).bind fun fields _ ↦ ?_
  split
  · exact .throw _
  · exact makeRoots_placed host s fields

theorem compileSchema_ensures (roots : List ClassRef) :
    Ensures Placed (compileSchema host s roots) := by
  refine .get fun w hw ↦ ?_
  refine (compileRoots_placed host s roots).bind fun made _ ↦ ?_
  have htypes := collectTypes_ensures host (GraphNode.successors_placed host) made.nodes
  refine (htypes.tryCatch fun e ↦ ?_).bind fun types _ ↦ ?_
  · refine Ensures.bind (Ensures.modify fun w' hw' ↦ ?_) fun _ _ ↦ .throw e
    exact ⟨hw'.entries, hw.roots⟩
  refine (Ensures.modify fun w' hw' ↦ ?_).bind fun _ _ ↦ .pure trivial
  exact ⟨(hw'.addOwner s (.schema made.serial)).entries, hw'.roots⟩

end Assembly

/-- Every field that the engine has of a type is in its place. -/
def EngineType.Placed : EngineType → Prop
  | .object _ fields | .interface _ fields => FieldMap.Placed fields
  | .input _ fields => InputMap.Placed fields
  | .scalar _ | .enum _ | .union _ => True

theorem GraphNode.lower_placed (host : Host σ) (n : GraphNode) :
    Ensures Placed (n.lower host) fun o ↦ ∀ t ∈ o, t.Placed := by
  cases n with
  | object n =>
    rw [GraphNode.lower]
    refine (n.fields_placed host).bind fun fields hfields ↦ .pure ?_
    rintro t ⟨⟩
    exact hfields
  | interface n =>
    rw [GraphNode.lower]
    refine (n.fields_placed host).bind fun fields hfields ↦ .pure ?_
    rintro t ⟨⟩
    exact hfields
  | input n =>
    rw [GraphNode.lower]
    refine (n.fields_placed host).bind fun fields hfields ↦ .pure ?_
    rintro t ⟨⟩
    exact hfields
  | union n | enum n =>
    rw [GraphNode.lower]
    refine .pure ?_
    rintro t ⟨⟩
    trivial
  | scalar n =>
    rw [GraphNode.lower]
    refine .pure fun t ht ↦ ?_
    split at ht <;> cases ht
    trivial

theorem Schema.executable_placed (verdict : EngineVerdict) (host : Host σ) (schema : Schema) :
    Ensures Placed (schema.executable verdict host) fun x ↦ ∀ t ∈ x.types, t.Placed := by
  have hlower : Ensures Placed (schema.lower verdict host) fun x ↦ ∀ t ∈ x.types, t.Placed := by
    refine (Ensures.mapM fun n _ ↦ n.lower_placed host).bind fun types htypes ↦ .get fun w _ ↦ ?_
    dsimp only
    split
    · exact .throw _
    · refine .pure fun t ht ↦ ?_
      obtain ⟨o, ho, rfl⟩ := List.mem_filterMap.1 ht
      exact htypes _ ho t rfl
  refine hlower.bind fun x hx ↦ ?_
  refine (Ensures.modify fun w hw ↦ ?_).bind fun _ _ ↦ .pure hx
  exact ⟨(hw.addOwner x.session (.executable x.serial)).entries, hw.roots⟩

/-! ## Runs -/

namespace Workspace

variable {w w' : Workspace σ}

theorem Request.placed {α : Type} {x : Compile σ α} (hx : w.Request d host x) :
    Ensures Placed x := by
  cases hx with
  | object => exact compileObject_placed _ _
  | input => exact compileInput_placed _ _
  | enum => exact compileEnum_placed _ _
  | union => exact compileUnion_placed _ _
  | interface => exact compileInterface_placed _ _
  | reference _ _ o => exact (resolveType_placed _ host _ o).weaken fun _ _ ↦ trivial
  | @objectFields n => exact (n.fields_placed host).weaken fun _ _ ↦ trivial
  | @interfaceFields n => exact (n.fields_placed host).weaken fun _ _ ↦ trivial
  | @inputFields n => exact (n.fields_placed host).weaken fun _ _ ↦ trivial
  | @implementations n => exact n.implementations_placed

/-- No step of a run puts a field where it may not stand. -/
theorem Step.placed (h : Step d host w w') (hw : w.Placed) : w'.Placed := by
  cases h with
  | opened config => exact hw.of_entries (fun h ↦ w.entry_openSession config _ _ _ ▸ h) rfl
  | registered => exact hw.of_entries (fun h ↦ w.entry_modifyRegistries _ _ _ _ _ ▸ h) rfl
  | asked hx => exact (hx.placed w hw).1
  | assembled _ roots => exact (compileSchema_ensures host _ roots w hw).1
  | @lowered schema verdict => exact (schema.executable_placed verdict host w hw).1
  | released s owner => exact hw.of_entries (w.drops_release s owner).entries rfl
  | moved state => exact hw.ofHost w state
  | called => exact ⟨hw.entries, hw.roots⟩

theorem Placed.initial (state : σ) : Placed ({ host := state } : Workspace σ) := by
  refine ⟨fun {s t key v} h ↦ ?_, fun h ↦ ?_⟩
  · cases t <;> cases h
  · cases h

/-- **In every workspace of a run all fields are in their places.** -/
theorem Reachable.placed (h : w.Reachable d host) : w.Placed := by
  obtain ⟨state, h⟩ := h
  induction h with
  | refl => exact .initial state
  | tail _ hstep ih => exact hstep.placed ih

end Workspace

/-! ## Converting values -/

/-- The engine's value of a result, with some conversion of values at nodes. -/
def GraphType.toEngineBy
    (atNode : GraphNode → HostValue → Option RequestContext → ResolveInfo → Execute σ EngineValue) :
    GraphType → HostValue → Option RequestContext → ResolveInfo → Execute σ (Option EngineValue)
  | .nonNull inner, value, context, info => inner.toEngineBy atNode value context info
  | .named node, value, context, info =>
    if value.isNullish then return none
    else some <$> atNode node value context info
  | .list item, value, context, info =>
    if value.isNullish then return none
    else match value with
      | .list items => do
        let converted ← items.mapM fun v ↦ do
          return (← item.toEngineBy atNode v context info).getD (.wire .null)
        return some (.list converted)
      | other => throw (.cast (.notAList info.fieldName other.kind))

/-- A result is converted at the node at the bottom of its type, and at no other. -/
theorem GraphType.toEngine_eq_toEngineBy {t : GraphType} {atNode : GraphNode → HostValue →
      Option RequestContext → ResolveInfo → Execute σ EngineValue}
    (h : atNode t.node = t.node.toEngine host) : t.toEngine host = t.toEngineBy atNode := by
  induction t with
  | named node =>
    funext value context info
    rw [toEngine, toEngineBy, show atNode node = _ from h]
    rfl
  | nonNull inner ih =>
    funext value context info
    rw [toEngine, toEngineBy, ih h]
  | list item ih =>
    funext value context info
    cases value <;> simp only [toEngine, toEngineBy, ih h]

/-- Whatever is supplied at a type, its conversion comes to scalars, enums and input types only. -/
def GraphType.MeetsInputs (fieldsOf : InputNode → Except CompileError InputMap) (t : GraphType) :
    Prop :=
  ∀ value y, Relation.ReflTransGen (Calls fieldsOf) (t, value) y → y.1.node.isInput = true

/-- If all input fields are in their places, no conversion leaves the input types. -/
theorem Workspace.Placed.meetsInputs {w : Workspace σ} (hw : w.Placed) {t : GraphType}
    (ht : t.node.isInput = true) : t.MeetsInputs (w.inputFieldsOf host) := by
  intro value y hy
  induction hy with
  | refl => exact ht
  | @tail x y _ hcall ih =>
    cases hcall with
    | nonNull | single | item => exact ih
    | @field n supplied fields before after f raw hfields hf =>
      have hplaced : fields.Placed := (n.fields_placed host w hw).2 fields hfields
      exact (hplaced f (hf ▸ List.mem_append_right _ List.mem_cons_self)).input

/-! ## Schemas -/

/-- How the values of a field are converted: its result meets no input type, and is treated alike
by whatever treats all other nodes as the conversion of results does; and what is supplied for its
arguments meets nothing but scalars, enums and input types. -/
structure CompiledField.Converts (host : Host σ) (w : Workspace σ) (f : CompiledField) :
    Prop where
  result : ∀ atNode : GraphNode → HostValue → Option RequestContext → ResolveInfo →
      Execute σ EngineValue,
    (∀ n : GraphNode, n.isOutput = true → atNode n = n.toEngine host) →
      f.type.toEngine host = f.type.toEngineBy atNode
  args : ∀ a ∈ OrderedMap.values f.args, a.type.MeetsInputs (w.inputFieldsOf host)

theorem CompiledField.Placed.converts {w : Workspace σ} (hw : w.Placed) {f : CompiledField}
    (hf : f.Placed) : f.Converts host w where
  result _ h := GraphType.toEngine_eq_toEngineBy (h _ hf.output)
  args a ha := hw.meetsInputs (hf.args a ha).input

/-- What a node of a schema has stands where it may stand, and values are converted accordingly. -/
structure Schema.Places (host : Host σ) (w : Workspace σ) (schema : Schema) (n : GraphNode) :
    Prop where
  outputs : ∀ fields, w.OutputFields host n fields →
    ∀ f ∈ OrderedMap.values fields, f.Placed ∧ f.Converts host w
  inputs : ∀ i fields, n = .input i → w.inputFieldsOf host i = .ok fields →
    ∀ f ∈ OrderedMap.values fields, f.Placed ∧ f.type.MeetsInputs (w.inputFieldsOf host)
  members : ∀ u, n = .union u → ∀ m ∈ u.members, GraphNode.object m ∈ schema.types

/-- **The types of a schema are in their places.**  In every run, whatever references were
registered and whatever nodes were handed in, when a schema is compiled the fields of all its types
are there; and from then on the fields of its objects and interfaces have output types and take
scalars, enums and input types for arguments, the fields of its input types have such types too, no
type is made non-null twice, and the members of its unions are objects of the schema.  So no result
of a field is ever converted at an input type, and nothing that is supplied at anything but a
scalar, an enum or an input type.  The fields of an executable of the schema are in their places as
well. -/
theorem compileSchema_placed {w w₁ w₂ : Workspace σ} (hw : w.Reachable d host) {s : SessionId}
    (hs : w.isOpen s = true) {roots : List ClassRef} {schema : Schema}
    (hschema : (compileSchema host s roots).runIn w = (.ok schema, w₁))
    (hsteps : Relation.ReflTransGen (Step d host) w₁ w₂) :
    (∀ n ∈ schema.types, ∃ ms, ((n.successors host).runIn w₁).1 = .ok ms) ∧
      (∀ n ∈ schema.types, schema.Places host w₂ n) ∧
      ∀ verdict x, ((schema.executable verdict host).runIn w₂).1 = .ok x →
        ∀ t ∈ x.types, t.Placed := by
  have hw₁ : w₁.Reachable d host := by
    have hstep := hw.tail (.assembled hs roots)
    rwa [hschema] at hstep
  obtain ⟨_, _, _, _, _, _, hheld⟩ := compileSchema_ok hw.sound hs hschema
  have hreached := (Schema.Complete.of_ok hw.sound hs hschema).reached
  have hw₂ : w₂.Placed := (hw₁.steps hsteps).placed
  refine ⟨fun n hn ↦ ?_, fun n hn ↦ ?_,
    fun verdict ↦ (schema.executable_placed verdict host w₂ hw₂).2⟩
  · obtain ⟨ms, hms⟩ : ∃ ms, ∀ w', w₁.Retains w' → (n.successors host).runIn w' = (.ok ms, w') :=
      (hheld n hn).2.1.runIn_successors
    exact ⟨ms, congrArg Prod.fst (hms w₁ (.refl w₁))⟩
  refine ⟨fun fields hfields f hf ↦ ?_, fun i fields _ hfields f hf ↦ ?_, ?_⟩
  · have hplaced : fields.Placed := by
      cases n with
      | object n => exact (n.fields_placed host w₂ hw₂).2 fields hfields
      | interface n => exact (n.fields_placed host w₂ hw₂).2 fields hfields
      | union n | enum n | input n | scalar n => cases hfields
    exact ⟨hplaced f hf, (hplaced f hf).converts hw₂⟩
  · have hplaced : f.Placed := (i.fields_placed host w₂ hw₂).2 fields hfields f hf
    exact ⟨hplaced, hw₂.meetsInputs hplaced.input⟩
  · rintro u rfl m hm
    exact (hreached _).2 (((hreached _).1 hn).tail (.member hm))

/-! ### An instance -/

namespace Points

/-- The root of the query type. -/
def root : ClassRef := .base ⟨1⟩ "Root"

/-- A class that is an object type and an input type. -/
def point : ClassRef := .base ⟨2⟩ "Point"

/-- The node of an enum, made by hand. -/
def side : EnumNode where
  id := .custom 0
  name := "Side"
  description := none
  definition := { key := ⟨3⟩, members := EnumDef.numbered ["Left", "Right"] }

/-- The two classes and the node. -/
def declared : Declarations :=
  { Declarations.ofClasses [root, point] (by decide) with
    enumNodes := fun n ↦ n = side
    enumNodes_inj := fun hn hn' _ ↦ hn.trans hn'.symm
    enumNodes_custom := by
      rintro _ rfl
      exact ⟨⟨0, rfl⟩, fun _ h ↦ h.elim⟩ }

/-- A field for which the node is handed in, on both sides of the class. -/
def x : FieldSpec where
  property := "x"
  type := some (.node (.enum side))

/-- A query of a point for a point: its type is deferred, that of its argument is inferred. -/
def move : FieldSpec where
  property := "move"
  type := some (.thunk none (.cls point))
  params := [{ name := "by", signature := some (.cls point) }]
  method := some ⟨0⟩

/-- A session in which the two classes and their fields are registered. -/
def workspace : Workspace Unit :=
  ((((Workspace.openSession { host := () } {}).2.modifyRegistries 0
    (·.schemaRoot root {})).modifyRegistries 0
    (·.duplexType point {})).modifyRegistries 0
    (Registries.duplexField point x).apply).modifyRegistries 0
    (Registries.rootField root move .query).apply

theorem reachable : workspace.Reachable declared .idle := by
  have hpoint : declared.classes point := List.mem_cons_of_mem _ List.mem_cons_self
  have hduplex : ∀ offered, Registries.Change declared offered (·.duplexType point {}) :=
    fun _ ↦ .duplexType hpoint nofun
  have hx : ∀ w : Workspace Unit, x.Within declared (w.Offers declared) := by
    refine fun w ↦ ⟨fun t ht ↦ ?_, nofun, nofun⟩
    cases ht
    exact .node ⟨.inl rfl, nofun⟩
  have hmove : ∀ offered, move.Within declared offered := by
    refine fun _ ↦ ⟨fun t ht ↦ ?_, fun p hp g hg ↦ ?_, nofun⟩
    · cases ht
      exact .thunk (.cls hpoint)
    · cases List.mem_singleton.1 hp
      cases hg
      exact .cls hpoint
  have hroot : Reachable declared .idle _ :=
    (Reachable.opened () {}).registered (s := 0) rfl (.schemaRoot root {})
  exact ((hroot.registered (s := 0) rfl (hduplex _)).registered (s := 0) rfl
    (.duplexField point (hx _))).registered (s := 0) rfl (.rootField root .query (hmove _))

end Points

open Points in
/-- A class in two roles is an object where a field has it for its type, and an input type where an
argument has.  The node of an enum stands on both sides of the class. -/
theorem compileSchema_placed_points :
    workspace.Reachable declared .idle ∧ workspace.isOpen 0 = true ∧
      ∃ schema w₁, (compileSchema .idle 0 [root]).runIn workspace = (.ok schema, w₁) ∧
        schema.types.map GraphNode.display =
          ["object(Query)", "input(PointInput)", "enum(Side)", "object(Point)"] ∧
        (∀ n ∈ schema.types, ∃ ms, ((n.successors .idle).runIn w₁).1 = .ok ms) ∧
        (∀ n ∈ schema.types, schema.Places .idle w₁ n) ∧
        ∀ verdict x, ((schema.executable verdict .idle).runIn w₁).1 = .ok x →
          ∀ t ∈ x.types, t.Placed := by
  have hnames : ((compileSchema .idle 0 [root]).runIn workspace).1.toOption.map
      (fun schema ↦ schema.types.map GraphNode.display) =
        some ["object(Query)", "input(PointInput)", "enum(Side)", "object(Point)"] := by cbv
  refine ⟨reachable, rfl, ?_⟩
  rcases hrun : (compileSchema .idle 0 [root]).runIn workspace with ⟨e | schema, w₁⟩ <;>
    rw [hrun] at hnames
  · cases hnames
  · exact ⟨schema, w₁, rfl, Option.some.inj hnames,
      compileSchema_placed reachable (s := 0) rfl hrun .refl⟩

end ApiGraph
