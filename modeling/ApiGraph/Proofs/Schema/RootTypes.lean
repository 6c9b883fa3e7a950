import ApiGraph.Proofs.Schema.Complete
import ApiGraph.Proofs.Schema.RootFields

/-!
# The root types of a schema

The fields that have been gathered of the roots are compiled, and become the fields of the query
type and of the mutation type.  None is lost or joins another class on the way: the fields of a root
type are exactly those that the roots have for its operation.

## What is here

* `RootFields.MadeInto`: what becomes of the root fields of an operation, with `makeRoots_root`,
  `compileRoots_root` and `compileSchema_root` for the steps on the way.
* `FieldMap.Serves`: what the fields of a root type should be, read off the registries.
* `compileSchema_rootFields`: it is that, or two root fields are in each other's way.
-/

set_option autoImplicit false

namespace ApiGraph

open Workspace (Reachable Step)

variable {σ : Type} {d : Declarations} {host : Host σ} {w w₁ : Workspace σ} {s : SessionId}
  {roots : List ClassRef}

/-! ## What root types are made of -/

/-- A root field is compiled, in a workspace, to a field under the same name. -/
def RootField.CompilesTo (host : Host σ) (w : Workspace σ) (s : SessionId) (e : String × RootField)
    (e' : String × CompiledField) : Prop :=
  e'.1 = e.1 ∧ ((compileField host s e.2.owner e.2.spec (some e.2.served)).runIn w).1 = .ok e'.2

/-- The root type of an operation. -/
def SchemaRoots.root? (made : SchemaRoots) : Operation → Option ObjectNode
  | .query => some made.query
  | .mutation => made.mutation

/-- The root type of an operation. -/
def Schema.root? (schema : Schema) : Operation → Option ObjectNode
  | .query => some schema.query
  | .mutation => schema.mutation

/-- The root type of an operation is made of root fields: it is missing if there are none, and else
it has been given what they are compiled to. -/
def RootFields.MadeInto (fields : RootFields) (host : Host σ) (w w₁ : Workspace σ) (s : SessionId)
    (operation : Operation) : Option ObjectNode → Prop
  | none => fields.of operation = []
  | some n => fields.of operation ≠ [] ∧ ∃ serial m compiled, n.id = .root serial operation ∧
    OrderedMap.find w₁.roots (serial, operation) = some (m, compiled) ∧
    List.Forall₂ (RootField.CompilesTo host w s) (fields.of operation) compiled

section Make

variable {w₀ : Workspace σ}

/-- Every root field is compiled, whatever has been compiled before it. -/
theorem forall₂_of_compileRootFields (hw : w.Coherent d) (hs : s < w.sessions.length)
    {fields : OrderedMap String RootField} (hf : ∀ e ∈ fields, e.2.spec.Within d (w.Offers d))
    (hw₀ : w.Filled d host w₀) {compiled : FieldMap}
    (h : (compileRootFields host s fields).runIn w₀ = (.ok compiled, w₁)) :
    List.Forall₂ (RootField.CompilesTo host w s) fields compiled := by
  have hfield : ∀ e ∈ fields, Compile.Settles d host w [] _ _ := fun e he ↦
    compileField_settles hw hs e.2.owner (hf e he) (some e.2.served)
  refine (Compile.Settles.forall₂_of_runIn_mapM
    (fun e he ↦ compileRootField_settles hw hs (hf e he))
    (p := fun e e' _ ↦ RootField.CompilesTo host w s e e')
    (fun e he v b v' hv hrun ↦ ?_) (fun _ _ _ _ _ ↦ id) hw₀ h).2
  obtain ⟨f, v₁, hcompiled, hrun⟩ := Compile.runIn_bind_eq_ok hrun
  cases hrun
  exact ⟨rfl, (hfield e he).runIn_eq (.refl hw) hv ▸ congrArg Prod.fst hcompiled⟩

theorem makeRoots_root (hw : w.Coherent d) (hs : s < w.sessions.length) {fields : RootFields}
    (hf : fields.Within d (w.Offers d)) (hquery : fields.query ≠ []) (hw₀ : w.Filled d host w₀)
    {made : SchemaRoots} (h : (makeRoots host s fields).runIn w₀ = (.ok made, w₁))
    (operation : Operation) :
    fields.MadeInto host w w₁ s operation (made.root? operation) := by
  rw [makeRoots, Compile.runIn_get_bind] at h
  obtain ⟨queryMap, v, hq, h⟩ := Compile.runIn_bind_eq_ok h
  obtain ⟨mutationMap, v', hm, h⟩ := Compile.runIn_bind_eq_ok h
  have hv : w.Filled d host v := by
    have hsettles : Compile.Settles d host w [] _ _ := compileRootFields_settles hw hs hf.query
    exact hsettles.filled_of_run hw₀ hq
  have hqueried := forall₂_of_compileRootFields hw hs hf.query hw₀ hq
  have hmutated := forall₂_of_compileRootFields hw hs hf.mutation hv hm
  rw [Compile.runIn_get_bind] at h
  cases h
  generalize (w₀.session s).config = config
  have hself := v'.find_enroll_self .query (rootNode v'.nextSchema .query config.queryTypeName)
    queryMap
  cases hmutation : fields.mutation with
  | nil =>
    cases operation with
    | query => exact ⟨hquery, v'.nextSchema, _, queryMap, rfl, hself, hqueried⟩
    | mutation => exact hmutation
  | cons e rest =>
    have hne : fields.mutation ≠ [] := hmutation ▸ List.cons_ne_nil e rest
    have hfind := (v'.enroll .query (rootNode v'.nextSchema .query config.queryTypeName)
      queryMap).find_enroll .mutation (rootNode v'.nextSchema .mutation config.mutationTypeName)
      mutationMap v'.nextSchema
    have hquery' := hfind .query
    rw [if_neg (fun h ↦ by cases h.2), hself] at hquery'
    have hmutation' := hfind .mutation
    rw [if_pos ⟨rfl, rfl⟩] at hmutation'
    cases operation with
    | query => exact ⟨hquery, v'.nextSchema, _, queryMap, rfl, hquery', hqueried⟩
    | mutation => exact ⟨hne, v'.nextSchema, _, mutationMap, rfl, hmutation', hmutated⟩

/-- The root types are made of what has been gathered. -/
theorem compileRoots_root (hw : w.Sound d) (hs : s < w.sessions.length) {made : SchemaRoots}
    (h : (compileRoots host s roots).runIn w = (.ok made, w₁)) :
    ∃ fields, ((gatherRoots host s roots).runIn w).1 = .ok fields ∧
      ∀ operation, fields.MadeInto host w w₁ s operation (made.root? operation) := by
  obtain ⟨⟨state, hstate⟩, hfields⟩ := gatherRoots_spec hw.coherent s roots
  rw [compileRoots] at h
  obtain ⟨fields, w₀, hgather, h⟩ := Compile.runIn_bind_eq_ok h
  rw [hgather] at hstate hfields
  cases hstate
  refine ⟨fields, congrArg Prod.fst hgather, fun operation ↦ ?_⟩
  by_cases hempty : fields.query.isEmpty = true
  · rw [if_pos hempty] at h
    cases h
  · rw [if_neg hempty] at h
    exact makeRoots_root hw.coherent hs (hfields fields rfl) (by simpa using hempty)
      (.ofHost hw.coherent state) h operation

/-- The root types stay what they are while the schema is walked. -/
theorem compileSchema_root (hw : w.Sound d) (hs : w.isOpen s = true) {schema : Schema}
    (h : (compileSchema host s roots).runIn w = (.ok schema, w₁)) :
    ∃ fields, ((gatherRoots host s roots).runIn w).1 = .ok fields ∧
      ∀ operation, fields.MadeInto host w w₁ s operation (schema.root? operation) := by
  have hlength := Workspace.lt_length_of_isOpen hs
  rcases hmade : (compileRoots host s roots).runIn w with ⟨e | made, w₀⟩
  · rw [runIn_compileSchema_of_error hmade] at h
    cases h
  have henr := (compileRoots_spec hw hlength roots).1 made w₀ hmade
  obtain ⟨hfilled, -⟩ : w₀.Filled d host _ ∧ _ := collectTypes_spec henr.coherent henr.held
  rcases htypes : (collectTypes host made.nodes).runIn w₀ with ⟨e | types, w₂⟩
  · rw [runIn_compileSchema_of_blocked hmade htypes] at h
    cases h
  rw [runIn_compileSchema_of_types hmade htypes] at h
  rw [htypes] at hfilled
  cases h
  obtain ⟨fields, hgather, hroot⟩ := compileRoots_root hw hlength hmade
  refine ⟨fields, hgather, fun operation ↦ ?_⟩
  have hsame : (made.schema s types).root? operation = made.root? operation := by
    cases operation <;> rfl
  have hroot := hroot operation
  rw [hsame]
  cases hn : made.root? operation with
  | none =>
    rw [hn] at hroot
    exact hroot
  | some n =>
    rw [hn] at hroot
    obtain ⟨hne, serial, m, compiled, hid, hfind, hcompiled⟩ := hroot
    exact ⟨hne, serial, m, compiled, hid, hfilled.grows.roots ▸ hfind, hcompiled⟩

end Make

/-! ## Failures -/

/-- Where two root fields are in each other's way, that is why the schema is refused. -/
theorem compileSchema_of_collision
    (hroots : ∀ root ∈ roots, (w.registries s).isRoot root.key = true) {name first second : String}
    (h : (w.registries s).Collision roots name first second) :
    ∃ name first second, ((compileSchema host s roots).runIn w).1 =
      .error (.assembly (.duplicateRootField name first second)) := by
  obtain ⟨hok, herr⟩ := RootFields.gatherRoots_gathered host hroots
  rcases hgather : (gatherRoots host s roots).runIn w with ⟨e | fields, w₁⟩ <;>
    rw [hgather] at hok herr
  · obtain ⟨name, first, second, -, rfl⟩ := herr e rfl
    have hmake : (compileRoots host s roots).runIn w = (.error _, w₁) :=
      Compile.runIn_bind_of_error hgather
    exact ⟨name, first, second, congrArg Prod.fst (runIn_compileSchema_of_error hmake)⟩
  · exact absurd h ((hok fields rfl).apart name first second)

/-- Only for two root fields that are in each other's way a schema is refused with their name. -/
theorem collision_of_compileSchema (hw : w.Sound d) (hs : w.isOpen s = true)
    (hroots : ∀ root ∈ roots, (w.registries s).isRoot root.key = true) {name first second : String}
    (h : ((compileSchema host s roots).runIn w).1 =
      .error (.assembly (.duplicateRootField name first second))) :
    (w.registries s).Collision roots name first second := by
  have hlength := Workspace.lt_length_of_isOpen hs
  rcases hmade : (compileRoots host s roots).runIn w with ⟨e | made, w₁⟩
  · rw [runIn_compileSchema_of_error hmade] at h
    cases h
    obtain ⟨⟨state, hstate⟩, hfields⟩ := gatherRoots_spec hw.coherent s roots
    have herr := (RootFields.gatherRoots_gathered host hroots).2
    rw [compileRoots] at hmade
    rcases hgather : (gatherRoots host s roots).runIn w with ⟨e | fields, w₀⟩ <;>
      rw [hgather] at hstate hfields herr
    · rw [Compile.runIn_bind_of_error hgather] at hmade
      cases hmade
      obtain ⟨name', first', second', hc, heq⟩ := herr _ rfl
      cases heq
      exact hc
    · rw [Compile.runIn_bind_of_ok hgather] at hmade
      cases hstate
      split at hmade
      · cases hmade
      · obtain ⟨-, hmake⟩ : _ ∧ ∀ e w₁, (makeRoots host s fields).runIn _ = (.error e, w₁) → _ :=
          makeRoots_spec hw (.ofHost hw.coherent state) hlength (hfields fields rfl)
        exact absurd rfl ((hmake _ w₁ hmade).2 _)
  · cases compileSchema_error hw hs hmade h with
    | successors _ _ hne => exact absurd rfl (hne _)

/-! ## The root types -/

/-- The fields of a root type are those that the roots have for its operation: there is one of every
name, compiled from what the youngest class of a root's lineage declares, as a field of that
class. -/
structure FieldMap.Serves (host : Host σ) (w : Workspace σ) (s : SessionId) (roots : List ClassRef)
    (operation : Operation) (fields : FieldMap) : Prop where
  nodup : (OrderedMap.keys fields).Nodup
  names : ∀ name, name ∈ OrderedMap.keys fields ↔
    ∃ root ∈ roots, (w.registries s).Contributes root operation name
  compiled : ∀ name f, (name, f) ∈ fields → ∃ root ∈ roots, ∃ owner spec served,
    (w.registries s).Youngest name root.lineage owner spec ∧ spec.isUnder operation = true ∧
      ((compileField host s owner spec (some served)).runIn w).1 = .ok f

theorem keys_of_compilesTo {fields : OrderedMap String RootField} {compiled : FieldMap}
    (h : List.Forall₂ (RootField.CompilesTo host w s) fields compiled) :
    OrderedMap.keys compiled = OrderedMap.keys fields := by
  induction h with
  | nil => rfl
  | cons he _ ih => exact congrArg₂ List.cons he.1 ih

/-- What gathered root fields are compiled to are the fields that the roots have. -/
theorem FieldMap.Serves.of_gathered {fields : RootFields}
    (hg : fields.Gathered (w.registries s) roots) {operation : Operation} {compiled : FieldMap}
    (h : List.Forall₂ (RootField.CompilesTo host w s) (fields.of operation) compiled) :
    compiled.Serves host w s roots operation := by
  have hkeys := keys_of_compilesTo h
  refine ⟨hkeys ▸ hg.nodup operation, fun name ↦ ?_, fun name f hf ↦ ?_⟩
  · rw [hkeys]
    refine ⟨fun hname ↦ ?_, fun ⟨root, hroot, hc⟩ ↦ hg.all hroot hc⟩
    obtain ⟨e, he, rfl⟩ := List.mem_map.1 hname
    exact ⟨e.2.root, (hg.youngest operation e he).1, hg.contributes he⟩
  · obtain ⟨e, he, hname, hcompiled⟩ := exists_left_of_forall₂ h hf
    obtain ⟨hroot, hyoungest, hunder⟩ := hg.youngest operation e he
    cases hname
    exact ⟨e.2.root, hroot, e.2.owner, e.2.spec, e.2.served, hyoungest, hunder, hcompiled⟩

/-- The fields of a root are there for good: no step of a run takes them back. -/
theorem ObjectNode.runIn_fields_of_root {w₂ : Workspace σ} (hw₁ : w₁.Sound d)
    (hsteps : Relation.ReflTransGen (Step d host) w₁ w₂) {n m : ObjectNode} {serial : Nat}
    {operation : Operation} {fields : FieldMap} (hid : n.id = .root serial operation)
    (hfind : OrderedMap.find w₁.roots (serial, operation) = some (m, fields)) :
    (n.fields host).runIn w₂ = (.ok fields, w₂) := by
  have hfollows : w₁.Follows w₂ := (Workspace.follows_of_steps hsteps hw₁).2
  refine ObjectNode.runIn_fields_of_kept (.inr ⟨serial, operation, m, hid, ?_⟩)
  rw [hfollows.roots (hw₁.complete hfind), hfind]

/-- **The root types of a schema.**  In every run, for every list of classes that are registered as
roots: compiling a schema of them fails for two root fields of one name exactly if a class of one of
their lineages declares two, or two entries of the list have one for the same operation, and the
failure names such a pair.  When it succeeds, the root type of an operation is missing exactly if no
root has a field for the operation, and else its fields are, from then on, those that the roots
have. -/
theorem compileSchema_rootFields (hw : w.Reachable d host) (hs : w.isOpen s = true)
    (hroots : ∀ root ∈ roots, (w.registries s).isRoot root.key = true) :
    ((∃ name first second, ((compileSchema host s roots).runIn w).1 =
          .error (.assembly (.duplicateRootField name first second))) ↔
        ∃ name first second, (w.registries s).Collision roots name first second) ∧
      (∀ name first second, ((compileSchema host s roots).runIn w).1 =
          .error (.assembly (.duplicateRootField name first second)) →
        (w.registries s).Collision roots name first second) ∧
      ∀ schema w₁, (compileSchema host s roots).runIn w = (.ok schema, w₁) → ∀ operation,
        (schema.root? operation = none ↔
          ∀ root ∈ roots, ∀ name, ¬ (w.registries s).Contributes root operation name) ∧
        ∀ n, schema.root? operation = some n → ∃ fields : FieldMap,
          fields.Serves host w s roots operation ∧
          ∀ w₂, Relation.ReflTransGen (Step d host) w₁ w₂ →
            (n.fields host).runIn w₂ = (.ok fields, w₂) := by
  have hsound := hw.sound
  refine ⟨⟨fun ⟨name, first, second, h⟩ ↦ ⟨name, first, second, ?_⟩,
    fun ⟨_, _, _, h⟩ ↦ compileSchema_of_collision hroots h⟩, fun name first second h ↦ ?_,
    fun schema w₁ h operation ↦ ?_⟩
  · exact collision_of_compileSchema hsound hs hroots h
  · exact collision_of_compileSchema hsound hs hroots h
  obtain ⟨fields, hgather, hmade⟩ := compileSchema_root hsound hs h
  have hgathered := (RootFields.gatherRoots_gathered host hroots).1 fields hgather
  have hmade := hmade operation
  cases hroot : schema.root? operation with
  | none =>
    rw [hroot] at hmade
    have hnone : fields.of operation = [] := hmade
    refine ⟨⟨fun _ root hroot name hc ↦ ?_, fun _ ↦ rfl⟩, nofun⟩
    have hname := hgathered.all hroot hc
    rw [hnone] at hname
    exact List.not_mem_nil hname
  | some n =>
    rw [hroot] at hmade
    obtain ⟨hne, serial, m, compiled, hid, hfind, hcompiled⟩ := hmade
    refine ⟨⟨nofun, fun hnone ↦ ?_⟩, fun n' hn ↦ ?_⟩
    · obtain ⟨e, he⟩ := List.exists_mem_of_ne_nil _ hne
      exact absurd (hgathered.contributes he) (hnone _ (hgathered.youngest operation e he).1 _)
    · cases hn
      have hw₁ := hsound.of_compileSchema hs h
      exact ⟨compiled, .of_gathered hgathered hcompiled, fun w₂ hsteps ↦
        ObjectNode.runIn_fields_of_root hw₁ hsteps hid hfind⟩

/-! ### An instance -/

namespace Greetings

/-- A class with a query. -/
def base : ClassRef := .base ⟨1⟩ "Base"

/-- A class that inherits from it. -/
def root : ClassRef := .derived ⟨2⟩ "Root" base

/-- The two classes. -/
def declared : Declarations := .ofClasses [base, root] (by decide)

/-- A greeting. -/
def hello : FieldSpec where
  property := "hello"
  type := some (.scalar .string)
  method := some ⟨0⟩

/-- A session in which both classes declare the greeting, the younger for both operations. -/
def workspace : Workspace Unit :=
  ((((Workspace.openSession { host := () } {}).2.modifyRegistries 0
    (·.schemaRoot root {})).modifyRegistries 0
    (Registries.rootField base hello .query).apply).modifyRegistries 0
    (Registries.rootField root hello .query).apply).modifyRegistries 0
    (Registries.rootField root hello .mutation).apply

theorem reachable : workspace.Reachable declared .idle := by
  have hhello : ∀ offered, hello.Within declared offered := by
    refine fun _ ↦ ⟨fun t ht ↦ ?_, nofun, nofun⟩
    cases ht
    exact .scalar .string
  have hroot : Reachable declared .idle _ :=
    (Reachable.opened () {}).registered (s := 0) rfl (.schemaRoot root {})
  exact ((hroot.registered (s := 0) rfl (.rootField base .query (hhello _))).registered (s := 0)
    rfl (.rootField root .query (hhello _))).registered (s := 0) rfl
    (.rootField root .mutation (hhello _))

end Greetings

open Greetings in
/-- The greeting of the younger class is there for both operations; two entries of that class are in
each other's way. -/
theorem compileSchema_rootFields_greetings :
    workspace.Reachable declared .idle ∧ workspace.isOpen 0 = true ∧
      (workspace.registries 0).isRoot root.key = true ∧
      (∃ schema w₁ n fields, (compileSchema .idle 0 [root]).runIn workspace = (.ok schema, w₁) ∧
        schema.root? .mutation = some n ∧
        FieldMap.Serves .idle workspace 0 [root] .mutation fields ∧
        (n.fields .idle).runIn w₁ = (.ok fields, w₁) ∧ OrderedMap.keys fields = ["hello"]) ∧
      (workspace.registries 0).Collision [root, root] "hello" "Root" "Root" := by
  have hroots : ∀ c ∈ [root], (workspace.registries 0).isRoot c.key = true := by decide
  have htwice : ∀ c ∈ [root, root], (workspace.registries 0).isRoot c.key = true := by decide
  refine ⟨reachable, rfl, by decide, ?_, ?_⟩
  · have hnames : ((do
        match (← compileSchema .idle 0 [root]).mutation with
        | some n => n.fields .idle
        | none => return []).runIn workspace).1.toOption.map OrderedMap.keys =
          some ["hello"] := by cbv
    rcases hrun : (compileSchema .idle 0 [root]).runIn workspace with ⟨e | schema, w₁⟩
    · rw [Compile.runIn_bind_of_error hrun] at hnames
      cases hnames
    · rw [Compile.runIn_bind_of_ok hrun] at hnames
      obtain ⟨-, -, hok⟩ := compileSchema_rootFields reachable (s := 0) rfl hroots
      cases hmutation : schema.mutation with
      | none =>
        rw [hmutation] at hnames
        cases hnames
      | some n =>
        obtain ⟨fields, hserves, hfields⟩ := (hok schema w₁ hrun .mutation).2 n hmutation
        have hkept := hfields w₁ .refl
        simp only [hmutation, hkept] at hnames
        exact ⟨schema, w₁, n, fields, rfl, hmutation, hserves, hkept, Option.some.inj hnames⟩
  · exact (compileSchema_rootFields reachable (s := 0) rfl htwice).2.1 _ _ _ (by cbv)

end ApiGraph
