import ApiGraph.Proofs.Schema.Lowering
import Mathlib

/-!
# Complete schemas

A compiled schema has every type that its roots reach, each once, and no other.  The executable that
is built of it, whenever that is, has these types and no others, so it has every type that one of
them mentions.  And it is only for two types of one name that a schema is refused, once the fields
and the implementors of all its types can be told.

## What is here

* `Schema.Complete` and `Executable.Complete`: these properties.
* `Workspace.Clash`: two types of one name.
* `compileSchema_ok` and `compileSchema_error`: what the walk has found when it ends.
* `compileSchema_complete`: all of it.
-/

set_option autoImplicit false

namespace ApiGraph

open Workspace (Reachable Step)

variable {σ : Type} {d : Declarations} {host : Host σ} {w w' w₁ : Workspace σ} {s : SessionId}
  {roots : List ClassRef}

/-- The nodes of the roots of a schema. -/
def Schema.rootNodes (schema : Schema) : List GraphNode :=
  .object schema.query :: (schema.mutation.map GraphNode.object).toList

/-- A schema has every type that its roots reach and no other, each once, and no two of one name. -/
structure Schema.Complete (host : Host σ) (w : Workspace σ) (schema : Schema) : Prop where
  reached : ∀ n, n ∈ schema.types ↔ w.Reaches host schema.rootNodes n
  ids : (schema.types.map GraphNode.id).Nodup
  names : (schema.types.map GraphNode.name).Nodup

/-- An executable is complete for a schema.  It has exactly what the types of the schema become, in
order, but for the scalars that the engine has already; and no type that one of them mentions is
missing, except for the engine's own. -/
structure Executable.Complete (host : Host σ) (w : Workspace σ) (schema : Schema)
    (x : Executable) : Prop where
  types : List.Forall₂ (GraphNode.Becomes host w) (schema.types.filter fun n ↦ !n.isBuiltin) x.types
  mentions : ∀ t ∈ x.types, ∀ name ∈ t.mentions,
    name ∈ x.types.map EngineType.name ∨ name ∈ engineScalars

/-- Two types of one name are reached from some nodes. -/
def Workspace.Clash (host : Host σ) (w : Workspace σ) (start : List GraphNode) (name : String) :
    Prop :=
  ∃ a b, w.Reaches host start a ∧ w.Reaches host start b ∧ a.id ≠ b.id ∧ a.name = name ∧
    b.name = name

/-! ## What the walk has found -/

/-- What compiled types lead to is what they led to when the walk began. -/
theorem GraphNode.Kept.leads_iff {w₂ : Workspace σ} (hw₁ : w₁.Coherent d)
    (hw₂ : w₁.Filled d host w₂) (hw' : w'.Coherent d) (hr : w₂.Retains w') {n : GraphNode}
    (hn : w₂.Holds d n) (hn' : w'.Holds d n) (hk : n.Kept w₂) {m : GraphNode} :
    w₁.Leads host n m ↔ w'.Leads host n m := by
  obtain ⟨ms, hms⟩ : ∃ ms, ∀ w, w₂.Retains w → (n.successors host).runIn w = (.ok ms, w) :=
    hk.runIn_successors
  have hsettles := GraphNode.successors_settles hw₁ hw₂ hn
  have hms₁ : ((n.successors host).runIn w₁).1 = .ok ms := by
    rw [← hsettles.runIn_eq (.refl hw₁) hw₂, hms w₂ (.refl w₂)]
  have hms' : ((n.successors host).runIn w').1 = .ok ms := by rw [hms w' hr]
  exact (GraphNode.mem_successors_iff hw₁ hw₂ hn hms₁).symm.trans
    (GraphNode.mem_successors_iff hw' (.refl hw') hn' hms')

/-- What has been found when a schema is complete. -/
theorem compileSchema_ok (hw : w.Sound d) (hs : w.isOpen s = true) {schema : Schema}
    (h : (compileSchema host s roots).runIn w = (.ok schema, w')) :
    ∃ made w₁, (compileRoots host s roots).runIn w = (.ok made, w₁) ∧
      schema.rootNodes = made.nodes ∧ (∀ n, n ∈ schema.types ↔ w₁.Reaches host made.nodes n) ∧
      (schema.types.map GraphNode.name).Nodup ∧
      ∀ n ∈ schema.types, w'.Holds d n ∧ n.Kept w' ∧
        ∀ m, w₁.Leads host n m ↔ w'.Leads host n m := by
  have hw' : w'.Sound d := hw.of_compileSchema hs h
  rcases hroots : (compileRoots host s roots).runIn w with ⟨e | made, w₁⟩
  · rw [runIn_compileSchema_of_error hroots] at h
    cases h
  have henr := (compileRoots_spec hw (Workspace.lt_length_of_isOpen hs) roots).1 made w₁ hroots
  obtain ⟨hfilled, hspec, -⟩ : w₁.Filled d host _ ∧ _ ∧ _ :=
    collectTypes_spec henr.coherent henr.held
  rcases htypes : (collectTypes host made.nodes).runIn w₁ with ⟨e | types, w₂⟩
  · rw [runIn_compileSchema_of_blocked hroots htypes] at h
    cases h
  rw [runIn_compileSchema_of_types hroots htypes] at h
  rw [htypes] at hfilled hspec
  cases h
  obtain ⟨hreached, hnames, hheld⟩ := hspec types rfl
  refine ⟨made, w₁, rfl, rfl, hreached, hnames, fun n hn ↦ ?_⟩
  obtain ⟨hn₂, hk⟩ := hheld n hn
  have hr := w₂.retains_publish s made.serial
  have hn' : (w₂.publish s made.serial).Holds d n := hn₂.transfer hr
  exact ⟨hn', hk.transfer hr, fun m ↦
    hk.leads_iff henr.coherent hfilled hw'.coherent hr hn₂ hn'⟩

/-- The reason for which a schema is refused whose roots have been made. -/
theorem compileSchema_error (hw : w.Sound d) (hs : w.isOpen s = true) {made : SchemaRoots}
    (hroots : (compileRoots host s roots).runIn w = (.ok made, w₁)) {e : CompileError}
    (h : ((compileSchema host s roots).runIn w).1 = .error e) :
    w₁.Blocked host made.nodes e := by
  have henr := (compileRoots_spec hw (Workspace.lt_length_of_isOpen hs) roots).1 made w₁ hroots
  obtain ⟨-, -, hspec⟩ : w₁.Filled d host _ ∧ _ ∧ _ :=
    collectTypes_spec henr.coherent henr.held
  rcases htypes : (collectTypes host made.nodes).runIn w₁ with ⟨e' | types, w₂⟩
  · rw [runIn_compileSchema_of_blocked hroots htypes] at h
    cases h
    exact hspec e (congrArg Prod.fst htypes)
  · rw [runIn_compileSchema_of_types hroots htypes] at h
    cases h

/-! ## Completeness -/

theorem Schema.Complete.of_ok (hw : w.Sound d) (hs : w.isOpen s = true) {schema : Schema}
    (h : (compileSchema host s roots).runIn w = (.ok schema, w')) : schema.Complete host w' := by
  obtain ⟨made, w₁, -, hnodes, hreached, hnames, htypes⟩ := compileSchema_ok hw hs h
  have hnodup : schema.types.Pairwise fun a b ↦ a.name ≠ b.name := List.pairwise_map.1 hnames
  have hw' : w'.Sound d := hw.of_compileSchema hs h
  refine ⟨fun n ↦ ?_, ?_, hnames⟩
  · -- the way to a node goes through nodes of the schema only, and these lead where they led
    rw [hreached, hnodes]
    exact Workspace.reaches_iff_of_leads fun b hb ↦ (htypes b ((hreached b).2 hb)).2.2
  · refine List.pairwise_map.2 (hnodup.imp_of_mem fun ha hb hne hid ↦ hne ?_)
    rw [hw'.coherent.eq_of_id_eq (htypes _ ha).1 (htypes _ hb).1 hid]

/-- The types of a complete schema are at hand, so they can be lowered. -/
theorem exists_lowered (hw : w.Sound d) (hs : w.isOpen s = true) {schema : Schema}
    (h : (compileSchema host s roots).runIn w = (.ok schema, w')) :
    ∃ types, (schema.types.mapM (GraphNode.lower host)).runIn w' = (.ok types, w') := by
  obtain ⟨_, _, _, _, _, _, htypes⟩ := compileSchema_ok hw hs h
  have hlower : ∀ l : List GraphNode, (∀ n ∈ l, n.Kept w') → ∃ types,
      List.Forall₂ (fun n t ↦ (n.lower host).runIn w' = (.ok t, w')) l types := by
    intro l
    induction l with
    | nil => exact fun _ ↦ ⟨[], .nil⟩
    | cons n rest ih =>
      intro hk
      obtain ⟨t, ht⟩ : ∃ t, (n.lower host).runIn w' = (.ok t, w') :=
        (hk n List.mem_cons_self).runIn_lower
      obtain ⟨types, htypes⟩ := ih fun m hm ↦ hk m (List.mem_cons_of_mem _ hm)
      exact ⟨t :: types, .cons ht htypes⟩
  obtain ⟨types, hl⟩ := hlower schema.types fun n hn ↦ (htypes n hn).2.1
  exact ⟨types, Compile.runIn_mapM_of_forall₂ hl⟩

/-- What is built of a schema is lowered from its types, as they were when it was compiled. -/
theorem forall₂_lower_of_executable (hw : w.Sound d) (hs : w.isOpen s = true) {schema : Schema}
    (h : (compileSchema host s roots).runIn w = (.ok schema, w')) {w₂ w₃ : Workspace σ}
    (hsteps : Relation.ReflTransGen (Step d host) w' w₂) {verdict : EngineVerdict} {x : Executable}
    (hx : (schema.executable verdict host).runIn w₂ = (.ok x, w₃)) :
    ∃ lowered, x.types = lowered.filterMap id ∧
      List.Forall₂ (fun n o ↦ (n.lower host).runIn w' = (.ok o, w')) schema.types lowered := by
  obtain ⟨_, _, _, _, _, _, htypes⟩ := compileSchema_ok hw hs h
  have hw' : w'.Sound d := hw.of_compileSchema hs h
  obtain ⟨hw₂, hf⟩ := Workspace.follows_of_steps hsteps hw'
  have hsettles : ∀ n ∈ schema.types, Compile.Settles d host w₂ [] (n.lower host) fun _ ↦ [] :=
    fun n hn ↦ Workspace.lower_settles hw₂.coherent ((htypes n hn).1.of_follows hw' hf)
  rw [Workspace.runIn_executable] at hx
  rcases hrun : (schema.types.mapM (GraphNode.lower host)).runIn w₂ with ⟨e | lowered, w₄⟩ <;>
    rw [hrun] at hx
  · cases hx
  obtain ⟨-, hlowered⟩ := Compile.Settles.forall₂_of_runIn_mapM hsettles
    (p := fun n o _ ↦ ((n.lower host).runIn w₂).1 = .ok o)
    (fun n hn w o w' hw ho ↦ (hsettles n hn).runIn_eq (.refl hw₂.coherent) hw ▸
      congrArg Prod.fst ho) (fun _ _ _ _ _ ↦ id) (.refl hw₂.coherent) hrun
  refine ⟨lowered, ?_, ?_⟩
  · dsimp only at hx
    split at hx <;> cases hx
    rfl
  · refine List.forall₂_iff_get.2 ⟨hlowered.length_eq, fun k hk hk' ↦ ?_⟩
    obtain ⟨hn, hkept, -⟩ := htypes _ (List.get_mem schema.types ⟨k, hk⟩)
    exact hkept.lower_of_follows hw' hf hn ((List.forall₂_iff_get.1 hlowered).2 k hk hk')

/-- What is built of a schema, whenever that is, is complete. -/
theorem Executable.Complete.of_steps (hw : w.Sound d) (hs : w.isOpen s = true) {schema : Schema}
    (h : (compileSchema host s roots).runIn w = (.ok schema, w')) {w₂ w₃ : Workspace σ}
    (hsteps : Relation.ReflTransGen (Step d host) w' w₂) {verdict : EngineVerdict} {x : Executable}
    (hx : (schema.executable verdict host).runIn w₂ = (.ok x, w₃)) :
    x.Complete host w' schema := by
  obtain ⟨lowered, hxtypes, hlowered⟩ := forall₂_lower_of_executable hw hs h hsteps hx
  obtain ⟨_, _, _, _, _, _, htypes⟩ := compileSchema_ok hw hs h
  have hreached := (Schema.Complete.of_ok hw hs h).reached
  have hbecome : List.Forall₂ (GraphNode.Becomes host w')
      (schema.types.filter fun n ↦ !n.isBuiltin) x.types := by
    rw [hxtypes]
    refine forall₂_filter_filterMap hlowered (fun n o ho hn ↦ ?_) fun n o ho hn ↦ ?_
    · have hspec := GraphNode.becomes_of_lower (congrArg Prod.fst ho)
      cases o with
      | none => rfl
      | some t => simp [hspec.1] at hn
    · have hspec := GraphNode.becomes_of_lower (congrArg Prod.fst ho)
      cases o with
      | none => simp [show n.isBuiltin = true from hspec] at hn
      | some t => exact ⟨t, rfl, hspec.2⟩
  refine ⟨hbecome, fun t ht name hname ↦ ?_⟩
  obtain ⟨n, hn, hnt⟩ := exists_left_of_forall₂ hbecome ht
  obtain ⟨m, hlead, rfl⟩ := hnt.leads hname
  have hm : m ∈ schema.types :=
    (hreached m).2 (((hreached n).1 (List.mem_of_mem_filter hn)).tail hlead)
  cases hbuiltin : m.isBuiltin with
  | true => exact .inr (GraphNode.engineScalar_of_isBuiltin (htypes m hm).1 hbuiltin)
  | false =>
    have hmem : m ∈ schema.types.filter fun n ↦ !n.isBuiltin :=
      List.mem_filter.2 ⟨hm, by rw [hbuiltin]; rfl⟩
    obtain ⟨u, hu, hmu⟩ := exists_right_of_forall₂ hbecome hmem
    exact .inl (List.mem_map.2 ⟨u, hu, by rw [EngineType.name, hmu.node_eq]⟩)

/-! ## Refusal -/

/-- A schema whose types can all be told is refused exactly for two types of one name. -/
theorem compileSchema_error_iff (hw : w.Sound d) (hs : w.isOpen s = true) {made : SchemaRoots}
    (hroots : (compileRoots host s roots).runIn w = (.ok made, w₁))
    (hall : ∀ n, w₁.Reaches host made.nodes n →
      ∃ ms, ((n.successors host).runIn w₁).1 = .ok ms) :
    ((∃ e, ((compileSchema host s roots).runIn w).1 = .error e) ↔
        ∃ name, w₁.Clash host made.nodes name) ∧
      ∀ e, ((compileSchema host s roots).runIn w).1 = .error e →
        ∃ name, w₁.Clash host made.nodes name ∧ e = .assembly (.duplicateTypeName name) := by
  have hclash : ∀ e, ((compileSchema host s roots).runIn w).1 = .error e →
      ∃ name, w₁.Clash host made.nodes name ∧ e = .assembly (.duplicateTypeName name) := by
    intro e he
    cases compileSchema_error hw hs hroots he with
    | @clash a b ha hb hname hid => exact ⟨b.name, ⟨a, b, ha, hb, hid, hname, rfl⟩, rfl⟩
    | successors hn he' =>
      obtain ⟨ms, hms⟩ := hall _ hn
      cases he'.symm.trans hms
  refine ⟨⟨fun ⟨e, he⟩ ↦ (hclash e he).imp fun _ ↦ And.left, ?_⟩, hclash⟩
  rintro ⟨name, a, b, ha, hb, hid, hna, hnb⟩
  cases hrun : ((compileSchema host s roots).runIn w).1 with
  | error e => exact ⟨e, rfl⟩
  | ok schema =>
    -- both would be types of the schema, which has no two of one name
    obtain ⟨made', w', hroots', -, hreached, hnames, -⟩ :=
      compileSchema_ok hw hs (Prod.ext hrun rfl)
    cases hroots.symm.trans hroots'
    have heq := List.inj_on_of_nodup_map hnames ((hreached a).2 ha) ((hreached b).2 hb)
      (hna.trans hnb.symm)
    exact absurd (congrArg GraphNode.id heq) hid

/-- The walk never runs out of the visits that it is given. -/
theorem compileSchema_ne_unbounded (hw : w.Sound d) (hs : w.isOpen s = true) :
    ((compileSchema host s roots).runIn w).1 ≠ .error (.assembly .unboundedGraph) := by
  intro h
  rcases hroots : (compileRoots host s roots).runIn w with ⟨e | made, w₁⟩
  · have hne := (compileRoots_spec hw (Workspace.lt_length_of_isOpen hs) roots).2 e w₁ hroots
    rw [runIn_compileSchema_of_error hroots] at h
    exact hne.2 (Except.error.inj h)
  · exact (compileSchema_error hw hs hroots h).ne_unbounded rfl

/-- **Compiled schemas are complete.**  In every session of every run, a schema that is compiled has
exactly the types that its roots reach, each once and no two of one name; these can be lowered then
and there.  An executable that is built of it at any later time, whatever the engine checks, has
exactly what these types are lowered to, and so all types that one of them mentions.  The walk that
finds them always ends; and when it can tell the fields and the implementors of all that it meets,
it fails exactly if it meets two types of one name, for that reason. -/
theorem compileSchema_complete (hw : w.Reachable d host) (hs : w.isOpen s = true)
    (roots : List ClassRef) :
    (∀ schema w₁, (compileSchema host s roots).runIn w = (.ok schema, w₁) →
      schema.Complete host w₁ ∧
      (∃ types, (schema.types.mapM (GraphNode.lower host)).runIn w₁ = (.ok types, w₁)) ∧
      ∀ w₂, Relation.ReflTransGen (Step d host) w₁ w₂ → ∀ verdict x w₃,
        (schema.executable verdict host).runIn w₂ = (.ok x, w₃) → x.Complete host w₁ schema) ∧
    (∀ made w₁, (compileRoots host s roots).runIn w = (.ok made, w₁) →
      (∀ n, w₁.Reaches host made.nodes n → ∃ ms, ((n.successors host).runIn w₁).1 = .ok ms) →
        ((∃ e, ((compileSchema host s roots).runIn w).1 = .error e) ↔
          ∃ name, w₁.Clash host made.nodes name) ∧
        ∀ e, ((compileSchema host s roots).runIn w).1 = .error e →
          ∃ name, w₁.Clash host made.nodes name ∧ e = .assembly (.duplicateTypeName name)) ∧
    ((compileSchema host s roots).runIn w).1 ≠ .error (.assembly .unboundedGraph) := by
  have hsound := hw.sound
  refine ⟨fun schema w₁ h ↦ ⟨.of_ok hsound hs h, exists_lowered hsound hs h, ?_⟩, ?_, ?_⟩
  · exact fun w₂ hsteps verdict x w₃ hx ↦ .of_steps hsound hs h hsteps hx
  · exact fun made w₁ hroots hall ↦ compileSchema_error_iff hsound hs hroots hall
  · exact compileSchema_ne_unbounded hsound hs

/-! ### An instance -/

namespace Friends

/-- The root of the query type. -/
def root : ClassRef := .base ⟨1⟩ "Root"

/-- A type that refers to itself. -/
def person : ClassRef := .base ⟨2⟩ "Person"

/-- The two classes. -/
def declared : Declarations := .ofClasses [root, person] (by decide)

/-- A person's friend, whose type is deferred. -/
def friend : FieldSpec where
  property := "friend"
  type := some (.thunk none (.cls person))

/-- The person that a query finds. -/
def me : FieldSpec where
  property := "me"
  type := some (.cls person)
  method := some ⟨0⟩

/-- A session in which the two classes and their fields are registered. -/
def workspace : Workspace Unit :=
  ((((Workspace.openSession { host := () } {}).2.modifyRegistries 0
    (·.schemaRoot root {})).modifyRegistries 0
    (·.objectType person {})).modifyRegistries 0
    (Registries.field person friend).apply).modifyRegistries 0
    (Registries.rootField root me .query).apply

theorem reachable : workspace.Reachable declared .idle := by
  have hperson : declared.classes person := List.mem_cons_of_mem _ List.mem_cons_self
  have hobject : ∀ offered, Registries.Change declared offered (·.objectType person {}) :=
    fun _ ↦ .objectType hperson nofun
  have hfriend : ∀ offered, friend.Within declared offered := by
    refine fun _ ↦ ⟨fun t ht ↦ ?_, nofun, nofun⟩
    cases ht
    exact .thunk (.cls hperson)
  have hme : ∀ offered, me.Within declared offered := by
    refine fun _ ↦ ⟨fun t ht ↦ ?_, nofun, nofun⟩
    cases ht
    exact .cls hperson
  have hroot : Reachable declared .idle _ :=
    (Reachable.opened () {}).registered (s := 0) rfl (.schemaRoot root {})
  exact ((hroot.registered (s := 0) rfl (hobject _)).registered (s := 0) rfl
    (.field person (hfriend _))).registered (s := 0) rfl (.rootField root .query (hme _))

end Friends

open Friends in
/-- The schema of two classes, one of which refers to itself, is complete, and so is the executable
that is built of it. -/
theorem compileSchema_complete_friends :
    workspace.Reachable declared .idle ∧ workspace.isOpen 0 = true ∧
      ∃ schema w₁ x w₂, (compileSchema .idle 0 [root]).runIn workspace = (.ok schema, w₁) ∧
        (schema.executable Executable.verdict .idle).runIn w₁ = (.ok x, w₂) ∧
        schema.Complete .idle w₁ ∧ schema.types.map GraphNode.name = ["Query", "Person"] ∧
        x.Complete .idle w₁ schema ∧
        x.types.map (fun t ↦ (t.name, t.mentions)) =
          [("Query", ["Person"]), ("Person", ["Person"])] := by
  have hcomplete := compileSchema_complete reachable (s := 0) rfl [root]
  have hnames : ((compileSchema .idle 0 [root]).runIn workspace).1.toOption.map
      (fun schema ↦ schema.types.map GraphNode.name) = some ["Query", "Person"] := by cbv
  have hbuilt : ((compileSchema .idle 0 [root] >>= Schema.executable Executable.verdict .idle).runIn
      workspace).1.toOption.map (fun x ↦ x.types.map fun t ↦ (t.name, t.mentions)) =
        some [("Query", ["Person"]), ("Person", ["Person"])] := by cbv
  refine ⟨reachable, rfl, ?_⟩
  rcases hrun : (compileSchema .idle 0 [root]).runIn workspace with ⟨e | schema, w₁⟩ <;>
    rw [hrun] at hnames
  · cases hnames
  rw [Compile.runIn_bind_of_ok hrun] at hbuilt
  rcases hx : (schema.executable Executable.verdict .idle).runIn w₁ with ⟨e | x, w₂⟩ <;>
    rw [hx] at hbuilt
  · cases hbuilt
  obtain ⟨hschema, -, hexecutable⟩ := hcomplete.1 schema w₁ hrun
  exact ⟨schema, w₁, x, w₂, rfl, hx, hschema, Option.some.inj hnames,
    hexecutable w₁ .refl Executable.verdict x w₂ hx, Option.some.inj hbuilt⟩

end ApiGraph
