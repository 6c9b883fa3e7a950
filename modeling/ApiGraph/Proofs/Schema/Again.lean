import ApiGraph.Proofs.Schema.Renumber

/-!
# A schema does not age

Compiling a schema in a workspace that has been asked for all kinds of things comes to what it comes
to in the untouched workspace: to the same error, or to the same schema under another serial number.

## What is here

* `Host.Steady`: a program whose constructors give the same instance whenever they are called.
* `SchemaRoots.renumber` and `Schema.renumber`.
* `GraphNode.Agrees`: the fields and the implementors of two nodes are the same.
* `compileRoots_renumber` and `compileSchema_renumber`: the second schema is the first renumbered.
-/

set_option autoImplicit false

namespace ApiGraph

open Compile (Parallel Respects Settles)
open OrderedMap (find)

variable {σ : Type} {d : Declarations} {host : Host σ} {w₀ w v : Workspace σ} {s : SessionId}

/-- A program whose constructors give the same instance whenever they are called. -/
def Host.Steady (host : Host σ) : Prop :=
  ∀ id, ∃ served, ∀ state, (host.construct id state).1 = served

/-- The root types of a schema under another serial number. -/
def SchemaRoots.renumber (k' : Nat) (r : SchemaRoots) : SchemaRoots where
  serial := k'
  query := r.query.renumber r.serial k'
  mutation := r.mutation.map (·.renumber r.serial k')
  config := r.config

/-- A schema under another serial number. -/
def Schema.renumber (k' : Nat) (schema : Schema) : Schema where
  serial := k'
  session := schema.session
  query := schema.query.renumber schema.serial k'
  mutation := schema.mutation.map (·.renumber schema.serial k')
  types := schema.types.map (·.renumber schema.serial k')
  config := schema.config

/-! ## Root fields -/

/-- The root fields of a list of classes depend on nothing but the registries of the session. -/
theorem gatherRoots_respects (hhost : host.Steady) (s : SessionId) (roots : List ClassRef) :
    Respects (fun w v : Workspace σ ↦ v.registries s = w.registries s)
      (gatherRoots host s roots) := by
  refine .foldlM (fun fields root ↦ .get (fun h ↦ by rw [h]) fun w ↦ ?_) _ _
  dsimp only
  split
  · exact .throw _
  · refine Respects.bind ?_ fun served ↦ (Respects.mk_pure _).bind fun own ↦ .mk_pure _
    rw [makeRoot]
    split
    · exact .ofHost (hhost _) fun h ↦ h
    · exact .pure _

variable (hw₀ : w₀.Sound d)
include hw₀

theorem gatherRoots_parallel (hhost : host.Steady) (hw : w₀.Aged d host w)
    (hv : w₀.Aged d host v) (hcw : w.Coherent d) (hcv : v.Coherent d) (roots : List ClassRef) :
    Parallel d host w₀ w v id
      (fun fields w' v' ↦ w'.bare = w.bare ∧ v'.bare = v.bare ∧
        fields.Within d (w₀.Offers d))
      (gatherRoots host s roots) (gatherRoots host s roots) := by
  have hout {w : Workspace σ} (hw : w₀.Aged d host w) :
      ((gatherRoots host s roots).runIn w).1 = ((gatherRoots host s roots).runIn w₀).1 :=
    (gatherRoots_respects hhost s roots w₀ w (hw.kin.registries s)).1
  have hkept {u : Workspace σ} (hu : u.Coherent d) :
      ∃ state, ((gatherRoots host s roots).runIn u).2 = { u with host := state } :=
    (gatherRoots_spec hu s roots).1
  obtain ⟨state, hstate⟩ := hkept hcw
  obtain ⟨state', hstate'⟩ := hkept hcv
  refine ⟨?_, hstate ▸ hw.ofHost state, hstate' ▸ hv.ofHost state', fun fields h ↦ ?_⟩
  · rw [hout hv, hout hw]
    cases ((gatherRoots host s roots).runIn w₀).1 <;> rfl
  · rw [hstate, hstate']
    exact ⟨rfl, rfl, (gatherRoots_spec hw₀.coherent s roots).2 fields (hout hw ▸ h)⟩

/-! ## Root types -/

omit hw₀ in
theorem Workspace.Aged.enroll (hw : w₀.Aged d host w) (operation : Operation) (n : ObjectNode)
    (fields : FieldMap) : w₀.Aged d host (w.enroll operation n fields) := by
  refine hw.of_same { hw.kin with roots := fun hs ↦ ?_ } fun _ ↦ rfl
  rw [w.find_enroll_of_lt operation n fields _ (Nat.lt_of_lt_of_le hs hw.kin.nextSchema)]
  exact hw.kin.roots hs

omit hw₀ in
/-- Enrolling a mutation type leaves the query type. -/
theorem Workspace.find_query_of_enroll (w : Workspace σ) (n m : ObjectNode)
    (fields fields' : FieldMap) :
    find ((w.enroll .query n fields).enroll .mutation m fields').roots (w.nextSchema, .query) =
      some (n, fields) := by
  rw [find_enroll, if_neg fun he ↦ nomatch he.2]
  exact w.find_enroll_self ..

theorem compileRootFields_parallel (hs : s < w₀.sessions.length) (hw : w₀.Aged d host w)
    (hv : w₀.Aged d host v) {fields : OrderedMap String RootField}
    (hf : ∀ e ∈ fields, e.2.spec.Within d (w₀.Offers d)) :
    Parallel d host w₀ w v id
      (fun fields w' v' ↦ w'.bare = w.bare ∧ v'.bare = v.bare ∧
        ∀ n ∈ FieldMap.nodes fields, w₀.Attains d host n)
      (compileRootFields host s fields) (compileRootFields host s fields) := by
  have hsettles : Settles d host w₀ [] _ _ := compileRootFields_settles hw₀.coherent hs hf
  exact hsettles.parallel hw₀.coherent (.refl hw₀.coherent) (List.forall_mem_nil _) hw hv
    (compileRootFields_respects (hw.kin.congruence s).concord host fields)
    (compileRootFields_respects (hv.kin.congruence s).concord host fields)

/-- The root types are made of the same fields, each under the serial number of its workspace. -/
theorem makeRoots_renumber (hs : s < w₀.sessions.length) (hw : w₀.Aged d host w)
    (hv : w₀.Aged d host v) (hnext : w.nextSchema = w₀.nextSchema) {fields : RootFields}
    (hf : fields.Within d (w₀.Offers d)) :
    Parallel d host w₀ w v (SchemaRoots.renumber v.nextSchema)
      (fun made w' v' ↦ ∀ n ∈ made.nodes,
        Counterpart d host w₀ w'.roots v'.roots v.nextSchema n)
      (makeRoots host s fields) (makeRoots host s fields) := by
  refine .get (.bind (compileRootFields_parallel hw₀ hs hw hv hf.query)
    fun queryMap w₁ v₁ _ _ hw₁ hv₁ ⟨hbw, hbv, hquery⟩ ↦ ?_)
  refine .bind (compileRootFields_parallel hw₀ hs hw₁ hv₁ hf.mutation)
    fun mutationMap w₂ v₂ _ _ hw₂ hv₂ ⟨hbw', hbv', hmutation⟩ ↦ ?_
  have hserial : w₂.nextSchema = w₀.nextSchema :=
    (Workspace.nextSchema_of_bare (hbw'.trans hbw)).trans hnext
  have hserial' : v₂.nextSchema = v.nextSchema := Workspace.nextSchema_of_bare (hbv'.trans hbv)
  have hconfig : (v.session s).config = (w.session s).config :=
    (hv.kin.config s).trans (hw.kin.config s).symm
  refine .get ?_
  simp only [hserial, hserial', hconfig, id]
  have hleft := hw₂.enroll .query
    (rootNode w₀.nextSchema .query (w.session s).config.queryTypeName) queryMap
  have hright := hv₂.enroll .query
    (rootNode v.nextSchema .query (w.session s).config.queryTypeName) queryMap
  by_cases hempty : fields.mutation.isEmpty = true
  · simp only [if_pos hempty, Option.elim_none]
    refine .of_ok rfl ?_ hleft hright fun n hn ↦ ?_
    · simp only [SchemaRoots.renumber, renumber_rootNode, Option.map_none]
      rfl
    · cases List.mem_singleton.1 hn
      exact .root (hserial ▸ w₂.find_enroll_self ..) (hserial' ▸ v₂.find_enroll_self ..) hquery
  · simp only [if_neg hempty, Option.elim_some]
    have hleft := hleft.enroll .mutation
      (rootNode w₀.nextSchema .mutation (w.session s).config.mutationTypeName) mutationMap
    have hright := hright.enroll .mutation
      (rootNode v.nextSchema .mutation (w.session s).config.mutationTypeName) mutationMap
    refine .of_ok rfl ?_ hleft hright fun n hn ↦ ?_
    · simp only [SchemaRoots.renumber, renumber_rootNode, Option.map_some]
      rfl
    · rcases List.mem_cons.1 hn with rfl | hn
      · exact .root (hserial ▸ w₂.find_query_of_enroll ..) (hserial' ▸ v₂.find_query_of_enroll ..)
          hquery
      · cases List.mem_singleton.1 hn
        exact .root (hserial ▸ Workspace.find_enroll_self (w₂.enroll ..) ..)
          (hserial' ▸ Workspace.find_enroll_self (v₂.enroll ..) ..) hmutation

/-- The root types of a schema, in an aged workspace, are the same under another serial number. -/
theorem compileRoots_renumber (hhost : host.Steady) (hs : s < w₀.sessions.length)
    (hv : w₀.Aged d host v) (hcv : v.Coherent d) (roots : List ClassRef) :
    Parallel d host w₀ w₀ v (SchemaRoots.renumber v.nextSchema)
      (fun made w' v' ↦ ∀ n ∈ made.nodes,
        Counterpart d host w₀ w'.roots v'.roots v.nextSchema n)
      (compileRoots host s roots) (compileRoots host s roots) := by
  have hw : w₀.Aged d host w₀ := .refl hw₀.coherent
  refine (gatherRoots_parallel hw₀ hhost hw hv hw₀.coherent hcv roots).bind
    fun fields w₁ v₁ _ _ hw₁ hv₁ ⟨hbw, hbv, hwithin⟩ ↦ ?_
  rw [← Workspace.nextSchema_of_bare hbv]
  dsimp only [id]
  split
  · exact .throw hw₁ hv₁ _
  · exact makeRoots_renumber hw₀ hs hw₁ hv₁ (Workspace.nextSchema_of_bare hbw) hwithin

/-! ## The schema -/

omit hw₀ in
theorem SchemaRoots.nodes_renumber (r : SchemaRoots) (k' : Nat) :
    (r.renumber k').nodes = r.nodes.map (·.renumber r.serial k') := by
  cases h : r.mutation <;> simp [SchemaRoots.nodes, SchemaRoots.renumber, GraphNode.renumber, h]

omit hw₀ in
/-- The root types of a schema that fails can be given up. -/
theorem Workspace.Aged.restore (hw : w₀.Aged d host w) (hv : w₀.Aged d host v) :
    w₀.Aged d host { w with roots := v.roots } :=
  hw.of_same { hw.kin with roots := hv.kin.roots } fun _ ↦ rfl

omit hw₀ in
/-- A complete schema leaves an aged workspace. -/
theorem Workspace.Aged.publish (hw : w₀.Aged d host w) (s : SessionId) {serial : Nat}
    (hserial : w₀.nextSchema ≤ serial) : w₀.Aged d host (w.publish s serial) := by
  have hkin := hw.kin
  refine hw.of_same ⟨?_, fun b ↦ ?_, fun b ↦ ?_, fun b ↦ ?_, hkin.roots, ?_⟩ fun b ↦ ?_
  · exact (w.length_modifySession s _).trans hkin.sessions
  · exact ((w.retains_publish s serial).registries b).trans (hkin.registries b)
  · exact (w.isOpen_publish s b serial).trans (hkin.isOpen b)
  · rw [← hkin.config, session_publish]
    split <;> rfl
  · exact Nat.le_succ_of_le hserial
  · rw [cache, cache, session_publish]
    split <;> rfl

/-- The fields of two nodes, each in a workspace of its own, are there and are the same; so are the
implementors of an interface. -/
inductive GraphNode.Agrees (host : Host σ) (w v : Workspace σ) : GraphNode → GraphNode → Prop
  | object {n m : ObjectNode} {fields : FieldMap}
    (hn : ((n.fields host).runIn w).1 = .ok fields)
    (hm : ((m.fields host).runIn v).1 = .ok fields) : Agrees host w v (.object n) (.object m)
  | interface {n : InterfaceNode} {fields : FieldMap} {objects : List ObjectNode}
    (hn : ((n.fields host).runIn w).1 = .ok fields)
    (hm : ((n.fields host).runIn v).1 = .ok fields)
    (hn' : (n.implementations.runIn w).1 = .ok objects)
    (hm' : (n.implementations.runIn v).1 = .ok objects) :
    Agrees host w v (.interface n) (.interface n)
  | input {n : InputNode} {fields : InputMap}
    (hn : ((n.fields host).runIn w).1 = .ok fields)
    (hm : ((n.fields host).runIn v).1 = .ok fields) : Agrees host w v (.input n) (.input n)
  | union (n : UnionNode) : Agrees host w v (.union n) (.union n)
  | enum (n : EnumNode) : Agrees host w v (.enum n) (.enum n)
  | scalar (n : ScalarNode) : Agrees host w v (.scalar n) (.scalar n)

/-- A node whose fields are at hand agrees with its counterpart. -/
theorem Counterpart.agrees {k' : Nat} {n : GraphNode} (hw : w₀.Aged d host w)
    (hv : w₀.Aged d host v) (hn : Counterpart d host w₀ w.roots v.roots k' n) (hk : n.Kept w) :
    n.Agrees host w v (n.renumber w₀.nextSchema k') := by
  have hc := hw₀.coherent
  cases hn with
  | attained hn =>
    rw [hn.renumber_eq]
    cases n with
    | object n =>
      obtain ⟨fields, hf⟩ := hk
      have hf : ((n.fields host).runIn w).1 = .ok fields :=
        congrArg Prod.fst (ObjectNode.runIn_fields_of_kept hf)
      refine .object hf ?_
      rw [(ObjectNode.fields_aged hc hv hn).1, ← (ObjectNode.fields_aged hc hw hn).1, hf]
    | interface n =>
      obtain ⟨⟨fields, hf⟩, objects, ho⟩ := hk
      have hf : ((n.fields host).runIn w).1 = .ok fields :=
        congrArg Prod.fst (InterfaceNode.runIn_fields_of_kept hf)
      have ho := congrArg Prod.fst (InterfaceNode.runIn_implementations_of_implemented ho)
      refine .interface hf ?_ ho ?_
      · rw [(InterfaceNode.fields_aged hc hv hn).1, ← (InterfaceNode.fields_aged hc hw hn).1, hf]
      · rw [(InterfaceNode.implementations_aged hc hv hn).1,
          ← (InterfaceNode.implementations_aged hc hw hn).1, ho]
    | input n =>
      obtain ⟨fields, hf⟩ := hk
      have hf : ((n.fields host).runIn w).1 = .ok fields :=
        congrArg Prod.fst (InputNode.runIn_fields_of_kept hf)
      refine .input hf ?_
      rw [(InputNode.fields_aged hc hv hn).1, ← (InputNode.fields_aged hc hw hn).1, hf]
    | union n => exact .union n
    | enum n => exact .enum n
    | scalar n => exact .scalar n
  | @root operation name m m' fields ha hb hf =>
    have hkept : (rootNode w₀.nextSchema operation name).Kept w fields := .inr ⟨_, _, m, rfl, ha⟩
    have hkept' : (rootNode k' operation name).Kept v fields := .inr ⟨_, _, m', rfl, hb⟩
    rw [GraphNode.renumber, renumber_rootNode]
    exact .object (congrArg Prod.fst (ObjectNode.runIn_fields_of_kept hkept))
      (congrArg Prod.fst (ObjectNode.runIn_fields_of_kept hkept'))

/-- **A schema does not age.** -/
theorem compileSchema_renumber (hhost : host.Steady) (hs : s < w₀.sessions.length)
    (hv : w₀.Aged d host v) (hsv : v.Sound d) (roots : List ClassRef) :
    Parallel d host w₀ w₀ v (Schema.renumber v.nextSchema)
      (fun schema w' v' ↦ ∀ n ∈ schema.types,
        n.Agrees host w' v' (n.renumber schema.serial v.nextSchema))
      (compileSchema host s roots) (compileSchema host s roots) := by
  rcases (compileRoots_renumber hw₀ hhost hs hv hsv.coherent roots).error_or_ok with
    ⟨e, w₁, v₁, hrun, hrun', hw₁, hv₁⟩ | ⟨made, w₁, v₁, hrun, hrun', hw₁, hv₁, hcounter⟩
  · exact .of_error (runIn_compileSchema_of_error hrun) (runIn_compileSchema_of_error hrun') hw₁ hv₁
  have henr := (compileRoots_spec hw₀ hs roots).1 made w₁ hrun
  have henr' := (compileRoots_spec hsv (hv.kin.sessions ▸ hs) roots).1 _ v₁ hrun'
  have hserial : made.serial = w₀.nextSchema := henr.serial
  have hnodes : (made.renumber v.nextSchema).nodes =
      made.nodes.map (·.renumber w₀.nextSchema v.nextSchema) :=
    hserial ▸ made.nodes_renumber v.nextSchema
  have hheld' : ∀ n ∈ made.nodes, v₁.Holds d (n.renumber w₀.nextSchema v.nextSchema) :=
    fun n hn ↦ henr'.held _ (hnodes ▸ List.mem_map_of_mem hn)
  have hwalk := collectTypes_renumber hw₀.coherent hv.kin.nextSchema hw₁ hv₁ henr.coherent
    henr'.coherent hcounter henr.held hheld'
  rw [← hnodes] at hwalk
  rcases hwalk.error_or_ok with
    ⟨e, w₂, v₂, hrun₂, hrun₂', hw₂, hv₂⟩ | ⟨types, w₂, v₂, hrun₂, hrun₂', hw₂, hv₂, ha, hb, htypes⟩
  · exact .of_error (runIn_compileSchema_of_blocked hrun hrun₂)
      (runIn_compileSchema_of_blocked hrun' hrun₂') (hw₂.restore (.refl hw₀.coherent))
      (hv₂.restore hv)
  have hleft := hw₂.publish s (Nat.le_of_eq hserial.symm)
  have hright := hv₂.publish s hv.kin.nextSchema
  -- the walk has left the fields of every type it has found, so both schemas can be read
  have hkept := (collectTypes_spec henr.coherent henr.held).2.1 types (congrArg Prod.fst hrun₂)
  rw [hrun₂] at hkept
  refine .of_ok (runIn_compileSchema_of_types hrun hrun₂) ?_ hleft hright fun n hn ↦ ?_
  · rw [runIn_compileSchema_of_types hrun' hrun₂']
    simp only [SchemaRoots.schema, Schema.renumber, SchemaRoots.renumber, hserial]
  · have hk := (hkept.2.2 n hn).2.transfer (w₂.retains_publish s made.serial)
    rw [← ha, ← hb] at htypes
    have hagrees := (htypes n hn).agrees hw₀ hleft hright hk
    rwa [← hserial] at hagrees

end ApiGraph
