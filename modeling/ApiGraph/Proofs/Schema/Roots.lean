import ApiGraph.Proofs.Compile.Failures
import ApiGraph.Proofs.Compile.Fields

/-!
# The roots of a schema

Before a schema is walked its root types are made and added to those of the workspace, under a
serial number that nothing has yet.  Nothing can refer to them until the schema is complete, so the
workspace is coherent with them and, should the walk fail, coherent without them.

## What is here

* `Workspace.Sound`: a coherent workspace in which every root belongs to a complete schema.
* `Workspace.Enrolled`: what has become of a workspace when the roots of a schema are made.
* `gatherRoots_failsOnly`: why root fields cannot be gathered.
* `compileRoots_spec`.
-/

set_option autoImplicit false

namespace ApiGraph

open Compile (Settles)

variable {σ : Type} {d : Declarations} {host : Host σ}

namespace Workspace

/-- A coherent workspace between two requests: every root belongs to a complete schema. -/
structure Sound (d : Declarations) (w : Workspace σ) : Prop where
  coherent : w.Coherent d
  complete : ∀ {serial : Nat} {operation : Operation} {e : ObjectNode × FieldMap},
    OrderedMap.find w.roots (serial, operation) = some e → serial < w.nextSchema

theorem Sound.of_grows {w w' : Workspace σ} (hw : w.Sound d) (hg : w.Grows w')
    (hw' : w'.Coherent d) : w'.Sound d :=
  ⟨hw', fun h ↦ hg.nextSchema ▸ hw.complete (hg.roots ▸ h)⟩

/-- What has become of a workspace when the roots of a schema are made: its tables have been filled,
and the roots are there under the next serial number. -/
structure Enrolled (d : Declarations) (host : Host σ) (w : Workspace σ) (made : SchemaRoots)
    (w₁ : Workspace σ) : Prop where
  coherent : w₁.Coherent d
  grown : ∃ w₀, w.Filled d host w₀ ∧ w₁ = { w₀ with roots := w₁.roots }
  serial : made.serial = w.nextSchema
  older : ∀ {serial : Nat} {operation : Operation}, serial < w.nextSchema →
    OrderedMap.find w₁.roots (serial, operation) = OrderedMap.find w.roots (serial, operation)
  newer : ∀ {serial : Nat} {operation : Operation} {e : ObjectNode × FieldMap},
    OrderedMap.find w₁.roots (serial, operation) = some e → serial ≤ w.nextSchema
  held : ∀ n ∈ made.nodes, w₁.Holds d n

end Workspace

/-! ## Gathering root fields -/

/-- Root fields over what is declared and offered. -/
structure RootFields.Within (d : Declarations) (offered : GraphNode → Prop) (fields : RootFields) :
    Prop where
  query : ∀ e ∈ fields.query, e.2.spec.Within d offered
  mutation : ∀ e ∈ fields.mutation, e.2.spec.Within d offered

section Gather

variable {r : Registries} {p : FieldSpec → Prop} (hr : r.fields.All p)
include hr

theorem ownRootFields_all {owner : ClassRef} {own : OrderedMap String FieldSpec}
    (h : ownRootFields r owner = .ok own) : ∀ e ∈ own, p e.2 := by
  refine (foldlM_invariant (p := fun own : OrderedMap String FieldSpec ↦ ∀ e ∈ own, p e.2)
    (q := fun _ ↦ True) ?_ (fun _ _ _ _ _ ↦ trivial) ?_).1 own h
  · intro own spec hspec hown own' h
    split at h
    · cases h
    · cases h
      intro e he
      rcases OrderedMap.mem_put he with rfl | he
      · exact hr owner.key spec (List.mem_of_mem_filter hspec)
      · exact hown e he
  · exact fun _ h ↦ absurd h List.not_mem_nil

theorem rootFieldsOf_all {root : ClassRef} {own : OrderedMap String (ClassRef × FieldSpec)}
    (h : rootFieldsOf r root = .ok own) : ∀ e ∈ own, p e.2.2 := by
  refine (foldlM_invariant
    (p := fun own : OrderedMap String (ClassRef × FieldSpec) ↦ ∀ e ∈ own, p e.2.2)
    (q := fun _ ↦ True) ?_ (fun _ _ _ _ _ ↦ trivial) ?_).1 own h
  · intro found owner _ hfound found' h
    cases hown : ownRootFields r owner with
    | error e => rw [hown] at h; cases h
    | ok own =>
      rw [hown] at h
      cases h
      intro e he
      have hfold : own.foldl (fun m e ↦ OrderedMap.put m e.1 (owner, e.2)) found =
          (own.map fun e ↦ (e.1, owner, e.2)).foldl (fun m e ↦ OrderedMap.put m e.1 e.2) found := by
        rw [List.foldl_map]
      change e ∈ own.foldl (fun m e ↦ OrderedMap.put m e.1 (owner, e.2)) found at he
      rw [hfold] at he
      rcases OrderedMap.mem_of_mem_foldl_put he with he | he
      · exact hfound e he
      · obtain ⟨one, hone, rfl⟩ := List.mem_map.1 he
        exact ownRootFields_all hr hown one hone
  · exact fun _ h ↦ absurd h List.not_mem_nil

end Gather

theorem exposeRootField_within {offered : GraphNode → Prop} {operation : Operation}
    {fields fields' : OrderedMap String RootField} {name : String} {field : RootField}
    (h : exposeRootField operation fields name field = .ok fields')
    (hfields : ∀ e ∈ fields, e.2.spec.Within d offered) (hfield : field.spec.Within d offered) :
    ∀ e ∈ fields', e.2.spec.Within d offered := by
  rw [exposeRootField] at h
  split at h
  · rw [addRootField] at h
    split at h
    · cases h
    · cases h
      intro e he
      rcases OrderedMap.mem_put he with rfl | he
      · exact hfield
      · exact hfields e he
  · cases h
    exact hfields

theorem RootFields.Within.add {offered : GraphNode → Prop} {fields fields' : RootFields}
    (hf : fields.Within d offered) {name : String} {field : RootField}
    (hfield : field.spec.Within d offered) (h : fields.add name field = .ok fields') :
    fields'.Within d offered := by
  obtain ⟨query, hq, h⟩ := except_bind_eq_ok h
  obtain ⟨mutation, hm, h⟩ := except_bind_eq_ok h
  cases h
  exact ⟨exposeRootField_within hq hf.query hfield, exposeRootField_within hm hf.mutation hfield⟩

theorem gatherRoot_of_none {w : Workspace σ} {s : SessionId} {root : ClassRef}
    (hspec : OrderedMap.find (w.registries s).roots root.key = none) (fields : RootFields) :
    (gatherRoot host s fields root).runIn w =
      (.error (.assembly (.notSchemaRoot root.name)), w) := by
  rw [gatherRoot, Compile.runIn_get_bind]
  simp only [hspec]
  rfl

/-- A root is made by the program, and its fields are added to those there are. -/
theorem gatherRoot_of_some (host : Host σ) {w : Workspace σ} {s : SessionId} {root : ClassRef}
    {spec : RootSpec} (hspec : OrderedMap.find (w.registries s).roots root.key = some spec)
    (fields : RootFields) :
    ∃ served state, ((makeRoot host root spec).runIn w).1 = .ok served ∧
      (gatherRoot host s fields root).runIn w =
        (rootFieldsOf (w.registries s) root >>= fun own ↦ own.foldlM
          (fun fields (name, owner, spec) ↦ fields.add name { root, owner, spec, served }) fields,
          { w with host := state }) := by
  have hmake : ∃ served state, (makeRoot host root spec).runIn w =
      (.ok served, { w with host := state }) := by
    rw [makeRoot]
    split
    · exact ⟨_, _, Compile.runIn_ofHost _ w⟩
    · exact ⟨_, w.host, rfl⟩
  obtain ⟨served, state, hmake⟩ := hmake
  refine ⟨served, state, congrArg Prod.fst hmake, ?_⟩
  rw [gatherRoot, Compile.runIn_get_bind]
  simp only [hspec]
  rw [Compile.runIn_bind_of_ok hmake]
  cases rootFieldsOf (w.registries s) root <;> rfl

/-- Gathering root fields runs steps of the program and changes nothing else. -/
theorem gatherRoot_spec {w : Workspace σ} (hw : w.Coherent d) (s : SessionId) {fields : RootFields}
    (hf : fields.Within d (w.Offers d)) (root : ClassRef) :
    (∃ state, ((gatherRoot host s fields root).runIn w).2 = { w with host := state }) ∧
      ∀ fields', ((gatherRoot host s fields root).runIn w).1 = .ok fields' →
        fields'.Within d (w.Offers d) := by
  cases hspec : OrderedMap.find (w.registries s).roots root.key with
  | none =>
    rw [gatherRoot_of_none hspec]
    exact ⟨⟨w.host, rfl⟩, by rintro fields' ⟨⟩⟩
  | some spec =>
    obtain ⟨served, state, -, hrun⟩ := gatherRoot_of_some host hspec fields
    rw [hrun]
    refine ⟨⟨state, rfl⟩, fun fields' h ↦ ?_⟩
    obtain ⟨own, hown, h⟩ := except_bind_eq_ok h
    refine (foldlM_invariant (p := fun f : RootFields ↦ f.Within d (w.Offers d))
      (q := fun _ ↦ True) ?_ (fun _ _ _ _ _ ↦ trivial) hf).1 fields' h
    rintro f ⟨name, owner, spec⟩ he hf f' h
    exact hf.add (rootFieldsOf_all (hw.registries s).fields hown _ he) h

theorem gatherRoots_spec {w : Workspace σ} (hw : w.Coherent d) (s : SessionId)
    (roots : List ClassRef) :
    (∃ state, ((gatherRoots host s roots).runIn w).2 = { w with host := state }) ∧
      ∀ fields, ((gatherRoots host s roots).runIn w).1 = .ok fields →
        fields.Within d (w.Offers d) := by
  have h : ∀ (roots : List ClassRef) (w : Workspace σ) (fields : RootFields), w.Coherent d →
      fields.Within d (w.Offers d) →
      (∃ state, ((roots.foldlM (gatherRoot host s) fields).runIn w).2 = { w with host := state }) ∧
        ∀ fields', ((roots.foldlM (gatherRoot host s) fields).runIn w).1 = .ok fields' →
          fields'.Within d (w.Offers d) := by
    intro roots
    induction roots with
    | nil => exact fun w fields hw hf ↦ ⟨⟨w.host, rfl⟩, fun fields' h ↦ Except.ok.inj h ▸ hf⟩
    | cons root rest ih =>
      intro w fields hw hf
      rw [List.foldlM_cons]
      obtain ⟨⟨state, hstate⟩, hok⟩ := gatherRoot_spec hw s hf root
      rcases hrun : (gatherRoot host s fields root).runIn w with ⟨e | fields₁, w₁⟩ <;>
        rw [hrun] at hstate hok <;> cases hstate
      · rw [Compile.runIn_bind_of_error hrun]
        exact ⟨⟨state, rfl⟩, nofun⟩
      · rw [Compile.runIn_bind_of_ok hrun]
        -- what is offered does not depend on the state of the program
        exact ih { w with host := state } fields₁ (hw.ofHost state) (hok fields₁ rfl)
  exact h roots w {} hw ⟨fun _ h ↦ absurd h List.not_mem_nil, fun _ h ↦ absurd h List.not_mem_nil⟩

/-! ### Failures -/

/-- Whether an error says why root fields cannot be gathered. -/
def CompileError.isOfGathering : CompileError → Bool
  | .assembly (.notSchemaRoot _) | .assembly (.duplicateRootField ..) => true
  | _ => false

/-- An error that says why root fields cannot be gathered. -/
def CompileError.OfGathering (e : CompileError) : Prop := e.isOfGathering = true

open CompileError (OfGathering)

theorem exposeRootField_error {operation : Operation} {fields : OrderedMap String RootField}
    {name : String} {field : RootField} {e : CompileError}
    (h : exposeRootField operation fields name field = .error e) : e.OfGathering := by
  rw [exposeRootField] at h
  split at h
  · rw [addRootField] at h
    split at h <;> cases h
    rfl
  · cases h

theorem RootFields.add_error {fields : RootFields} {name : String} {field : RootField}
    {e : CompileError} (h : fields.add name field = .error e) : e.OfGathering := by
  rw [RootFields.add] at h
  cases hq : exposeRootField .query fields.query name field with
  | error e' =>
    rw [hq] at h
    cases h
    exact exposeRootField_error hq
  | ok query =>
    cases hm : exposeRootField .mutation fields.mutation name field with
    | error e' =>
      rw [hq, hm] at h
      cases h
      exact exposeRootField_error hm
    | ok mutation =>
      rw [hq, hm] at h
      cases h

theorem rootFieldsOf_error {r : Registries} {root : ClassRef} {e : CompileError}
    (h : rootFieldsOf r root = .error e) : e.OfGathering := by
  refine (foldlM_invariant (p := fun _ ↦ True) (q := OfGathering)
    (fun _ _ _ _ _ _ ↦ trivial) ?_ trivial).2 e h
  intro found owner _ e h
  cases hown : ownRootFields r owner with
  | ok own => rw [hown] at h; cases h
  | error e' =>
    rw [hown] at h
    cases h
    refine (foldlM_invariant (p := fun _ ↦ True) (q := OfGathering)
      (fun _ _ _ _ _ _ ↦ trivial) ?_ trivial).2 e hown
    intro own spec _ e h
    split at h <;> cases h
    rfl

/-- Root fields that cannot be gathered are those of no root, or in each other's way. -/
theorem gatherRoots_failsOnly (host : Host σ) (s : SessionId) (roots : List ClassRef) :
    FailsOnly OfGathering (gatherRoots host s roots) := by
  refine FailsOnly.foldlM (fun fields root _ ↦ .get fun w ↦ ?_) _
  dsimp only
  split
  · exact .throw rfl
  rename_i spec _
  have hserved : FailsOnly OfGathering (makeRoot host root spec) := by
    rw [makeRoot]
    split
    · exact .ofHost _
    · exact .pure _
  refine hserved.bind fun served ↦ (FailsOnly.mk_pure fun _ ↦ rootFieldsOf_error).bind fun own ↦
    .mk_pure fun e he ↦ ?_
  exact (foldlM_invariant (p := fun _ ↦ True) (q := OfGathering) (fun _ _ _ _ _ _ ↦ trivial)
    (fun _ _ _ _ he ↦ RootFields.add_error he) trivial).2 e he

/-! ## Making the root types -/

theorem compileRootField_settles {w₀ : Workspace σ} (hw₀ : w₀.Coherent d) {s : SessionId}
    (hs : s < w₀.sessions.length) {e : String × RootField}
    (he : e.2.spec.Within d (w₀.Offers d)) :
    Settles d host w₀ [] (do
      let compiled ← compileField host s e.2.owner e.2.spec (some e.2.served)
      return (e.1, compiled)) fun e ↦ e.2.nodes :=
  (compileField_settles hw₀ hs e.2.owner he _).bind fun _ _ ↦
    .pure (fun _ hn ↦ .inl (List.mem_append_left _ hn)) trivial

theorem compileRootFields_settles {w₀ : Workspace σ} (hw₀ : w₀.Coherent d) {s : SessionId}
    (hs : s < w₀.sessions.length) {given : List GraphNode} {fields : OrderedMap String RootField}
    (hf : ∀ e ∈ fields, e.2.spec.Within d (w₀.Offers d)) :
    Settles d host w₀ given (compileRootFields host s fields) FieldMap.nodes := by
  refine (Settles.mapM fun e he ↦ compileRootField_settles hw₀ hs (hf e he)).weaken (fun _ ↦ id)
    (fun fields n hn ↦ ?_) fun _ _ ↦ trivial
  rwa [FieldMap.nodes, OrderedMap.values, List.flatMap_map] at hn

namespace Workspace

theorem find_enroll (w : Workspace σ) (operation : Operation) (n : ObjectNode) (fields : FieldMap)
    (serial : Nat) (other : Operation) :
    OrderedMap.find (w.enroll operation n fields).roots (serial, other) =
      if w.nextSchema = serial ∧ operation = other then some (n, fields)
      else OrderedMap.find w.roots (serial, other) := by
  rw [enroll, OrderedMap.find_put]
  simp only [Prod.mk.injEq]

theorem find_enroll_of_lt (w : Workspace σ) (operation : Operation) (n : ObjectNode)
    (fields : FieldMap) {serial : Nat} (other : Operation) (h : serial < w.nextSchema) :
    OrderedMap.find (w.enroll operation n fields).roots (serial, other) =
      OrderedMap.find w.roots (serial, other) := by
  rw [find_enroll, if_neg fun he ↦ absurd he.1 (Nat.ne_of_gt h)]

theorem find_enroll_self (w : Workspace σ) (operation : Operation) (n : ObjectNode)
    (fields : FieldMap) :
    OrderedMap.find (w.enroll operation n fields).roots (w.nextSchema, operation) =
      some (n, fields) := by
  rw [find_enroll, if_pos ⟨rfl, rfl⟩]

theorem le_of_find_enroll {w : Workspace σ} {operation : Operation} {n : ObjectNode}
    {fields : FieldMap} (hw : ∀ serial other e,
      OrderedMap.find w.roots (serial, other) = some e → serial ≤ w.nextSchema)
    (serial : Nat) (other : Operation) (e : ObjectNode × FieldMap)
    (h : OrderedMap.find (w.enroll operation n fields).roots (serial, other) = some e) :
    serial ≤ w.nextSchema := by
  rw [find_enroll] at h
  split at h
  · rename_i heq
    exact Nat.le_of_eq heq.1.symm
  · exact hw serial other e h

theorem Offers.enroll {w : Workspace σ} (hw : w.Coherent d) (operation : Operation)
    (n : ObjectNode) (fields : FieldMap) {m : GraphNode} (hm : w.Offers d m) :
    (w.enroll operation n fields).Offers d m := by
  refine Offers.transfer hw ?_ ?_ ?_ hm
  · exact fun _ h ↦ h
  · exact fun h ↦ w.find_enroll_of_lt operation n fields _ h
  · exact Nat.le_refl _

/-- A root whose fields refer to what is offered leaves a workspace coherent. -/
theorem Coherent.enroll {w : Workspace σ} (hw : w.Coherent d) (operation : Operation)
    {n : ObjectNode} (hn : n = rootNode w.nextSchema operation n.name) {fields : FieldMap}
    (hf : ∀ m ∈ FieldMap.nodes fields, w.Offers d m) :
    (w.enroll operation n fields).Coherent d := by
  have ho : ∀ m, w.Offers d m → (w.enroll operation n fields).Offers d m :=
    fun m ↦ Offers.enroll hw operation n fields
  refine hw.transfer ho (fun s ↦ .refl _) (fun s ↦ (hw.registries s).imp ho) id
    fun {serial other m fields'} h ↦ ?_
  rw [find_enroll] at h
  split at h
  · rename_i heq
    obtain ⟨rfl, rfl⟩ := heq
    cases h
    exact .inr ⟨hn, fun m hm ↦ ho m (hf m hm)⟩
  · exact .inl h

/-- Enrolling a query type, and a mutation type if there is one, is what becomes of a workspace. -/
theorem Enrolled.of_enroll {w w₀ : Workspace σ} (hw : w.Sound d) (hf : w.Filled d host w₀)
    {query : ObjectNode} {mutation : Option ObjectNode}
    {queryMap mutationMap : FieldMap} (config : Config)
    (hquery : query = rootNode w₀.nextSchema .query query.name)
    (hmutation : ∀ n ∈ mutation, n = rootNode w₀.nextSchema .mutation n.name)
    (hq : ∀ m ∈ FieldMap.nodes queryMap, w₀.Offers d m)
    (hm : ∀ m ∈ FieldMap.nodes mutationMap, w₀.Offers d m) :
    w.Enrolled d host { serial := w₀.nextSchema, query, mutation, config }
      (mutation.elim (w₀.enroll .query query queryMap) fun n ↦
        (w₀.enroll .query query queryMap).enroll .mutation n mutationMap) := by
  have hw₀ := hf.coherent
  have hg := hf.grows
  have hcq : (w₀.enroll .query query queryMap).Coherent d := hw₀.enroll .query hquery hq
  have hle : ∀ serial operation e,
      OrderedMap.find w₀.roots (serial, operation) = some e → serial ≤ w₀.nextSchema :=
    fun _ _ _ h ↦ Nat.le_of_lt (hg.nextSchema ▸ hw.complete (hg.roots ▸ h))
  have hself := w₀.find_enroll_self .query query queryMap
  cases mutation with
  | none =>
    rw [Option.elim_none]
    refine ⟨hcq, ⟨w₀, hf, rfl⟩, hg.nextSchema, fun {serial operation} h ↦ ?_,
      fun {serial operation e} h ↦ hg.nextSchema ▸ le_of_find_enroll hle _ _ e h, fun n hn ↦ ?_⟩
    · rw [find_enroll_of_lt w₀ _ _ _ _ (hg.nextSchema.symm ▸ h), hg.roots]
    · cases List.mem_singleton.1 hn
      exact .inr ⟨_, _, hself⟩
  | some n =>
    have hc := hcq.enroll .mutation (hmutation n rfl) fun m hm' ↦
      (hm m hm').enroll hw₀ .query query queryMap
    rw [Option.elim_some]
    refine ⟨hc, ⟨w₀, hf, rfl⟩, hg.nextSchema, fun {serial operation} h ↦ ?_,
      fun {serial operation e} h ↦ hg.nextSchema ▸ le_of_find_enroll
        (le_of_find_enroll hle) _ _ e h, fun m hm' ↦ ?_⟩
    · have h' : serial < w₀.nextSchema := hg.nextSchema.symm ▸ h
      have hm' := (w₀.enroll .query query queryMap).find_enroll_of_lt .mutation n mutationMap
        operation h'
      rw [hm', find_enroll_of_lt w₀ _ _ _ _ h', hg.roots]
    · rcases List.mem_cons.1 hm' with rfl | hm'
      · refine .inr ⟨(w₀.nextSchema, .query), queryMap, ?_⟩
        rw [find_enroll, if_neg fun he ↦ nomatch he.2]
        exact hself
      · cases List.mem_singleton.1 hm'
        exact .inr ⟨_, _, find_enroll_self _ .mutation n mutationMap⟩

end Workspace

/-- Root types are made and enrolled, or tables have been filled and nothing else has happened. -/
theorem makeRoots_spec {w w₁ : Workspace σ} (hw : w.Sound d) (hw₁ : w.Filled d host w₁)
    {s : SessionId} (hs : s < w.sessions.length) {fields : RootFields}
    (hf : fields.Within d (w.Offers d)) :
    (∀ made w₂, (makeRoots host s fields).runIn w₁ = (.ok made, w₂) → w.Enrolled d host made w₂) ∧
      ∀ e w₂, (makeRoots host s fields).runIn w₁ = (.error e, w₂) →
        w.Filled d host w₂ ∧ ∀ fault, e ≠ .assembly fault := by
  have hquery : Settles d host w [] _ _ := compileRootFields_settles hw.coherent hs hf.query
  have hmutation : Settles d host w [] _ _ := compileRootFields_settles hw.coherent hs hf.mutation
  have hfilled := hquery.filled hw₁
  have hfilled' := hmutation.filled hfilled
  have hgrows' := hmutation.grows hfilled
  rw [makeRoots, Compile.runIn_get_bind]
  dsimp only
  rcases hq : (compileRootFields host s fields.query).runIn w₁ with ⟨e | queryMap, w₂⟩
  · rw [Compile.runIn_bind_of_error hq]
    have hne := hquery.error_ne hw₁ (congrArg Prod.fst hq)
    rw [hq] at hfilled
    refine ⟨fun made w' h ↦ ?_, fun e' w' h ↦ ?_⟩ <;> cases h
    exact ⟨hfilled, hne⟩
  have hoffers := hquery.offers hw₁ (List.forall_mem_nil _) (congrArg Prod.fst hq)
  rw [Compile.runIn_bind_of_ok hq]
  rw [hq] at hfilled hfilled' hgrows' hoffers
  rcases hm : (compileRootFields host s fields.mutation).runIn w₂ with ⟨e | mutationMap, w₃⟩
  · rw [Compile.runIn_bind_of_error hm]
    have hne := hmutation.error_ne hfilled (congrArg Prod.fst hm)
    rw [hm] at hfilled'
    refine ⟨fun made w' h ↦ ?_, fun e' w' h ↦ ?_⟩ <;> cases h
    exact ⟨hfilled', hne⟩
  have hoffers' := hmutation.offers hfilled (List.forall_mem_nil _) (congrArg Prod.fst hm)
  rw [Compile.runIn_bind_of_ok hm, Compile.runIn_get_bind]
  rw [hm] at hfilled' hgrows' hoffers'
  refine ⟨fun made w' h ↦ ?_, fun e' w' h ↦ ?_⟩ <;> cases h
  refine .of_enroll hw hfilled' _ rfl ?_ (fun m hm ↦ (hoffers m hm).mono hgrows') hoffers'
  intro n hn
  split at hn <;> cases hn
  rfl

/-- **The roots of a schema.**  Either they are made and enrolled, or tables have been filled and
nothing else has happened. -/
theorem compileRoots_spec {w : Workspace σ} (hw : w.Sound d) {s : SessionId}
    (hs : s < w.sessions.length) (roots : List ClassRef) :
    (∀ made w₁, (compileRoots host s roots).runIn w = (.ok made, w₁) →
        w.Enrolled d host made w₁) ∧
      ∀ e w₁, (compileRoots host s roots).runIn w = (.error e, w₁) →
        w.Filled d host w₁ ∧ e ≠ .assembly .unboundedGraph := by
  obtain ⟨⟨state, hstate⟩, hfields⟩ := gatherRoots_spec hw.coherent s roots
  have hw₁ : w.Filled d host { w with host := state } := .ofHost hw.coherent state
  have hne : ∀ e, ((gatherRoots host s roots).runIn w).1 = .error e →
      e ≠ .assembly .unboundedGraph := by
    rintro e he rfl
    cases gatherRoots_failsOnly host s roots w _ he
  rw [compileRoots]
  rcases hgather : (gatherRoots host s roots).runIn w with ⟨e | fields, w₁⟩ <;>
    rw [hgather] at hstate hfields hne <;> cases hstate
  · rw [Compile.runIn_bind_of_error hgather]
    refine ⟨fun made w' h ↦ ?_, fun e' w' h ↦ ?_⟩ <;> cases h
    exact ⟨hw₁, hne e rfl⟩
  rw [Compile.runIn_bind_of_ok hgather]
  by_cases hempty : fields.query.isEmpty = true
  · rw [if_pos hempty]
    refine ⟨fun made w' h ↦ ?_, fun e' w' h ↦ ?_⟩ <;> cases h
    exact ⟨hw₁, nofun⟩
  · rw [if_neg hempty]
    obtain ⟨hok, herr⟩ := makeRoots_spec hw hw₁ hs (hfields fields rfl)
    exact ⟨hok, fun e w₂ h ↦ ⟨(herr e w₂ h).1, (herr e w₂ h).2 _⟩⟩

end ApiGraph
