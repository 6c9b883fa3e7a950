import ApiGraph.Proofs.Schema.RootSet

/-!
# The order of roots does not matter

A schema of a list of classes and a schema of a permutation of the list are compiled from the same
root fields.  The order in which these come changes the order of the fields of the root types, and
so the order in which the walk meets the other types, and nothing else.  For what a walk finds, and
whether it is blocked, are said by what the nodes lead to, in which no order occurs.

## What is here

* `RootFields.MadeInto.perm`, `compileRoots_perm`: the same root types, with the same fields up to
  order.
* `Workspace.Attains.leads_aged`: what a node leads to does not age.
* `leads_iff_of_perm`: all that the walk meets leads alike.
* `compileSchema_perm`: the same schema up to order, or none.
-/

set_option autoImplicit false

namespace ApiGraph

open Workspace (Reachable Step)

variable {σ : Type} {d : Declarations} {host : Host σ} {w w₀ w₁ w₁' : Workspace σ}
  {s : SessionId} {roots roots' : List ClassRef}

/-! ## Root types -/

/-- A root field is compiled to one field. -/
theorem RootField.compilesTo_unique : Relator.RightUnique (RootField.CompilesTo host w s) := by
  rintro e ⟨name, f⟩ ⟨name', f'⟩ ⟨rfl, h⟩ ⟨rfl, h'⟩
  cases h.symm.trans h'
  rfl

theorem perm_of_compilesTo {fields fields' : OrderedMap String RootField}
    (h : fields.Perm fields') {compiled compiled' : FieldMap}
    (hc : List.Forall₂ (RootField.CompilesTo host w s) fields compiled)
    (hc' : List.Forall₂ (RootField.CompilesTo host w s) fields' compiled') :
    compiled.Perm compiled' := by
  obtain ⟨middle, hmiddle, hperm⟩ := List.perm_comp_forall₂ h hc'
  rwa [List.right_unique_forall₂' RootField.compilesTo_unique hc hmiddle]

/-- Root fields that can be compiled one after the other can be compiled in every order. -/
theorem exists_compileRootFields (hw : w.Coherent d) (hs : s < w.sessions.length)
    {fields : OrderedMap String RootField} (hf : ∀ e ∈ fields, e.2.spec.Within d (w.Offers d))
    (hok : ∀ e ∈ fields, ∃ e', RootField.CompilesTo host w s e e') (hw₀ : w.Filled d host w₀) :
    ∃ compiled w₁, (compileRootFields host s fields).runIn w₀ = (.ok compiled, w₁) := by
  refine Compile.Settles.exists_runIn_mapM (.refl hw)
    (fun e he ↦ compileRootField_settles hw hs (hf e he)) (fun e he ↦ ?_) hw₀
  obtain ⟨e', -, hcompiled⟩ := hok e he
  exact ⟨(e.1, e'.2), congrArg Prod.fst (Compile.runIn_bind_of_ok (Prod.ext hcompiled rfl))⟩

/-- The root types that a session gives its next schema. -/
def Workspace.rootTypes (w : Workspace σ) (s : SessionId) (mutates : Bool) : SchemaRoots where
  serial := w.nextSchema
  query := rootNode w.nextSchema .query (w.session s).config.queryTypeName
  mutation :=
    if mutates then some (rootNode w.nextSchema .mutation (w.session s).config.mutationTypeName)
    else none
  config := (w.session s).config

/-- The root types are made if all of their fields can be compiled, and are what the session gives
its next schema. -/
theorem exists_makeRoots (hw : w.Coherent d) (hs : s < w.sessions.length) {fields : RootFields}
    (hf : fields.Within d (w.Offers d))
    (hok : ∀ operation, ∀ e ∈ fields.of operation, ∃ e', RootField.CompilesTo host w s e e')
    (hw₀ : w.Filled d host w₀) :
    ∃ w₁, (makeRoots host s fields).runIn w₀ =
      (.ok (w.rootTypes s !fields.mutation.isEmpty), w₁) := by
  have hquery : Compile.Settles d host w [] _ _ := compileRootFields_settles hw hs hf.query
  have hmutation : Compile.Settles d host w [] _ _ := compileRootFields_settles hw hs hf.mutation
  obtain ⟨queryMap, v, hq⟩ := exists_compileRootFields hw hs hf.query (hok .query) hw₀
  have hv := hquery.filled_of_run hw₀ hq
  obtain ⟨mutationMap, v', hm⟩ := exists_compileRootFields hw hs hf.mutation (hok .mutation) hv
  have hv' := hmutation.filled_of_run hv hm
  have hserial : v'.nextSchema = w.nextSchema := hv'.grows.nextSchema
  have hconfig : (w₀.session s).config = (w.session s).config :=
    Workspace.config_of_bare hw₀.grows.bare s
  rw [makeRoots, Compile.runIn_get_bind, Compile.runIn_bind_of_ok hq, Compile.runIn_bind_of_ok hm,
    Compile.runIn_get_bind]
  refine ⟨_, Prod.ext (congrArg Except.ok ?_) rfl⟩
  rw [hserial, hconfig]
  cases hempty : fields.mutation.isEmpty <;> simp [Workspace.rootTypes]

/-- The root types of some roots are made if root fields can be gathered, with a query among them,
and all of them can be compiled. -/
theorem exists_compileRoots (hw : w.Sound d) (hs : s < w.sessions.length) {fields : RootFields}
    (hgather : ((gatherRoots host s roots).runIn w).1 = .ok fields) (hquery : fields.query ≠ [])
    (hok : ∀ operation, ∀ e ∈ fields.of operation, ∃ e', RootField.CompilesTo host w s e e') :
    ∃ w₁, (compileRoots host s roots).runIn w =
      (.ok (w.rootTypes s !fields.mutation.isEmpty), w₁) := by
  obtain ⟨⟨state, hstate⟩, hwithin⟩ := gatherRoots_spec hw.coherent s roots
  obtain ⟨w₁, hmake⟩ := exists_makeRoots hw.coherent hs (hwithin fields hgather) hok
    (.ofHost hw.coherent state)
  refine ⟨w₁, ?_⟩
  rw [compileRoots, Compile.runIn_bind_of_ok (Prod.ext hgather hstate),
    if_neg (by simpa using hquery)]
  exact hmake

theorem RootFields.MadeInto.compiles {fields : RootFields} {operation : Operation}
    {n : Option ObjectNode} (h : fields.MadeInto host w w₁ s operation n) :
    ∀ e ∈ fields.of operation, ∃ e', RootField.CompilesTo host w s e e' := by
  cases n with
  | none =>
    have hnone : fields.of operation = [] := h
    exact hnone ▸ List.forall_mem_nil _
  | some n =>
    obtain ⟨-, _, _, compiled, -, -, hcompiled⟩ := h
    exact fun e he ↦ (exists_right_of_forall₂ hcompiled he).imp fun _ ↦ And.right

/-- The fields of two root types made of the same root fields are at hand, and are the same up to
order. -/
theorem RootFields.MadeInto.perm {fields fields' : RootFields} {operation : Operation}
    {n : ObjectNode} (h : fields.MadeInto host w w₁ s operation (some n))
    (h' : fields'.MadeInto host w w₁' s operation (some n))
    (hperm : (fields.of operation).Perm (fields'.of operation)) :
    ∃ compiled compiled', n.Kept w₁ compiled ∧ n.Kept w₁' compiled' ∧ compiled.Perm compiled' := by
  obtain ⟨-, serial, m, compiled, hid, hfind, hcompiled⟩ := h
  obtain ⟨-, serial', m', compiled', hid', hfind', hcompiled'⟩ := h'
  exact ⟨compiled, compiled', .inr ⟨serial, operation, m, hid, hfind⟩,
    .inr ⟨serial', operation, m', hid', hfind'⟩, perm_of_compilesTo hperm hcompiled hcompiled'⟩

/-- **Root types in two orders.**  The root types of a permutation of the roots can be made as well,
and they are the same nodes. -/
theorem compileRoots_perm (hhost : host.Steady) (hw : w.Sound d) (hs : s < w.sessions.length)
    (h : roots.Perm roots') {made : SchemaRoots}
    (hrun : (compileRoots host s roots).runIn w = (.ok made, w₁)) :
    ∃ w₁', (compileRoots host s roots').runIn w = (.ok made, w₁') := by
  obtain ⟨fields, hgather, hmade⟩ := compileRoots_root hw hs hrun
  obtain ⟨fields', hgather', hperm⟩ := gatherRoots_perm hhost h hgather
  have hcompiles operation := (hmade operation).compiles
  have hquery : fields.query ≠ [] := (hmade .query).1
  have hquery' : fields'.query ≠ [] := fun hnil ↦
    hquery ((hperm .query).trans (.of_eq hnil)).eq_nil
  have hmutates : fields.mutation.isEmpty = fields'.mutation.isEmpty := (hperm .mutation).isEmpty_eq
  obtain ⟨v, hfirst⟩ := exists_compileRoots hw hs hgather hquery hcompiles
  obtain ⟨v', hsecond⟩ := exists_compileRoots hw hs hgather' hquery' fun operation e he ↦
    hcompiles operation e ((hperm operation).mem_iff.2 he)
  refine ⟨v', hsecond.trans (Prod.ext (congrArg Except.ok ?_) rfl)⟩
  rw [Except.ok.inj (congrArg Prod.fst (hrun.symm.trans hfirst)), hmutates]

/-! ## What nodes lead to -/

namespace Workspace

/-- A node leads wherever the fields and the implementors that it has lead. -/
theorem Leads.of_same {v : Workspace σ} {n m : GraphNode}
    (hfields : ∀ fields, w.OutputFields host n fields → v.OutputFields host n fields)
    (hobjects : ∀ i, n = .interface i → ∀ objects, (i.implementations.runIn w).1 = .ok objects →
      (i.implementations.runIn v).1 = .ok objects)
    (hinput : ∀ i, n = .input i → ∀ fields, ((i.fields host).runIn w).1 = .ok fields →
      ((i.fields host).runIn v).1 = .ok fields)
    (h : w.Leads host n m) : v.Leads host n m := by
  cases h with
  | fieldType hn hf => exact .fieldType (hfields _ hn) hf
  | argumentType hn hf ha => exact .argumentType (hfields _ hn) hf ha
  | claim hi => exact .claim hi
  | implementor hn hm => exact .implementor (hobjects _ rfl _ hn) hm
  | member hm => exact .member hm
  | inputField hn hf => exact .inputField (hinput _ rfl _ hn) hf

/-- What a node leads to does not age. -/
theorem Attains.leads_aged (hw₀ : w₀.Coherent d) (hw : w₀.Aged d host w) {n m : GraphNode}
    (hn : w₀.Attains d host n) : w.Leads host n m ↔ w₀.Leads host n m := by
  have hfields : ∀ fields, w.OutputFields host n fields ↔ w₀.OutputFields host n fields := by
    intro fields
    cases n with
    | object n => rw [OutputFields, OutputFields, (ObjectNode.fields_aged hw₀ hw hn).1]
    | interface n => rw [OutputFields, OutputFields, (InterfaceNode.fields_aged hw₀ hw hn).1]
    | scalar | input | enum | union => exact Iff.rfl
  have hobjects : ∀ i, n = .interface i →
      (i.implementations.runIn w).1 = (i.implementations.runIn w₀).1 := by
    rintro i rfl
    exact (InterfaceNode.implementations_aged hw₀ hw hn).1
  have hinput : ∀ i, n = .input i → ((i.fields host).runIn w).1 = ((i.fields host).runIn w₀).1 := by
    rintro i rfl
    exact (InputNode.fields_aged hw₀ hw hn).1
  exact ⟨.of_same (fun fields ↦ (hfields fields).1) (fun i hi _ ↦ (hobjects i hi).symm.trans)
      fun i hi _ ↦ (hinput i hi).symm.trans,
    .of_same (fun fields ↦ (hfields fields).2) (fun i hi _ ↦ (hobjects i hi).trans)
      fun i hi _ ↦ (hinput i hi).trans⟩

end Workspace

/-- A node without interfaces leads to the types of its fields and of their arguments. -/
theorem ObjectNode.leads_iff {n : ObjectNode} (hi : n.interfaces = []) {fields : FieldMap}
    (hf : n.Kept w fields) {m : GraphNode} :
    w.Leads host (.object n) m ↔ m ∈ FieldMap.nodes fields := by
  rw [Workspace.leads_object_iff (congrArg Prod.fst (ObjectNode.runIn_fields_of_kept hf)), hi,
    List.map_nil, or_iff_left List.not_mem_nil]

/-! ## What the walk meets -/

theorem SchemaRoots.mem_nodes_iff {made : SchemaRoots} {n : GraphNode} :
    n ∈ made.nodes ↔ ∃ operation m, made.root? operation = some m ∧ n = .object m := by
  refine ⟨fun h ↦ ?_, ?_⟩
  · rcases List.mem_cons.1 h with rfl | h
    · exact ⟨.query, made.query, rfl, rfl⟩
    · obtain ⟨m, hm, rfl⟩ := List.mem_map.1 (Option.toList_map .. ▸ h)
      exact ⟨.mutation, m, Option.mem_toList.1 hm, rfl⟩
  · rintro ⟨operation, m, hm, rfl⟩
    cases operation with
    | query => exact List.mem_cons.2 (.inl (congrArg GraphNode.object (Option.some.inj hm).symm))
    | mutation =>
      have hm : made.mutation = some m := hm
      exact List.mem_cons_of_mem _ (by rw [hm]; exact List.mem_cons_self)

/-- The root types of a schema are told by their nodes. -/
theorem Schema.rootNodes_inj {schema schema' : Schema} (h : schema.rootNodes = schema'.rootNodes) :
    schema.query = schema'.query ∧ schema.mutation = schema'.mutation := by
  obtain ⟨hquery, hmutation⟩ := List.cons.inj h
  have hmutation : schema.mutation.map GraphNode.object = schema'.mutation.map GraphNode.object := by
    simpa using congrArg List.head? hmutation
  exact ⟨GraphNode.object.inj hquery,
    Option.map_injective (fun _ _ ↦ GraphNode.object.inj) hmutation⟩

section Walk

variable (hhost : host.Steady) (hw : w.Sound d) (hs : w.isOpen s = true)
include hhost hw hs

/-- The walk meets the roots, and nodes that were attained without them. -/
theorem mem_or_attains_of_reaches {schema : Schema} {w' : Workspace σ} {made : SchemaRoots}
    (h : (compileSchema host s roots).runIn w = (.ok schema, w'))
    (hroots : (compileRoots host s roots).runIn w = (.ok made, w₁)) {n : GraphNode}
    (hn : w₁.Reaches host made.nodes n) : n ∈ made.nodes ∨ w.Attains d host n := by
  have hlength := Workspace.lt_length_of_isOpen hs
  have hroots' := (compileRoots_renumber hw hhost hlength (.refl hw.coherent) hw.coherent roots).good
  have haged := (compileSchema_renumber hw hhost hlength (.refl hw.coherent) hw roots).left
  have hsound : w'.Sound d := hw.of_compileSchema hs h
  rw [hroots] at hroots'
  rw [h] at haged
  obtain ⟨made', w₁', hmade', -, hreached, -, htypes⟩ := compileSchema_ok hw hs h
  cases hroots.symm.trans hmade'
  obtain ⟨r, hr, hpath⟩ := hn
  induction hpath with
  | refl => exact .inl hr
  | @tail b c hpath hlead ih =>
    refine .inr ?_
    obtain ⟨hheld, hkept, hleads⟩ := htypes b ((hreached b).2 ⟨r, hr, hpath⟩)
    have hattains : w.Attains d host b → w.Attains d host c := by
      intro hb
      obtain ⟨ms, hms⟩ : ∃ ms, ∀ v, w'.Retains v → (b.successors host).runIn v = (.ok ms, v) :=
        hkept.runIn_successors
      have hrun : ((b.successors host).runIn w').1 = .ok ms :=
        congrArg Prod.fst (hms w' (.refl w'))
      refine ((hb.successors hw.coherent haged haged).good ms hrun).2.2 c ?_
      exact (GraphNode.mem_successors_iff hsound.coherent (.refl hsound.coherent) hheld hrun).2
        ((hleads c).1 hlead)
    rcases ih with hb | hb
    · cases hroots' made rfl b hb with
      | attained hb => exact hattains hb
      | root ha _ hf =>
        exact hf c ((ObjectNode.leads_iff rfl (.inr ⟨_, _, _, rfl, ha⟩)).1 hlead)
    · exact hattains hb

/-- Roots in two orders lead to the same nodes, and so does what is attained without them. -/
theorem leads_iff_of_perm (hperm : roots.Perm roots') {made : SchemaRoots}
    (hroots : (compileRoots host s roots).runIn w = (.ok made, w₁))
    (hroots' : (compileRoots host s roots').runIn w = (.ok made, w₁')) {n : GraphNode}
    (hn : n ∈ made.nodes ∨ w.Attains d host n) (m : GraphNode) :
    w₁.Leads host n m ↔ w₁'.Leads host n m := by
  have hlength := Workspace.lt_length_of_isOpen hs
  have hrun roots := compileRoots_renumber hw hhost hlength (.refl hw.coherent) hw.coherent roots
  have haged := (hrun roots).left
  have haged' := (hrun roots').left
  have hcounter := (hrun roots).good
  rw [hroots] at haged hcounter
  rw [hroots'] at haged'
  have hattains (hn : w.Attains d host n) : w₁.Leads host n m ↔ w₁'.Leads host n m :=
    (hn.leads_aged hw.coherent haged).trans (hn.leads_aged hw.coherent haged').symm
  refine hn.elim (fun hn ↦ ?_) hattains
  cases hcounter made rfl n hn with
  | attained hn => exact hattains hn
  | root =>
    obtain ⟨operation, m', hm', hnode⟩ := SchemaRoots.mem_nodes_iff.1 hn
    cases hnode
    obtain ⟨fields, hgather, hmade⟩ := compileRoots_root hw hlength hroots
    obtain ⟨fields', hgather', hmade'⟩ := compileRoots_root hw hlength hroots'
    obtain ⟨other, hother, hsame⟩ := gatherRoots_perm hhost hperm hgather
    cases hgather'.symm.trans hother
    obtain ⟨compiled, compiled', hkept, hkept', hfields⟩ :=
      RootFields.MadeInto.perm (hm' ▸ hmade operation) (hm' ▸ hmade' operation) (hsame operation)
    -- the types of the fields are the same, in another order
    rw [ObjectNode.leads_iff rfl hkept, ObjectNode.leads_iff rfl hkept']
    exact ((hfields.map Prod.snd).flatMap_right _).mem_iff

/-- The successors of a type of a schema can be told from the roots in another order as well. -/
theorem exists_successors_of_kept {schema : Schema} {w' : Workspace σ} {made : SchemaRoots}
    (h : (compileSchema host s roots).runIn w = (.ok schema, w'))
    (hroots' : (compileRoots host s roots').runIn w = (.ok made, w₁')) {n : GraphNode}
    (hn : n ∈ made.nodes ∨ w.Attains d host n) (hkept : n.Kept w') :
    ∃ ms, ((n.successors host).runIn w₁').1 = .ok ms := by
  have hlength := Workspace.lt_length_of_isOpen hs
  rcases hn with hn | hn
  · obtain ⟨operation, m, hm, rfl⟩ := SchemaRoots.mem_nodes_iff.1 hn
    obtain ⟨fields, -, hmade⟩ := compileRoots_root hw hlength hroots'
    obtain ⟨-, _, _, compiled, hid, hfind, -⟩ := hm ▸ hmade operation
    have hfields : (m.fields host).runIn w₁' = (.ok compiled, w₁') :=
      ObjectNode.runIn_fields_of_kept (.inr ⟨_, _, _, hid, hfind⟩)
    exact ⟨_, congrArg Prod.fst (Compile.runIn_bind_of_ok hfields)⟩
  · have haged := (compileSchema_renumber hw hhost hlength (.refl hw.coherent) hw roots).left
    have haged' :=
      (compileRoots_renumber hw hhost hlength (.refl hw.coherent) hw.coherent roots').left
    rw [h] at haged
    rw [hroots'] at haged'
    obtain ⟨ms, hms⟩ : ∃ ms, ∀ v, w'.Retains v → (n.successors host).runIn v = (.ok ms, v) :=
      hkept.runIn_successors
    refine ⟨ms, ?_⟩
    rw [(hn.successors hw.coherent haged haged').outcome, hms w' (.refl w')]
    rfl

/-- **A schema in two orders.**  If a schema can be compiled of some roots, one can be compiled of
every permutation of them, and has the same types. -/
theorem exists_compileSchema_of_perm (hperm : roots.Perm roots') {schema : Schema}
    {w' : Workspace σ} (h : (compileSchema host s roots).runIn w = (.ok schema, w')) :
    ∃ schema' v', (compileSchema host s roots').runIn w = (.ok schema', v') ∧
      schema'.query = schema.query ∧ schema'.mutation = schema.mutation ∧
      schema.types.Perm schema'.types := by
  obtain ⟨made, w₁, hroots, hnodes, hreached, hnames, htypes⟩ := compileSchema_ok hw hs h
  obtain ⟨w₁', hroots'⟩ := compileRoots_perm hhost hw (Workspace.lt_length_of_isOpen hs) hperm hroots
  have hmet : ∀ n, w₁.Reaches host made.nodes n → n ∈ made.nodes ∨ w.Attains d host n := fun n ↦
    mem_or_attains_of_reaches hhost hw hs h hroots
  have hreaches : ∀ n, w₁.Reaches host made.nodes n ↔ w₁'.Reaches host made.nodes n := fun n ↦
    Workspace.reaches_iff_of_leads fun n hn ↦
      leads_iff_of_perm hhost hw hs hperm hroots hroots' (hmet n hn)
  have hmem n : w₁'.Reaches host made.nodes n ↔ n ∈ schema.types :=
    (hreaches n).symm.trans (hreached n).symm
  rcases hrun : (compileSchema host s roots').runIn w with ⟨e | schema', v'⟩
  · -- the walk from the permuted roots meets the same types, so nothing can block it
    cases compileSchema_error hw hs hroots' (congrArg Prod.fst hrun) with
    | clash ha hb hname hid =>
      have heq := List.inj_on_of_nodup_map hnames ((hmem _).1 ha) ((hmem _).1 hb) hname
      exact absurd (congrArg GraphNode.id heq) hid
    | successors hn he =>
      obtain ⟨ms, hms⟩ := exists_successors_of_kept hhost hw hs h hroots'
        (hmet _ ((hreaches _).2 hn)) (htypes _ ((hmem _).1 hn)).2.1
      cases he.symm.trans hms
  · obtain ⟨made', v₁, hmade', hnodes', hreached', hnames', -⟩ := compileSchema_ok hw hs hrun
    cases hroots'.symm.trans hmade'
    obtain ⟨hquery, hmutation⟩ := Schema.rootNodes_inj (hnodes'.trans hnodes.symm)
    refine ⟨schema', v', rfl, hquery, hmutation, ?_⟩
    refine (List.perm_ext_iff_of_nodup hnames.of_map hnames'.of_map).2 fun n ↦ ?_
    rw [← hmem, hreached']

end Walk

/-- **The order of roots does not matter.**  In every session of every run of a program whose
constructors always give the same instance: a schema can be compiled of a list of classes exactly if
one can be compiled of a permutation of the list.  The two schemas have the same root types, of
which the fields are, from then on, the same up to order: those that the roots have, each with its
declaration, its owner and its type.  And they have the same types. -/
theorem compileSchema_perm (hhost : host.Steady) (hw : w.Reachable d host) (hs : w.isOpen s = true)
    (hperm : roots.Perm roots') :
    ((∃ schema w₁, (compileSchema host s roots).runIn w = (.ok schema, w₁)) ↔
        ∃ schema w₁, (compileSchema host s roots').runIn w = (.ok schema, w₁)) ∧
      ∀ schema w₁ schema' w₁', (compileSchema host s roots).runIn w = (.ok schema, w₁) →
        (compileSchema host s roots').runIn w = (.ok schema', w₁') →
        schema'.query = schema.query ∧ schema'.mutation = schema.mutation ∧
        schema.types.Perm schema'.types ∧
        ∀ operation n, schema.root? operation = some n → ∃ fields fields' : FieldMap,
          fields.Serves host w s roots operation ∧ fields.Perm fields' ∧
          (∀ w₂, Relation.ReflTransGen (Step d host) w₁ w₂ →
            (n.fields host).runIn w₂ = (.ok fields, w₂)) ∧
          ∀ w₂, Relation.ReflTransGen (Step d host) w₁' w₂ →
            (n.fields host).runIn w₂ = (.ok fields', w₂) := by
  have hsound := hw.sound
  have hlength := Workspace.lt_length_of_isOpen hs
  refine ⟨⟨fun ⟨schema, w₁, h⟩ ↦ ?_, fun ⟨schema, w₁, h⟩ ↦ ?_⟩,
    fun schema w₁ schema' w₁' h h' ↦ ?_⟩
  · obtain ⟨schema', v', h', -⟩ := exists_compileSchema_of_perm hhost hsound hs hperm h
    exact ⟨schema', v', h'⟩
  · obtain ⟨schema', v', h', -⟩ := exists_compileSchema_of_perm hhost hsound hs hperm.symm h
    exact ⟨schema', v', h'⟩
  obtain ⟨other, v', hother, hquery, hmutation, htypes⟩ :=
    exists_compileSchema_of_perm hhost hsound hs hperm h
  cases h'.symm.trans hother
  refine ⟨hquery, hmutation, htypes, fun operation n hn ↦ ?_⟩
  have hn' : schema'.root? operation = some n := by
    rw [← hn]
    cases operation with
    | query => exact congrArg some hquery
    | mutation => exact hmutation
  obtain ⟨fields, hgather, hmade⟩ := compileSchema_root hsound hs h
  obtain ⟨fields', hgather', hmade'⟩ := compileSchema_root hsound hs h'
  obtain ⟨again, hagain, hsame⟩ := gatherRoots_perm hhost hperm hgather
  cases hgather'.symm.trans hagain
  obtain ⟨compiled, compiled', hkept, hkept', hcompiled⟩ :=
    RootFields.MadeInto.perm (hn ▸ hmade operation) (hn' ▸ hmade' operation) (hsame operation)
  -- what is kept for the root type is what is given from then on
  have hgiven {roots : List ClassRef} {gathered : RootFields} {schema : Schema} {v : Workspace σ}
      {compiled : FieldMap} (hgather : ((gatherRoots host s roots).runIn w).1 = .ok gathered)
      (h : (compileSchema host s roots).runIn w = (.ok schema, v))
      (hn : schema.root? operation = some n) (hkept : n.Kept v compiled) :
      compiled.Serves host w s roots operation ∧ ∀ w₂, Relation.ReflTransGen (Step d host) v w₂ →
        (n.fields host).runIn w₂ = (.ok compiled, w₂) := by
    obtain ⟨-, -, hok⟩ := compileSchema_rootFields hw hs (gatherRoots_served hhost hgather).1
    obtain ⟨known, hserves, hknown⟩ := (hok schema v h operation).2 n hn
    have hrun : (n.fields host).runIn v = (.ok compiled, v) := ObjectNode.runIn_fields_of_kept hkept
    cases (hknown v .refl).symm.trans hrun
    exact ⟨hserves, hknown⟩
  obtain ⟨hserves, hfirst⟩ := hgiven hgather h hn hkept
  obtain ⟨-, hsecond⟩ := hgiven hgather' h' hn' hkept'
  exact ⟨compiled, compiled', hserves, hcompiled, hfirst, hsecond⟩

/-! ### An instance -/

namespace Bulletin

/-- A root with a query and a mutation. -/
def news : ClassRef := .base ⟨1⟩ "News"

/-- A root with another query. -/
def weather : ClassRef := .base ⟨2⟩ "Weather"

/-- What both queries give. -/
def report : ClassRef := .base ⟨3⟩ "Report"

/-- The three classes. -/
def declared : Declarations := .ofClasses [news, weather, report] (by decide)

/-- A root field that gives a report. -/
def reporting (property : String) : FieldSpec where
  property
  type := some (.cls report)
  method := some ⟨0⟩

/-- The text of a report. -/
def text : FieldSpec where
  property := "text"
  type := some (.scalar .string)

/-- A session in which the classes and their fields are registered. -/
def workspace : Workspace Unit :=
  (((((((Workspace.openSession { host := () } {}).2.modifyRegistries 0
    (·.schemaRoot news {})).modifyRegistries 0
    (·.schemaRoot weather {})).modifyRegistries 0
    (·.objectType report {})).modifyRegistries 0
    (Registries.field report text).apply).modifyRegistries 0
    (Registries.rootField news (reporting "headline") .query).apply).modifyRegistries 0
    (Registries.rootField news (reporting "publish") .mutation).apply).modifyRegistries 0
    (Registries.rootField weather (reporting "forecast") .query).apply

theorem reachable : workspace.Reachable declared .idle := by
  have hreport : declared.classes report := by
    simp [declared, Declarations.ofClasses]
  have hobject : ∀ offered, Registries.Change declared offered (·.objectType report {}) :=
    fun _ ↦ .objectType hreport nofun
  have htext : ∀ offered, text.Within declared offered := by
    refine fun _ ↦ ⟨fun t ht ↦ ?_, nofun, nofun⟩
    cases ht
    exact .scalar .string
  have hreporting : ∀ property offered, (reporting property).Within declared offered := by
    refine fun _ _ ↦ ⟨fun t ht ↦ ?_, nofun, nofun⟩
    cases ht
    exact .cls hreport
  have hroots : Reachable declared .idle _ :=
    ((Reachable.opened () {}).registered (s := 0) rfl (.schemaRoot news {})).registered (s := 0) rfl
      (.schemaRoot weather {})
  have htype := (hroots.registered (s := 0) rfl (hobject _)).registered (s := 0) rfl
    (.field report (htext _))
  exact ((htype.registered (s := 0) rfl (.rootField news .query (hreporting _ _))).registered
    (s := 0) rfl (.rootField news .mutation (hreporting _ _))).registered (s := 0) rfl
    (.rootField weather .query (hreporting _ _))

end Bulletin

open Bulletin in
/-- Two roots in both orders: the fields of the query type change places. -/
theorem compileSchema_perm_bulletin :
    Host.Steady .idle ∧ workspace.Reachable declared .idle ∧ workspace.isOpen 0 = true ∧
      [news, weather].Perm [weather, news] ∧
      ∃ schema w₁ schema' w₁' fields fields',
        (compileSchema .idle 0 [news, weather]).runIn workspace = (.ok schema, w₁) ∧
        (compileSchema .idle 0 [weather, news]).runIn workspace = (.ok schema', w₁') ∧
        schema.types.Perm schema'.types ∧
        (schema.query.fields .idle).runIn w₁ = (.ok fields, w₁) ∧
        (schema'.query.fields .idle).runIn w₁' = (.ok fields', w₁') ∧
        FieldMap.Serves .idle workspace 0 [news, weather] .query fields ∧ fields.Perm fields' ∧
        OrderedMap.keys fields = ["headline", "forecast"] ∧
        OrderedMap.keys fields' = ["forecast", "headline"] := by
  have hhost : Host.Steady .idle := fun _ ↦ ⟨_, fun _ ↦ rfl⟩
  have hperm : [news, weather].Perm [weather, news] := .swap _ _ _
  obtain ⟨hiff, hsame⟩ := compileSchema_perm hhost reachable (s := 0) rfl hperm
  have hnames (roots : List ClassRef) (schema : Schema) (w₁ : Workspace Unit) (fields : FieldMap)
      (h : (compileSchema .idle 0 roots).runIn workspace = (.ok schema, w₁))
      (hf : (schema.query.fields .idle).runIn w₁ = (.ok fields, w₁)) :
      ((do (← compileSchema .idle 0 roots).query.fields .idle).runIn workspace).1.map
        OrderedMap.keys = .ok (OrderedMap.keys fields) := by
    rw [Compile.runIn_bind_of_ok h, hf]
    rfl
  have hcompiles : ((compileSchema .idle 0 [news, weather]).runIn workspace).1.toOption.map
      (fun schema ↦ schema.types.map GraphNode.name) =
        some ["Mutation", "Report", "String", "Query"] := by cbv
  rcases h : (compileSchema .idle 0 [news, weather]).runIn workspace with ⟨e | schema, w₁⟩
  · rw [h] at hcompiles
    cases hcompiles
  obtain ⟨schema', w₁', h'⟩ := hiff.1 ⟨schema, w₁, h⟩
  obtain ⟨hquery, -, htypes, hfields⟩ := hsame schema w₁ schema' w₁' h h'
  obtain ⟨fields, fields', hserves, hfieldsPerm, hfirst, hsecond⟩ := hfields .query schema.query rfl
  have hfirst := hfirst w₁ .refl
  have hsecond := hquery.symm ▸ hsecond w₁' .refl
  refine ⟨hhost, reachable, rfl, hperm, schema, w₁, schema', w₁', fields, fields', rfl, h', htypes,
    hfirst, hsecond, hserves, hfieldsPerm, ?_, ?_⟩
  · exact Except.ok.inj ((hnames _ schema w₁ fields h hfirst).symm.trans (by cbv))
  · exact Except.ok.inj ((hnames _ schema' w₁' fields' h' hsecond).symm.trans (by cbv))

end ApiGraph
