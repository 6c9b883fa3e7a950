import ApiGraph.Proofs.Compile.Beside
import ApiGraph.Proofs.Field.Binding
import ApiGraph.Proofs.Schema.RootSet

/-!
# One instance for each root

Compiling a schema makes one instance of every class that is listed as a root, in the order of the
list, and nothing else is constructed.  Root fields are then merged by operation and compiled for
the class that declares them, but each keeps the instance of the root that brings it.  The instance
replaces whatever source the field is resolved for, so none of the field's callables ever sees one.

What is constructed does not show in the state of the program, so here the program keeps a record of
it, which changes nothing else.

## What is here

* `Constructions` and `Host.recording`: the program with a record of what it constructs.
* `Registries.constructions`: what is recorded of instances made for classes.
* `RootsMade`: instances that have been made of a list of roots; with `gatherRoots_recording` for
  the fields that are gathered with them.
* `compileSchema_singletons`.
-/

set_option autoImplicit false

namespace ApiGraph

open Workspace (Reachable Step)

variable {σ : Type} {d : Declarations} {host : Host σ} {w w₁ : Workspace σ} {s : SessionId}
  {roots : List ClassRef}

/-! ## The record -/

/-- The constructors that were run, each with the instance that it gave, in order. -/
abbrev Constructions := List (ConstructorId × Instance)

/-- The same program, with a record of what it constructs. -/
def Host.recording (host : Host σ) : Host (σ × Constructions) where
  forced label := aside (host.forced label)
  construct id := do
    let served ← aside (host.construct id)
    modify fun st ↦ (st.1, st.2 ++ [(id, served)])
    return served
  discriminate id value context info := aside (host.discriminate id value context info)
  method id source args := unrecorded (host.method id source args)
  before hook data := unrecorded <$> aside (host.before hook data)
  after hook value data := unrecorded <$> aside (host.after hook value data)
  inject id data := aside (host.inject id data)
where
  /-- A process that constructs nothing. -/
  unrecorded {α : Type} (p : Process σ α) : Process (σ × Constructions) α :=
    p.within Prod.fst fun state st ↦ (state, st.2)

namespace Registries

/-- The constructor of a root, if it has one of its own. -/
def constructor? (r : Registries) (root : ClassRef) : Option ConstructorId :=
  (OrderedMap.find r.roots root.key).bind RootSpec.constructor

/-- What is recorded of instances made for classes: one construction for each that has a
constructor. -/
def constructions (r : Registries) (made : List (ClassRef × Instance)) : Constructions :=
  made.filterMap fun e ↦ (r.constructor? e.1).map fun id ↦ (id, e.2)

theorem constructions_nil (r : Registries) : r.constructions [] = [] := rfl

theorem constructions_singleton (r : Registries) (root : ClassRef) (served : Instance) :
    r.constructions [(root, served)] =
      ((r.constructor? root).map fun id ↦ (id, served)).toList := by
  rw [constructions, List.filterMap_cons, List.filterMap_nil]
  cases r.constructor? root <;> rfl

theorem constructions_append (r : Registries) (made made' : List (ClassRef × Instance)) :
    r.constructions (made ++ made') = r.constructions made ++ r.constructions made' :=
  List.filterMap_append

end Registries

/-- Instances have been made of the first of some roots, in order: one for each, by its constructor,
or an empty one of its class. -/
structure RootsMade (r : Registries) (roots : List ClassRef) (made : List (ClassRef × Instance)) :
    Prop where
  listed : made.map Prod.fst <+: roots
  plain : ∀ e ∈ made, r.constructor? e.1 = none → e.2 = { cls := e.1 }

theorem makeRoot_recording (host : Host σ) {root : ClassRef} {spec : RootSpec}
    (hspec : OrderedMap.find (w.registries s).roots root.key = some spec) (record : Constructions) :
    ∃ served state, (makeRoot host root spec).runIn w = (.ok served, { w with host := state }) ∧
      (makeRoot host.recording root spec).runIn (w.beside record) =
        (.ok served, Workspace.beside { w with host := state }
          (record ++ (w.registries s).constructions [(root, served)])) ∧
      ((w.registries s).constructor? root = none → served = { cls := root }) := by
  have hown : (w.registries s).constructor? root = spec.constructor := by
    rw [Registries.constructor?, hspec, Option.bind_some]
  simp only [makeRoot, Registries.constructions_singleton, hown]
  cases spec.constructor with
  | none =>
    refine ⟨_, w.host, rfl, ?_, fun _ ↦ rfl⟩
    rw [Option.map_none, Option.toList_none, List.append_nil]
    rfl
  | some id => exact ⟨_, _, rfl, rfl, fun h ↦ absurd h (Option.some_ne_none id)⟩

/-! ## Gathering -/

/-- The fields of roots hold instances that have been made: what is gathered was there before, or is
served by the instance that has been made of its root. -/
def RootFields.FilledFrom (before after : RootFields) (made : List (ClassRef × Instance)) : Prop :=
  ∀ operation, ∀ e ∈ after.of operation, e ∈ before.of operation ∨ (e.2.root, e.2.served) ∈ made

theorem RootFields.filledFrom_of_foldlM {root : ClassRef} {served : Instance}
    {own : OrderedMap String (ClassRef × FieldSpec)} {fields fields' : RootFields}
    (h : own.foldlM (fun fields (name, owner, spec) ↦
      RootFields.add fields name { root, owner, spec, served }) fields = .ok fields') :
    fields.FilledFrom fields' [(root, served)] := by
  refine (foldlM_invariant (p := fun f : RootFields ↦ fields.FilledFrom f [(root, served)])
    (q := fun _ ↦ True) ?_ (fun _ _ _ _ _ ↦ trivial) fun _ _ ↦ .inl).1 fields' h
  rintro f ⟨name, owner, spec⟩ - hf f' hadd operation e he
  rw [((f.add_spec name _).1 f' hadd operation).1] at he
  rcases List.mem_append.1 he with he | he
  · exact hf operation e he
  · cases List.mem_singleton.1 (List.mem_of_mem_filter he)
    exact .inr List.mem_cons_self

/-- One root more: its instance is made and recorded, and serves the fields that it brings. -/
theorem gatherRoot_recording (host : Host σ) {root : ClassRef} {spec : RootSpec}
    (hspec : OrderedMap.find (w.registries s).roots root.key = some spec) (fields : RootFields)
    (record : Constructions) :
    ∃ served state outcome, (gatherRoot host s fields root).runIn w =
        (outcome, { w with host := state }) ∧
      (gatherRoot host.recording s fields root).runIn (w.beside record) =
        (outcome, Workspace.beside { w with host := state }
          (record ++ (w.registries s).constructions [(root, served)])) ∧
      RootsMade (w.registries s) [root] [(root, served)] ∧
      ∀ fields', outcome = .ok fields' → fields.FilledFrom fields' [(root, served)] := by
  obtain ⟨served, state, hmake, hrecord, hplain⟩ := makeRoot_recording host hspec record
  refine ⟨served, state, rootFieldsOf (w.registries s) root >>= fun own ↦ own.foldlM
    (fun fields (name, owner, spec) ↦ fields.add name { root, owner, spec, served }) fields,
    ?_, ?_, ⟨List.prefix_rfl, List.forall_mem_singleton.2 hplain⟩, fun fields' h ↦ ?_⟩
  · rw [gatherRoot, Compile.runIn_get_bind]
    simp only [hspec]
    rw [Compile.runIn_bind_of_ok hmake]
    cases rootFieldsOf (w.registries s) root <;> rfl
  · rw [gatherRoot, Compile.runIn_get_bind]
    simp only [Workspace.registries_beside, hspec]
    rw [Compile.runIn_bind_of_ok hrecord]
    cases rootFieldsOf (w.registries s) root <;> rfl
  · obtain ⟨own, -, h⟩ := except_bind_eq_ok h
    exact RootFields.filledFrom_of_foldlM h

/-- What comes of gathering roots: instances have been made of the first of them and recorded; if
all fields could be gathered, of all of them, and every field that is new holds one. -/
structure RootFields.Gathering (host : Host σ) (w : Workspace σ) (s : SessionId)
    (roots : List ClassRef) (fields : RootFields) (record : Constructions)
    (made : List (ClassRef × Instance)) : Prop where
  instances : RootsMade (w.registries s) roots made
  recorded : (roots.foldlM (gatherRoot host.recording s) fields).runIn (w.beside record) =
    (((roots.foldlM (gatherRoot host s) fields).runIn w).1,
      ((roots.foldlM (gatherRoot host s) fields).runIn w).2.beside
        (record ++ (w.registries s).constructions made))
  filled : ∀ fields', ((roots.foldlM (gatherRoot host s) fields).runIn w).1 = .ok fields' →
    made.map Prod.fst = roots ∧ (∀ root ∈ roots, (w.registries s).isRoot root.key = true) ∧
      fields.FilledFrom fields' made

theorem gatherRoots_recording (host : Host σ) (w : Workspace σ) (s : SessionId)
    (roots : List ClassRef) (fields : RootFields) (record : Constructions) :
    ∃ made, RootFields.Gathering host w s roots fields record made := by
  induction roots generalizing w fields record with
  | nil =>
    refine ⟨[], ⟨List.prefix_rfl, List.forall_mem_nil _⟩, ?_, fun fields' h ↦ ?_⟩
    · rw [Registries.constructions_nil, List.append_nil]
      rfl
    · cases h
      exact ⟨rfl, List.forall_mem_nil _, fun _ _ ↦ .inl⟩
  | cons root rest ih =>
    cases hspec : OrderedMap.find (w.registries s).roots root.key with
    | none =>
      have hone : (gatherRoot host s fields root).runIn w =
          (.error (.assembly (.notSchemaRoot root.name)), w) := gatherRoot_of_none hspec fields
      have hone' : (gatherRoot host.recording s fields root).runIn (w.beside record) =
          (.error (.assembly (.notSchemaRoot root.name)), w.beside record) := by
        refine gatherRoot_of_none ?_ fields
        rw [Workspace.registries_beside, hspec]
      refine ⟨[], ⟨List.nil_prefix, List.forall_mem_nil _⟩, ?_, fun fields' h ↦ ?_⟩
      · rw [List.foldlM_cons, List.foldlM_cons, Compile.runIn_bind_of_error hone,
          Compile.runIn_bind_of_error hone', Registries.constructions_nil, List.append_nil]
      · rw [List.foldlM_cons, Compile.runIn_bind_of_error hone] at h
        cases h
    | some spec =>
      obtain ⟨served, state, outcome, hone, hone', hmade, hfilled⟩ :=
        gatherRoot_recording host hspec fields record
      cases outcome with
      | error e =>
        refine ⟨[(root, served)], ⟨⟨rest, rfl⟩, hmade.plain⟩, ?_, fun fields' h ↦ ?_⟩
        · rw [List.foldlM_cons, List.foldlM_cons, Compile.runIn_bind_of_error hone,
            Compile.runIn_bind_of_error hone']
        · rw [List.foldlM_cons, Compile.runIn_bind_of_error hone] at h
          cases h
      | ok fields₁ =>
        obtain ⟨made, hrest, hrecorded, hgathered⟩ := ih { w with host := state } fields₁
          (record ++ (w.registries s).constructions [(root, served)])
        have hconstructions := (w.registries s).constructions_append [(root, served)] made
        refine ⟨(root, served) :: made, ⟨?_, ?_⟩, ?_, fun fields' h ↦ ?_⟩
        · exact (List.prefix_append_right_inj [root]).2 hrest.listed
        · exact List.forall_mem_cons.2 ⟨hmade.plain _ List.mem_cons_self, hrest.plain⟩
        · rw [List.foldlM_cons, List.foldlM_cons, Compile.runIn_bind_of_ok hone,
            Compile.runIn_bind_of_ok hone', hrecorded, List.append_assoc]
          exact congrArg (fun more ↦ (_, Workspace.beside _ (record ++ more))) hconstructions.symm
        · rw [List.foldlM_cons, Compile.runIn_bind_of_ok hone] at h
          obtain ⟨hall, hroots, hnew⟩ := hgathered fields' h
          refine ⟨congrArg (root :: ·) hall, List.forall_mem_cons.2
            ⟨Option.isSome_iff_exists.2 ⟨spec, hspec⟩, hroots⟩, fun operation e he ↦ ?_⟩
          rcases hnew operation e he with he | he
          · exact (hfilled fields₁ rfl operation e he).imp_right fun he ↦
              List.mem_cons.2 (.inl (List.mem_singleton.1 he))
          · exact .inr (List.mem_cons_of_mem _ he)

/-! ## The schema -/

/-- After the root fields are gathered nothing is constructed any more. -/
theorem compileRoots_recording (host : Host σ) (w : Workspace σ) (s : SessionId)
    (roots : List ClassRef) :
    ∃ made, RootFields.Gathering host w s roots {} [] made ∧
      (compileRoots host.recording s roots).runIn (w.beside []) =
        (((compileRoots host s roots).runIn w).1,
          ((compileRoots host s roots).runIn w).2.beside
            ((w.registries s).constructions made)) := by
  obtain ⟨made, hmade⟩ := gatherRoots_recording host w s roots {} []
  refine ⟨made, hmade, ?_⟩
  have hgather : (gatherRoots host.recording s roots).runIn (w.beside []) =
      (((gatherRoots host s roots).runIn w).1, ((gatherRoots host s roots).runIn w).2.beside
        ([] ++ (w.registries s).constructions made)) := hmade.recorded
  rw [compileRoots, compileRoots]
  rcases hrun : (gatherRoots host s roots).runIn w with ⟨e | fields, w₀⟩ <;>
    rw [hrun, List.nil_append] at hgather
  · rw [Compile.runIn_bind_of_error hgather, Compile.runIn_bind_of_error hrun]
  · rw [Compile.runIn_bind_of_ok hgather, Compile.runIn_bind_of_ok hrun]
    exact Compile.Beside.ite (.throw _) (makeRoots_beside (fun _ ↦ rfl) s fields) w₀ _

/-- The record changes nothing, and it has what was constructed for the roots. -/
theorem compileSchema_recording (host : Host σ) (w : Workspace σ) (s : SessionId)
    (roots : List ClassRef) :
    ∃ made, RootFields.Gathering host w s roots {} [] made ∧
      (compileSchema host.recording s roots).runIn (w.beside []) =
        (((compileSchema host s roots).runIn w).1,
          ((compileSchema host s roots).runIn w).2.beside
            ((w.registries s).constructions made)) := by
  obtain ⟨made, hmade, hroots⟩ := compileRoots_recording host w s roots
  refine ⟨made, hmade, ?_⟩
  rcases hrun : (compileRoots host s roots).runIn w with ⟨e | r, w₁⟩ <;> rw [hrun] at hroots
  · rw [runIn_compileSchema_of_error hroots, runIn_compileSchema_of_error hrun]
  have hbeside : Compile.Beside (collectTypes host.recording r.nodes) (collectTypes host r.nodes) :=
    collectTypes_beside (fun _ ↦ rfl) r.nodes
  have htypes := hbeside w₁ ((w.registries s).constructions made)
  rcases hcollect : (collectTypes host r.nodes).runIn w₁ with ⟨e | types, w₂⟩ <;>
    rw [hcollect] at htypes
  · rw [runIn_compileSchema_of_blocked hroots htypes, runIn_compileSchema_of_blocked hrun hcollect]
    rfl
  · rw [runIn_compileSchema_of_types hroots htypes, runIn_compileSchema_of_types hrun hcollect]
    rfl

/-- A field that holds an instance resolves in the same way for any two sources, whatever program
resolves it: with the instance in the place of the source, nothing gets to see one. -/
theorem FieldResolver.call_of_root {f : FieldResolver} {i : Instance} (h : f.root = some i)
    (program : Host σ) (source source' : HostValue) (args : OrderedMap String HostValue)
    (context : Option RequestContext) (info : ResolveInfo) (join : HookJoin σ) :
    f.call program source args context info join =
      f.call program source' args context info join := by
  have hdata : f.dataFor source args context info = f.dataFor source' args context info := by
    rw [dataFor, dataFor, h, Option.map_some, Option.getD_some, Option.getD_some]
  rw [call, call, hdata]

/-- An operation has of every root the fields that it brings, with the instance that has been made
of it, and no others. -/
structure FieldMap.Shares (r : Registries) (made : List (ClassRef × Instance))
    (operation : Operation) (fields : FieldMap) : Prop where
  nodup : (OrderedMap.keys fields).Nodup
  all : ∀ e ∈ made, ∀ name, r.Contributes e.1 operation name →
    ∃ f, (name, f) ∈ fields ∧ f.resolver.root = some e.2
  only : ∀ name f, (name, f) ∈ fields → ∃ e ∈ made, r.Contributes e.1 operation name ∧
    f.resolver.root = some e.2

/-- Two entries that bring a field of one name to an operation are one and the same. -/
theorem RootFields.Gathered.eq_of_contributes {r : Registries} {fields : RootFields}
    (hg : fields.Gathered r roots) {made : List (ClassRef × Instance)}
    (hmade : made.map Prod.fst = roots) {e e' : ClassRef × Instance} (he : e ∈ made)
    (he' : e' ∈ made) {operation : Operation} {name : String}
    (h : r.Contributes e.1 operation name) (h' : r.Contributes e'.1 operation name) : e = e' := by
  by_contra hne
  have hpair : [e, e'].Subperm made :=
    (show [e, e'].Nodup by simpa using hne).subperm (by simp [he, he'])
  obtain ⟨pair, hperm, hsub⟩ := hpair
  have hroots : [e.1, e'.1].Subperm roots :=
    hmade ▸ ⟨pair.map Prod.fst, hperm.map Prod.fst, hsub.map Prod.fst⟩
  obtain ⟨first, second, hc⟩ := Registries.exists_collision hroots h h'
  exact hg.apart name first second hc

/-- What gathered root fields are compiled to holds the instances that have been made. -/
theorem FieldMap.Shares.of_gathered (hw : w.Coherent d) (hs : s < w.sessions.length)
    {fields : RootFields} (hfields : fields.Within d (w.Offers d))
    (hg : fields.Gathered (w.registries s) roots) {made : List (ClassRef × Instance)}
    (hmade : made.map Prod.fst = roots) (hfilled : RootFields.FilledFrom {} fields made)
    {operation : Operation} {compiled : FieldMap}
    (h : List.Forall₂ (RootField.CompilesTo host w s) (fields.of operation) compiled) :
    compiled.Shares (w.registries s) made operation := by
  have hkeys := keys_of_compilesTo h
  have hmem : ∀ e ∈ fields.of operation, (e.2.root, e.2.served) ∈ made := fun e he ↦
    (hfilled operation e he).resolve_left fun h ↦ by cases operation <;> cases h
  have hwithin : ∀ e ∈ fields.of operation, e.2.spec.Within d (w.Offers d) := by
    cases operation with
    | query => exact hfields.query
    | mutation => exact hfields.mutation
  have hholds : ∀ e ∈ fields.of operation, ∀ e', RootField.CompilesTo host w s e e' →
      e'.2.resolver.root = some e.2.served := fun e he e' hcompiled ↦
    (compileField_parts hw hs (.refl hw) (hwithin e he) (Prod.ext hcompiled.2 rfl)).2.1
  refine ⟨hkeys ▸ hg.nodup operation, fun one hone name hc ↦ ?_, fun name f hf ↦ ?_⟩
  · have hroot : one.1 ∈ roots := hmade ▸ List.mem_map_of_mem hone
    obtain ⟨e, he, rfl⟩ := List.mem_map.1 (hg.all hroot hc)
    obtain ⟨⟨name', f⟩, hf, hcompiled⟩ := exists_right_of_forall₂ h he
    obtain rfl : name' = e.1 := hcompiled.1
    obtain rfl : (e.2.root, e.2.served) = one :=
      hg.eq_of_contributes hmade (hmem e he) hone (hg.contributes he) hc
    exact ⟨f, hf, hholds e he _ hcompiled⟩
  · obtain ⟨e, he, hcompiled⟩ := exists_left_of_forall₂ h hf
    obtain rfl : name = e.1 := hcompiled.1
    exact ⟨_, hmem e he, hg.contributes he, hholds e he _ hcompiled⟩

/-- **One instance for each root.**  In every run, for every program and every list of classes:
compiling a schema of them constructs instances of the first of them, in order, each by the
constructor of its class, and runs no other constructor; where it succeeds, of all of them.  Of
every root type the fields, from then on, are those that the roots have for its operation, whether
declared by them or inherited; each holds the one instance of its root, and resolves in the same way
for any two sources, whatever program resolves it, one that keeps an account of all it is shown
included. -/
theorem compileSchema_singletons (hw : w.Reachable d host) (hs : w.isOpen s = true)
    (roots : List ClassRef) :
    ∃ made, RootsMade (w.registries s) roots made ∧
      (compileSchema host.recording s roots).runIn (w.beside []) =
        (((compileSchema host s roots).runIn w).1,
          ((compileSchema host s roots).runIn w).2.beside ((w.registries s).constructions made)) ∧
      ∀ schema w₁, (compileSchema host s roots).runIn w = (.ok schema, w₁) →
        made.map Prod.fst = roots ∧ ∀ operation,
          (∀ e ∈ made, ∀ name, (w.registries s).Contributes e.1 operation name →
            (schema.root? operation).isSome = true) ∧
          ∀ n, schema.root? operation = some n → ∃ fields : FieldMap,
            (∀ w₂, Relation.ReflTransGen (Step d host) w₁ w₂ →
              (n.fields host).runIn w₂ = (.ok fields, w₂)) ∧
            fields.Shares (w.registries s) made operation ∧
            ∀ name f, (name, f) ∈ fields → ∀ {τ : Type} (program : Host τ) (source source') args
              context info join, f.resolver.call program source args context info join =
                f.resolver.call program source' args context info join := by
  have hsound := hw.sound
  have hlength := Workspace.lt_length_of_isOpen hs
  obtain ⟨made, hgathering, hrecorded⟩ := compileSchema_recording host w s roots
  refine ⟨made, hgathering.instances, hrecorded, fun schema w₁ h ↦ ?_⟩
  obtain ⟨fields, hgather, hmadeInto⟩ := compileSchema_root hsound hs h
  obtain ⟨hmade, hroots, hfilled⟩ := hgathering.filled fields hgather
  have hgathered := (RootFields.gatherRoots_gathered host hroots).1 fields hgather
  have hfields := (gatherRoots_spec hsound.coherent s roots).2 fields hgather
  refine ⟨hmade, fun operation ↦ ⟨fun e he name hc ↦ ?_, fun n hn ↦ ?_⟩⟩
  · have hname := hgathered.all (hmade ▸ List.mem_map_of_mem he) hc
    have hinto := hmadeInto operation
    cases hroot : schema.root? operation with
    | some n => rfl
    | none =>
      rw [hroot] at hinto
      have hnone : fields.of operation = [] := hinto
      rw [hnone] at hname
      exact absurd hname List.not_mem_nil
  · have hinto := hmadeInto operation
    rw [hn] at hinto
    obtain ⟨-, serial, m, compiled, hid, hfind, hcompiled⟩ := hinto
    have hshares : compiled.Shares (w.registries s) made operation :=
      .of_gathered hsound.coherent hlength hfields hgathered hmade hfilled hcompiled
    refine ⟨compiled, fun w₂ hsteps ↦ ?_, hshares, fun name f hf τ program source source' args
      context info join ↦ ?_⟩
    · exact ObjectNode.runIn_fields_of_root (hsound.of_compileSchema hs h) hsteps hid hfind
    · obtain ⟨e, -, -, hroot⟩ := hshares.only name f hf
      exact FieldResolver.call_of_root hroot program source source' args context info join

/-! ### An instance -/

namespace Greetings

/-- What the constructor of the younger class gives. -/
def greeter : Instance := { cls := .base ⟨0⟩ "" }

/-- A session in which a class with a constructor inherits its greeting. -/
def hosted : Workspace Unit :=
  (((Workspace.openSession { host := () } {}).2.modifyRegistries 0
    (·.schemaRoot root { constructor := some ⟨7⟩ })).modifyRegistries 0
    (Registries.rootField base hello .query).apply)

theorem reachable_hosted : hosted.Reachable declared .idle := by
  have hhello : ∀ offered, hello.Within declared offered := by
    refine fun _ ↦ ⟨fun t ht ↦ ?_, nofun, nofun⟩
    cases ht
    exact .scalar .string
  have hroot : Reachable declared .idle _ :=
    (Reachable.opened () {}).registered (s := 0) rfl (.schemaRoot root { constructor := some ⟨7⟩ })
  exact hroot.registered (s := 0) rfl (.rootField base .query (hhello _))

end Greetings

open Greetings in
/-- The greeting that the younger class inherits holds the instance that its constructor gave, which
is the only one that was run. -/
theorem compileSchema_singletons_greetings :
    hosted.Reachable declared .idle ∧ hosted.isOpen 0 = true ∧
      ((compileSchema Host.idle.recording 0 [root]).runIn (hosted.beside [])).2.host.2 =
        [(⟨7⟩, greeter)] ∧
      ∃ schema w₁ n fields f, (compileSchema .idle 0 [root]).runIn hosted = (.ok schema, w₁) ∧
        schema.root? .query = some n ∧ (n.fields .idle).runIn w₁ = (.ok fields, w₁) ∧
        ("hello", f) ∈ fields ∧ f.resolver.root = some greeter := by
  have hrecord : ((compileSchema Host.idle.recording 0 [root]).runIn (hosted.beside [])).2.host.2 =
      [(⟨7⟩, greeter)] := by cbv
  have hcompiles : ((compileSchema .idle 0 [root]).runIn hosted).1.toOption.isSome = true := by cbv
  refine ⟨reachable_hosted, rfl, hrecord, ?_⟩
  obtain ⟨made, -, hrecorded, hok⟩ := compileSchema_singletons reachable_hosted (s := 0) rfl [root]
  rcases hrun : (compileSchema .idle 0 [root]).runIn hosted with ⟨e | schema, w₁⟩ <;>
    rw [hrun] at hcompiles
  · cases hcompiles
  obtain ⟨hmade, hoperations⟩ := hok schema w₁ hrun
  -- one instance has been made, and it is the one on record
  obtain ⟨⟨first, served⟩, rfl, rfl⟩ := List.map_eq_singleton_iff.1 hmade
  rw [hrecorded, Registries.constructions_singleton] at hrecord
  obtain rfl : served = greeter := by
    cases hrecord
    rfl
  have hhello : (hosted.registries 0).Contributes root .query "hello" := by
    have hspec : { hello with exposure := some .query } ∈ (hosted.registries 0).rootSpecs base :=
      List.mem_cons_self
    exact ⟨base, _, .older (by decide) (.here hspec rfl []), rfl⟩
  obtain ⟨hsome, hfields⟩ := hoperations .query
  obtain ⟨n, hn⟩ := Option.isSome_iff_exists.1 (hsome _ List.mem_cons_self "hello" hhello)
  obtain ⟨fields, hkept, hshares, -⟩ := hfields n hn
  obtain ⟨f, hf, hroot⟩ := hshares.all _ List.mem_cons_self "hello" hhello
  exact ⟨schema, w₁, n, fields, f, rfl, hn, hkept w₁ .refl, hf, hroot⟩

end ApiGraph
