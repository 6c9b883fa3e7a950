import ApiGraph.Proofs.Schema.Again
import ApiGraph.Proofs.Schema.RootTypes

/-!
# The set of root fields

The root fields of a list of classes are gathered one class after the other, and those that come
later meet those that are there.  But since two that meet are refused in whatever order they come,
the fields that are gathered are a matter of which classes are listed only: the same entries are
gathered of a list and of every permutation of it, or neither can be gathered.

This needs constructors that always give the same instance, since the instance that serves a field
is part of it.

## What is here

* `Registries.exists_collision`, `Registries.Collision.of_perm`: two root fields are in each other's
  way in every order.
* `Workspace.ServedBy`: the instance that serves the fields of a root, and `gatherRoots_served`.
* `RootFields.Gathered.mem_iff`: what is gathered, read off the registries.
* `gatherRoots_perm`: a list of classes and a permutation of it.
-/

set_option autoImplicit false

namespace ApiGraph

variable {σ : Type} {host : Host σ} {w w₁ : Workspace σ} {s : SessionId}
  {r : Registries} {roots roots' : List ClassRef}

/-! ## Collisions -/

namespace Registries

/-- Two entries of a list that have a field of one name are in each other's way in either order. -/
theorem exists_collision {first second : ClassRef} {operation : Operation} {name : String}
    (h : [first, second].Subperm roots) (hfirst : r.Contributes first operation name)
    (hsecond : r.Contributes second operation name) :
    ∃ first second, r.Collision roots name first second := by
  obtain ⟨pair, hpair, hentries⟩ := h
  rcases List.perm_pair.1 hpair with rfl | rfl
  · exact ⟨_, _, .entries hentries hfirst hsecond⟩
  · exact ⟨_, _, .entries hentries hsecond hfirst⟩

/-- Root fields that are in each other's way are so in every order of the roots. -/
theorem Collision.of_perm (h : roots.Perm roots') {name first second : String}
    (hc : r.Collision roots name first second) :
    ∃ first second, r.Collision roots' name first second := by
  cases hc with
  | own hroot howner htwice => exact ⟨_, _, .own (h.mem_iff.1 hroot) howner htwice⟩
  | entries hentries hfirst hsecond =>
    exact exists_collision (hentries.subperm.trans h.subperm) hfirst hsecond

/-- The youngest class of a lineage that declares a root field of a name is one class, and if no
class declares two of one name, the field is one field. -/
theorem Youngest.unique {name : String} {lineage : List ClassRef} {owner owner' : ClassRef}
    {spec spec' : FieldSpec} (hnames : ∀ c ∈ lineage, (r.rootNames c).Nodup)
    (h : r.Youngest name lineage owner spec) (h' : r.Youngest name lineage owner' spec') :
    owner = owner' ∧ spec = spec' := by
  induction h with
  | here hspec hname older =>
    cases h' with
    | here hspec' hname' =>
      exact ⟨rfl, List.inj_on_of_nodup_map (hnames _ List.mem_cons_self) hspec hspec'
        (hname.trans hname'.symm)⟩
    | older hnone => exact absurd (List.mem_map.2 ⟨_, hspec, hname⟩) hnone
  | older hnone _ ih =>
    cases h' with
    | here hspec' hname' => exact absurd (List.mem_map.2 ⟨_, hspec', hname'⟩) hnone
    | older _ h' => exact ih (fun c hc ↦ hnames c (List.mem_cons_of_mem _ hc)) h'

end Registries

/-! ## Instances of the roots -/

/-- A class is a root of a session, and an instance is the one that serves its fields. -/
def Workspace.ServedBy (host : Host σ) (w : Workspace σ) (s : SessionId) (root : ClassRef)
    (served : Instance) : Prop :=
  ∃ spec, OrderedMap.find (w.registries s).roots root.key = some spec ∧
    ((makeRoot host root spec).runIn w).1 = .ok served

theorem Workspace.ServedBy.unique {root : ClassRef} {served served' : Instance}
    (h : w.ServedBy host s root served) (h' : w.ServedBy host s root served') :
    served = served' := by
  obtain ⟨spec, hspec, hmake⟩ := h
  obtain ⟨spec', hspec', hmake'⟩ := h'
  cases hspec.symm.trans hspec'
  exact Except.ok.inj (hmake.symm.trans hmake')

theorem Workspace.ServedBy.isRoot {root : ClassRef} {served : Instance}
    (h : w.ServedBy host s root served) : (w.registries s).isRoot root.key = true :=
  Option.isSome_iff_exists.2 (h.imp fun _ ↦ And.left)

/-- What a steady program serves a root with does not depend on the state it is in. -/
theorem Workspace.servedBy_ofHost (hhost : host.Steady) (w : Workspace σ) (state : σ)
    {root : ClassRef} {served : Instance} :
    Workspace.ServedBy host { w with host := state } s root served ↔
      w.ServedBy host s root served := by
  refine exists_congr fun spec ↦ and_congr_right fun _ ↦ ?_
  rw [makeRoot]
  split
  · rename_i id _
    obtain ⟨one, hone⟩ := hhost id
    rw [Compile.runIn_ofHost, Compile.runIn_ofHost, hone, hone]
  · rfl

/-- Every root field that has been gathered is served by the instance of its root. -/
def RootFields.Served (host : Host σ) (w : Workspace σ) (s : SessionId) (fields : RootFields) :
    Prop :=
  ∀ operation, ∀ e ∈ fields.of operation, w.ServedBy host s e.2.root e.2.served

theorem gatherRoot_served {fields fields' : RootFields} {root : ClassRef}
    (hf : fields.Served host w s) (h : (gatherRoot host s fields root).runIn w = (.ok fields', w₁)) :
    (w.registries s).isRoot root.key = true ∧ fields'.Served host w s ∧
      ∃ state, w₁ = { w with host := state } := by
  cases hspec : OrderedMap.find (w.registries s).roots root.key with
  | none =>
    rw [gatherRoot_of_none hspec] at h
    cases h
  | some spec =>
    obtain ⟨served, state, hmake, hrun⟩ := gatherRoot_of_some host hspec fields
    have hserved : w.ServedBy host s root served := ⟨spec, hspec, hmake⟩
    obtain ⟨hok, hstate⟩ := Prod.mk.inj (hrun.symm.trans h)
    obtain ⟨own, -, hok⟩ := except_bind_eq_ok hok
    refine ⟨hserved.isRoot, ?_, state, hstate.symm⟩
    refine (foldlM_invariant (p := fun f : RootFields ↦ f.Served host w s) (q := fun _ ↦ True)
      ?_ (fun _ _ _ _ _ ↦ trivial) hf).1 fields' hok
    rintro f ⟨name, owner, spec⟩ - hf f' hadd operation e he
    rw [((f.add_spec name _).1 f' hadd operation).1] at he
    rcases List.mem_append.1 he with he | he
    · exact hf operation e he
    · cases List.mem_singleton.1 (List.mem_of_mem_filter he)
      exact hserved

/-- Root fields are gathered of roots only, and served by their instances. -/
theorem gatherRoots_served (hhost : host.Steady) {fields : RootFields}
    (h : ((gatherRoots host s roots).runIn w).1 = .ok fields) :
    (∀ root ∈ roots, (w.registries s).isRoot root.key = true) ∧ fields.Served host w s := by
  have hall : ∀ (roots : List ClassRef) (state : σ) (before : RootFields),
      before.Served host w s →
      ((roots.foldlM (gatherRoot host s) before).runIn { w with host := state }).1 = .ok fields →
      (∀ root ∈ roots, (w.registries s).isRoot root.key = true) ∧ fields.Served host w s := by
    intro roots
    induction roots with
    | nil => exact fun state before hb h ↦ ⟨List.forall_mem_nil _, Except.ok.inj h ▸ hb⟩
    | cons root rest ih =>
      intro state before hb h
      rw [List.foldlM_cons] at h
      obtain ⟨next, w₁, hone, h⟩ := Compile.runIn_bind_eq_ok (Prod.ext h rfl)
      obtain ⟨hroot, hnext, state', rfl⟩ := gatherRoot_served
        (fun operation e he ↦ (w.servedBy_ofHost hhost state).2 (hb operation e he)) hone
      obtain ⟨hrest, hserved⟩ := ih state' next
        (fun operation e he ↦ (w.servedBy_ofHost hhost state).1 (hnext operation e he))
        (congrArg Prod.fst h)
      exact ⟨List.forall_mem_cons.2 ⟨hroot, hrest⟩, hserved⟩
  exact hall roots w.host {} (fun operation ↦ by cases operation <;> exact List.forall_mem_nil _) h

/-! ## The entries -/

namespace RootFields

/-- An entry of an operation can be said from the list of the roots, whatever its order: it is the
field of the youngest class of a root's lineage, served by the instance of that root. -/
theorem Gathered.mem_iff {fields : RootFields} (hg : fields.Gathered (w.registries s) roots)
    (hserved : fields.Served host w s) {operation : Operation} {name : String}
    {field : RootField} :
    (name, field) ∈ fields.of operation ↔ field.root ∈ roots ∧
      (w.registries s).Youngest name field.root.lineage field.owner field.spec ∧
      field.spec.isUnder operation = true ∧ w.ServedBy host s field.root field.served := by
  refine ⟨fun h ↦ ?_, fun ⟨hroot, hyoungest, hunder, hserve⟩ ↦ ?_⟩
  · obtain ⟨hroot, hyoungest, hunder⟩ := hg.youngest operation _ h
    exact ⟨hroot, hyoungest, hunder, hserved operation _ h⟩
  · have hcontributes : (w.registries s).Contributes field.root operation name :=
      ⟨field.owner, field.spec, hyoungest, hunder⟩
    obtain ⟨⟨name', other⟩, hmem, rfl⟩ := List.mem_map.1 (hg.all hroot hcontributes)
    obtain ⟨hroot', hyoungest', -⟩ := hg.youngest operation _ hmem
    -- two roots of which each brings the name would be in each other's way
    have hsame : other.root = field.root := by
      by_contra hne
      have hpair : [other.root, field.root].Subperm roots :=
        (show [other.root, field.root].Nodup by simpa using hne).subperm (by simp [hroot, hroot'])
      obtain ⟨first, second, hc⟩ :=
        Registries.exists_collision hpair (hg.contributes hmem) hcontributes
      exact hg.apart _ first second hc
    have hnames : ∀ c ∈ field.root.lineage, ((w.registries s).rootNames c).Nodup := fun c hc ↦
      List.nodup_iff_forall_not_duplicate.2 fun name htwice ↦
        hg.apart name _ _ (.own hroot hc htwice)
    have hserve' := hserved operation _ hmem
    obtain ⟨root, owner, spec, served⟩ := field
    obtain ⟨root', owner', spec', served'⟩ := other
    cases hsame
    obtain ⟨rfl, rfl⟩ := hyoungest.unique hnames hyoungest'
    cases hserve.unique hserve'
    exact hmem

/-- What is gathered of two lists of the same roots is the same, up to order. -/
theorem Gathered.perm {fields fields' : RootFields} (h : roots.Perm roots')
    (hg : fields.Gathered (w.registries s) roots) (hserved : fields.Served host w s)
    (hg' : fields'.Gathered (w.registries s) roots') (hserved' : fields'.Served host w s)
    (operation : Operation) : (fields.of operation).Perm (fields'.of operation) := by
  refine (List.perm_ext_iff_of_nodup (hg.nodup operation).of_map (hg'.nodup operation).of_map).2 ?_
  rintro ⟨name, field⟩
  rw [hg.mem_iff hserved, hg'.mem_iff hserved', h.mem_iff]

end RootFields

/-- **The order of roots does not matter to gathering.**  What can be gathered of a list of classes
can be gathered of every permutation of it, and it is the same up to order. -/
theorem gatherRoots_perm (hhost : host.Steady) (h : roots.Perm roots') {fields : RootFields}
    (hrun : ((gatherRoots host s roots).runIn w).1 = .ok fields) :
    ∃ fields', ((gatherRoots host s roots').runIn w).1 = .ok fields' ∧
      ∀ operation, (fields.of operation).Perm (fields'.of operation) := by
  obtain ⟨hroots, hserved⟩ := gatherRoots_served hhost hrun
  have hg := (RootFields.gatherRoots_gathered host hroots).1 fields hrun
  obtain ⟨hok, herr⟩ := RootFields.gatherRoots_gathered host
    fun root hroot ↦ hroots root (h.mem_iff.2 hroot)
  cases hrun' : ((gatherRoots host s roots').runIn w).1 with
  | error e =>
    obtain ⟨name, first, second, hc, -⟩ := herr e hrun'
    obtain ⟨first', second', hc⟩ := hc.of_perm h.symm
    exact absurd hc (hg.apart name first' second')
  | ok fields' =>
    exact ⟨fields', rfl, hg.perm h hserved (hok fields' hrun') (gatherRoots_served hhost hrun').2⟩

end ApiGraph
