import ApiGraph.Proofs.Schema.Roots
import Mathlib.Data.List.Duplicate

/-!
# The root fields of a list of classes

A class listed as a root brings the root fields of its whole lineage, and of two that are exposed
under one name the one of the younger class.  Root fields get in each other's way in two cases: when
one class declares both, and when two entries of the list bring both to one operation.

## What is here

* `Registries.Youngest`, `Registries.Contributes`: what a root brings, read off the registries.
* `Registries.Collision`: two root fields in each other's way, with the classes that the error
  names.
* `rootFieldsOf_spec`: gathering the lineage of one root.
* `RootFields.Gathered`: gathering roots, with `RootFields.Gathered.concat` for one root more and
  `gatherRoots_gathered` for all of them.
-/

set_option autoImplicit false

namespace ApiGraph

variable {σ : Type}

/-! ## What a root brings -/

/-- A root field is exposed under an operation. -/
def FieldSpec.isUnder (f : FieldSpec) (operation : Operation) : Bool :=
  f.exposure.any (·.includes operation)

namespace Registries

/-- The root fields that a class declares itself, in order. -/
def rootSpecs (r : Registries) (owner : ClassRef) : List FieldSpec :=
  (OrderedMap.values (r.fields.getAll owner.key)).filter (·.exposure.isSome)

/-- The names under which a class itself exposes root fields. -/
def rootNames (r : Registries) (owner : ClassRef) : List String :=
  (r.rootSpecs owner).map FieldSpec.exposedName

/-- The first class of a lineage, from the youngest on, that declares a root field of a name, with
the field. -/
inductive Youngest (r : Registries) (name : String) : List ClassRef → ClassRef → FieldSpec → Prop
  | here {owner : ClassRef} {spec : FieldSpec} (hspec : spec ∈ r.rootSpecs owner)
    (hname : spec.exposedName = name) (older : List ClassRef) :
    Youngest r name (owner :: older) owner spec
  | older {younger : ClassRef} (hnone : name ∉ r.rootNames younger) {older : List ClassRef}
    {owner : ClassRef} {spec : FieldSpec} (h : Youngest r name older owner spec) :
    Youngest r name (younger :: older) owner spec

/-- A root has a field of a name for an operation. -/
def Contributes (r : Registries) (root : ClassRef) (operation : Operation) (name : String) :
    Prop :=
  ∃ owner spec, r.Youngest name root.lineage owner spec ∧ spec.isUnder operation = true

/-- Two root fields of one name that get in each other's way, for a list of roots: both are declared
by one class, or two entries have them for one operation. -/
inductive Collision (r : Registries) (roots : List ClassRef) : String → String → String → Prop
  | own {root owner : ClassRef} {name : String} (hroot : root ∈ roots)
    (howner : owner ∈ root.lineage) (htwice : (r.rootNames owner).Duplicate name) :
    Collision r roots name owner.name owner.name
  | entries {first second : ClassRef} {operation : Operation} {name : String}
    (hentries : [first, second].Sublist roots) (hfirst : r.Contributes first operation name)
    (hsecond : r.Contributes second operation name) :
    Collision r roots name first.name second.name

theorem youngest_cons_iff {r : Registries} {name : String} {cls : ClassRef}
    {older : List ClassRef} {owner : ClassRef} {spec : FieldSpec} :
    r.Youngest name (cls :: older) owner spec ↔
      (owner = cls ∧ spec ∈ r.rootSpecs cls ∧ spec.exposedName = name) ∨
        name ∉ r.rootNames cls ∧ r.Youngest name older owner spec := by
  refine ⟨fun h ↦ ?_, ?_⟩
  · cases h with
    | here hspec hname => exact .inl ⟨rfl, hspec, hname⟩
    | older hnone h => exact .inr ⟨hnone, h⟩
  · rintro (⟨rfl, hspec, hname⟩ | ⟨hnone, h⟩)
    · exact .here hspec hname older
    · exact .older hnone h

theorem Collision.mono {r : Registries} {roots roots' : List ClassRef}
    (h : roots.Sublist roots') {name first second : String}
    (hc : r.Collision roots name first second) : r.Collision roots' name first second := by
  cases hc with
  | own hroot howner htwice => exact .own (h.subset hroot) howner htwice
  | entries hentries hfirst hsecond => exact .entries (hentries.trans h) hfirst hsecond

end Registries

/-! ## One class -/

/-- What is true of the value of a success and nothing else. -/
theorem outcomes_ok {ε α : Type} {good : α → Prop} {bad : ε → Prop} {a : α} (h : good a) :
    (∀ a', (.ok a : Except ε α) = .ok a' → good a') ∧
      ∀ e, (.ok a : Except ε α) = .error e → bad e :=
  ⟨fun _ ha ↦ Except.ok.inj ha ▸ h, by rintro _ ⟨⟩⟩

/-- What is true of the error of a failure and nothing else. -/
theorem outcomes_error {ε α : Type} {good : α → Prop} {bad : ε → Prop} {e : ε} (h : bad e) :
    (∀ a, (.error e : Except ε α) = .ok a → good a) ∧
      ∀ e', (.error e : Except ε α) = .error e' → bad e' :=
  ⟨by rintro _ ⟨⟩, fun _ he ↦ Except.error.inj he ▸ h⟩

/-- Adds a root field to those that a class declares before it. -/
def addOwnRootField (owner : ClassRef) (found : OrderedMap String FieldSpec) (spec : FieldSpec) :
    Except CompileError (OrderedMap String FieldSpec) :=
  if OrderedMap.has found spec.exposedName then
    .error (.assembly (.duplicateRootField spec.exposedName owner.name owner.name))
  else .ok (OrderedMap.put found spec.exposedName spec)

theorem ownRootFields_eq (r : Registries) (owner : ClassRef) :
    ownRootFields r owner = (r.rootSpecs owner).foldlM (addOwnRootField owner) [] := rfl

/-- Fields are added behind those there are, as long as no name comes twice. -/
theorem foldlM_addOwnRootField (owner : ClassRef) (specs : List FieldSpec)
    {found : OrderedMap String FieldSpec} (hfound : (OrderedMap.keys found).Nodup) :
    (∀ own, specs.foldlM (addOwnRootField owner) found = .ok own →
      (OrderedMap.keys own).Nodup ∧ own = found ++ specs.map fun f ↦ (f.exposedName, f)) ∧
    ∀ e, specs.foldlM (addOwnRootField owner) found = .error e →
      ∃ name, (OrderedMap.keys found ++ specs.map FieldSpec.exposedName).Duplicate name ∧
        e = .assembly (.duplicateRootField name owner.name owner.name) := by
  induction specs generalizing found with
  | nil => exact outcomes_ok ⟨hfound, (List.append_nil found).symm⟩
  | cons spec rest ih =>
    rw [List.foldlM_cons, addOwnRootField]
    split
    · rename_i hhas
      refine outcomes_error ⟨spec.exposedName, ?_, rfl⟩
      have hkey := (OrderedMap.has_iff_mem_keys found spec.exposedName).1 hhas
      exact List.duplicate_iff_sublist.2 ((List.singleton_sublist.2 hkey).append
        (List.singleton_sublist.2 List.mem_cons_self))
    · rename_i hhas
      have hnone : OrderedMap.find found spec.exposedName = none :=
        OrderedMap.find_eq_none_iff.2 (mt (OrderedMap.has_iff_mem_keys found _).2 hhas)
      have hput := OrderedMap.put_eq_append hnone spec
      obtain ⟨hok, herr⟩ := ih (OrderedMap.nodup_keys_put hfound spec.exposedName spec)
      refine ⟨fun own h ↦ ?_, fun e h ↦ ?_⟩
      · obtain ⟨hown, heq⟩ := hok own h
        rw [hput, List.append_assoc] at heq
        exact ⟨hown, heq⟩
      · obtain ⟨name, hname, he⟩ := herr e h
        rw [hput, OrderedMap.keys, List.map_append, List.append_assoc] at hname
        exact ⟨name, hname, he⟩

/-- The root fields of a class are all that it declares, unless two of them have one name. -/
theorem ownRootFields_spec (r : Registries) (owner : ClassRef) :
    (∀ own, ownRootFields r owner = .ok own → (OrderedMap.keys own).Nodup ∧
      own = (r.rootSpecs owner).map fun f ↦ (f.exposedName, f)) ∧
    ∀ e, ownRootFields r owner = .error e → ∃ name, (r.rootNames owner).Duplicate name ∧
      e = .assembly (.duplicateRootField name owner.name owner.name) := by
  rw [ownRootFields_eq]
  exact foldlM_addOwnRootField owner (r.rootSpecs owner) List.nodup_nil

/-! ## One lineage -/

/-- Puts the root fields of a class over those of its ancestors. -/
def overrideRootFields (r : Registries) (found : OrderedMap String (ClassRef × FieldSpec))
    (owner : ClassRef) : Except CompileError (OrderedMap String (ClassRef × FieldSpec)) :=
  (ownRootFields r owner).map fun own ↦
    (own.map fun e ↦ (e.1, owner, e.2)).foldl (fun m e ↦ OrderedMap.put m e.1 e.2) found

theorem rootFieldsOf_eq (r : Registries) (root : ClassRef) :
    rootFieldsOf r root = root.lineage.reverse.foldlM (overrideRootFields r) [] := by
  rw [rootFieldsOf, ClassRef.oldestFirst]
  congr 1
  funext found owner
  rw [overrideRootFields]
  congr 1
  funext own
  rw [List.foldl_map]

/-- A class that declares no name twice has of each name the field that it declares. -/
theorem find_rootEntries {r : Registries} {cls : ClassRef} (h : (r.rootNames cls).Nodup)
    {name : String} {owner : ClassRef} {spec : FieldSpec} :
    OrderedMap.find ((r.rootSpecs cls).map fun f ↦ (f.exposedName, cls, f)) name =
        some (owner, spec) ↔
      owner = cls ∧ spec ∈ r.rootSpecs cls ∧ spec.exposedName = name := by
  have hkeys : OrderedMap.keys ((r.rootSpecs cls).map fun f ↦ (f.exposedName, cls, f)) =
      r.rootNames cls := List.map_map
  rw [OrderedMap.find_eq_some_iff (hkeys.symm ▸ h), List.mem_map]
  refine ⟨?_, ?_⟩
  · rintro ⟨f, hf, heq⟩
    cases heq
    exact ⟨rfl, hf, rfl⟩
  · rintro ⟨rfl, hspec, rfl⟩
    exact ⟨spec, hspec, rfl⟩

/-- What one class more, younger than those before it, does to the root fields found. -/
theorem overrideRootFields_spec (r : Registries) (cls : ClassRef)
    {found : OrderedMap String (ClassRef × FieldSpec)} (hfound : (OrderedMap.keys found).Nodup) :
    (∀ found', overrideRootFields r found cls = .ok found' →
      (r.rootNames cls).Nodup ∧ (OrderedMap.keys found').Nodup ∧
        ∀ name owner spec, OrderedMap.find found' name = some (owner, spec) ↔
          (owner = cls ∧ spec ∈ r.rootSpecs cls ∧ spec.exposedName = name) ∨
            name ∉ r.rootNames cls ∧ OrderedMap.find found name = some (owner, spec)) ∧
    ∀ e, overrideRootFields r found cls = .error e → ∃ name, (r.rootNames cls).Duplicate name ∧
      e = .assembly (.duplicateRootField name cls.name cls.name) := by
  obtain ⟨hok, herr⟩ := ownRootFields_spec r cls
  rw [overrideRootFields]
  cases hown : ownRootFields r cls with
  | error e => exact outcomes_error (herr e hown)
  | ok own =>
    obtain ⟨hkeys, hspecs⟩ := hok own hown
    have hnames : (r.rootNames cls).Nodup := by
      rwa [hspecs, OrderedMap.keys, List.map_map] at hkeys
    have hentries : OrderedMap.keys ((r.rootSpecs cls).map fun f ↦ (f.exposedName, cls, f)) =
        r.rootNames cls := List.map_map
    have hown' : (own.map fun e ↦ (e.1, cls, e.2)) =
        (r.rootSpecs cls).map fun f ↦ (f.exposedName, cls, f) := by
      rw [hspecs, List.map_map]
      rfl
    refine outcomes_ok ⟨hnames, OrderedMap.nodup_keys_foldl_put _ hfound, fun name owner spec ↦ ?_⟩
    dsimp only
    rw [hown', OrderedMap.find_foldl_put (hentries.symm ▸ hnames), ← find_rootEntries hnames,
      ← hentries, ← OrderedMap.find_eq_none_iff]
    cases OrderedMap.find ((r.rootSpecs cls).map fun f ↦ (f.exposedName, cls, f)) name <;> simp

/-- **One lineage.**  Of the fields of one name that of the youngest class is found, unless one of
the classes declares two. -/
theorem rootFieldsOf_spec (r : Registries) (root : ClassRef) :
    (∀ own, rootFieldsOf r root = .ok own →
      (∀ owner ∈ root.lineage, (r.rootNames owner).Nodup) ∧ (OrderedMap.keys own).Nodup ∧
        ∀ name owner spec, OrderedMap.find own name = some (owner, spec) ↔
          r.Youngest name root.lineage owner spec) ∧
    ∀ e, rootFieldsOf r root = .error e →
      ∃ owner ∈ root.lineage, ∃ name, (r.rootNames owner).Duplicate name ∧
        e = .assembly (.duplicateRootField name owner.name owner.name) := by
  rw [rootFieldsOf_eq]
  induction root.lineage with
  | nil =>
    refine outcomes_ok ⟨List.forall_mem_nil _, List.nodup_nil, fun name owner spec ↦ ?_⟩
    constructor <;> rintro ⟨⟩
  | cons cls older ih =>
    obtain ⟨hok, herr⟩ := ih
    rw [List.reverse_cons, List.foldlM_append]
    cases holder : older.reverse.foldlM (overrideRootFields r) [] with
    | error e =>
      obtain ⟨owner, howner, h⟩ := herr e holder
      exact outcomes_error ⟨owner, List.mem_cons_of_mem _ howner, h⟩
    | ok found =>
      obtain ⟨hnodup, hkeys, hfind⟩ := hok found holder
      obtain ⟨hok', herr'⟩ := overrideRootFields_spec r cls hkeys
      have hlast : [cls].foldlM (overrideRootFields r) found = overrideRootFields r found cls := by
        rw [List.foldlM_cons]
        exact bind_pure _
      refine ⟨fun found' h ↦ ?_, fun e h ↦ ⟨cls, List.mem_cons_self, herr' e (hlast ▸ h)⟩⟩
      obtain ⟨hnames, hkeys', hfind'⟩ := hok' found' (hlast ▸ h)
      refine ⟨List.forall_mem_cons.2 ⟨hnames, hnodup⟩, hkeys', fun name owner spec ↦ ?_⟩
      rw [hfind', hfind, Registries.youngest_cons_iff]

/-! ## One root -/

namespace RootFields

/-- The root fields of an operation. -/
def of (fields : RootFields) : Operation → OrderedMap String RootField
  | .query => fields.query
  | .mutation => fields.mutation

end RootFields

/-- A field that is exposed under an operation is added behind those there are, if its name is
new. -/
theorem exposeRootField_spec (operation : Operation) (fields : OrderedMap String RootField)
    (name : String) (field : RootField) :
    (∀ fields', exposeRootField operation fields name field = .ok fields' →
      fields' = fields ++ [(name, field)].filter (·.2.spec.isUnder operation) ∧
        (field.spec.isUnder operation = true → name ∉ OrderedMap.keys fields)) ∧
    ∀ e, exposeRootField operation fields name field = .error e →
      field.spec.isUnder operation = true ∧ ∃ known, (name, known) ∈ fields ∧
        e = .assembly (.duplicateRootField name known.root.name field.root.name) := by
  rw [exposeRootField, ← FieldSpec.isUnder]
  by_cases hunder : field.spec.isUnder operation = true
  · have hkeep : [(name, field)].filter (·.2.spec.isUnder operation) = [(name, field)] := by
      simp [hunder]
    rw [if_pos hunder, addRootField, hkeep]
    cases hfind : OrderedMap.find fields name with
    | some known =>
      exact outcomes_error ⟨hunder, known, OrderedMap.mem_of_find hfind, rfl⟩
    | none =>
      exact outcomes_ok ⟨OrderedMap.put_eq_append hfind field,
        fun _ ↦ OrderedMap.find_eq_none_iff.1 hfind⟩
  · have hdrop : [(name, field)].filter (·.2.spec.isUnder operation) = [] := by simp [hunder]
    rw [if_neg hunder, hdrop, List.append_nil]
    exact outcomes_ok ⟨rfl, fun h ↦ absurd h hunder⟩

namespace RootFields

/-- What is said of one operation holds of both. -/
theorem add_spec (fields : RootFields) (name : String) (field : RootField) :
    (∀ fields', fields.add name field = .ok fields' → ∀ operation,
      fields'.of operation =
          fields.of operation ++ [(name, field)].filter (·.2.spec.isUnder operation) ∧
        (field.spec.isUnder operation = true → name ∉ OrderedMap.keys (fields.of operation))) ∧
    ∀ e, fields.add name field = .error e → ∃ operation, field.spec.isUnder operation = true ∧
      ∃ known, (name, known) ∈ fields.of operation ∧
        e = .assembly (.duplicateRootField name known.root.name field.root.name) := by
  obtain ⟨hquery, hqueryerr⟩ := exposeRootField_spec .query fields.query name field
  obtain ⟨hmutation, hmutationerr⟩ := exposeRootField_spec .mutation fields.mutation name field
  rw [add]
  cases hq : exposeRootField .query fields.query name field with
  | error e => exact outcomes_error ⟨.query, hqueryerr e hq⟩
  | ok query =>
    cases hm : exposeRootField .mutation fields.mutation name field with
    | error e => exact outcomes_error ⟨.mutation, hmutationerr e hm⟩
    | ok mutation =>
      refine outcomes_ok fun operation ↦ ?_
      cases operation with
      | query => exact hquery query hq
      | mutation => exact hmutation mutation hm

/-- Fields of different names are added one after the other, if all their names are new. -/
theorem foldlM_add {entries : OrderedMap String RootField}
    (hentries : (OrderedMap.keys entries).Nodup) (fields : RootFields) :
    (∀ fields', entries.foldlM (fun fields e ↦ fields.add e.1 e.2) fields = .ok fields' →
      ∀ operation,
        fields'.of operation = fields.of operation ++ entries.filter (·.2.spec.isUnder operation) ∧
        ∀ e ∈ entries, e.2.spec.isUnder operation = true →
          e.1 ∉ OrderedMap.keys (fields.of operation)) ∧
    ∀ e, entries.foldlM (fun fields e ↦ fields.add e.1 e.2) fields = .error e →
      ∃ entry ∈ entries, ∃ operation, entry.2.spec.isUnder operation = true ∧
        ∃ known, (entry.1, known) ∈ fields.of operation ∧
          e = .assembly (.duplicateRootField entry.1 known.root.name entry.2.root.name) := by
  induction entries generalizing fields with
  | nil => exact outcomes_ok fun _ ↦ ⟨(List.append_nil _).symm, List.forall_mem_nil _⟩
  | cons entry rest ih =>
    obtain ⟨hnew, hrest⟩ := List.nodup_cons.1 hentries
    obtain ⟨hok, herr⟩ := fields.add_spec entry.1 entry.2
    rw [List.foldlM_cons]
    cases hadd : fields.add entry.1 entry.2 with
    | error e =>
      exact outcomes_error ⟨entry, List.mem_cons_self, herr e hadd⟩
    | ok fields₁ =>
      obtain ⟨hok', herr'⟩ := ih hrest fields₁
      refine ⟨fun fields' h operation ↦ ?_, fun e h ↦ ?_⟩
      · obtain ⟨hof, hnone⟩ := hok fields₁ hadd operation
        obtain ⟨hof', hnone'⟩ := hok' fields' h operation
        rw [hof, List.append_assoc, ← List.filter_append] at hof'
        refine ⟨hof', List.forall_mem_cons.2 ⟨hnone, fun e he hunder hkey ↦ ?_⟩⟩
        refine hnone' e he hunder ?_
        rw [hof, OrderedMap.keys, List.map_append]
        exact List.mem_append_left _ hkey
      · obtain ⟨e', he', operation, hunder, known, hknown, heq⟩ := herr' e h
        refine ⟨e', List.mem_cons_of_mem _ he', operation, hunder, known, ?_, heq⟩
        rw [(hok fields₁ hadd operation).1] at hknown
        refine (List.mem_append.1 hknown).resolve_right fun hmem ↦ hnew ?_
        -- the rest has another name than the entry
        rw [← (Prod.mk.inj (List.mem_singleton.1 (List.mem_of_mem_filter hmem))).1]
        exact List.mem_map_of_mem he'

/-! ## Roots one after the other -/

/-- What is gathered of some roots: for each operation one field of every name that one of them has,
that of the youngest class, and none is in the way of another. -/
structure Gathered (r : Registries) (roots : List ClassRef) (fields : RootFields) : Prop where
  nodup : ∀ operation, (OrderedMap.keys (fields.of operation)).Nodup
  youngest : ∀ operation, ∀ e ∈ fields.of operation, e.2.root ∈ roots ∧
    r.Youngest e.1 e.2.root.lineage e.2.owner e.2.spec ∧ e.2.spec.isUnder operation = true
  all : ∀ {root : ClassRef} {operation : Operation} {name : String}, root ∈ roots →
    r.Contributes root operation name → name ∈ OrderedMap.keys (fields.of operation)
  apart : ∀ name first second, ¬ r.Collision roots name first second

theorem Gathered.empty (r : Registries) : Gathered r [] {} where
  nodup operation := by cases operation <;> exact List.nodup_nil
  youngest operation := by cases operation <;> exact List.forall_mem_nil _
  all h := absurd h List.not_mem_nil
  apart name first second h := by
    cases h with
    | own hroot => exact List.not_mem_nil hroot
    | entries hentries => cases hentries

theorem Gathered.contributes {r : Registries} {roots : List ClassRef} {fields : RootFields}
    (h : fields.Gathered r roots) {operation : Operation} {e : String × RootField}
    (he : e ∈ fields.of operation) : r.Contributes e.2.root operation e.1 :=
  ⟨e.2.owner, e.2.spec, (h.youngest operation e he).2⟩

/-- The root fields of a root, with the instance that serves them. -/
def entries (root : ClassRef) (served : Instance) (own : OrderedMap String (ClassRef × FieldSpec)) :
    OrderedMap String RootField :=
  OrderedMap.mapValues (fun f ↦ { root, owner := f.1, spec := f.2, served }) own

theorem keys_entries (root : ClassRef) (served : Instance)
    (own : OrderedMap String (ClassRef × FieldSpec)) :
    OrderedMap.keys (entries root served own) = OrderedMap.keys own := List.map_map

theorem foldlM_entries (root : ClassRef) (served : Instance)
    (own : OrderedMap String (ClassRef × FieldSpec)) (fields : RootFields) :
    (entries root served own).foldlM (fun fields e ↦ fields.add e.1 e.2) fields =
      own.foldlM (fun fields (name, owner, spec) ↦
        fields.add name { root, owner, spec, served }) fields := by
  rw [entries, OrderedMap.mapValues, List.foldlM_map]

/-- The entries of a root are its fields, each that of the youngest class. -/
theorem mem_entries_iff {r : Registries} {root : ClassRef}
    {own : OrderedMap String (ClassRef × FieldSpec)} (hown : rootFieldsOf r root = .ok own)
    (served : Instance) {name : String} {field : RootField} :
    (name, field) ∈ entries root served own ↔ field.root = root ∧ field.served = served ∧
      r.Youngest name root.lineage field.owner field.spec := by
  obtain ⟨-, hkeys, hfind⟩ := (rootFieldsOf_spec r root).1 own hown
  rw [← hfind, OrderedMap.find_eq_some_iff hkeys, entries, OrderedMap.mapValues, List.mem_map]
  refine ⟨?_, ?_⟩
  · rintro ⟨⟨name, owner, spec⟩, hmem, heq⟩
    cases heq
    exact ⟨rfl, rfl, hmem⟩
  · obtain ⟨root', owner, spec, served'⟩ := field
    rintro ⟨rfl, rfl, hmem⟩
    exact ⟨_, hmem, rfl⟩

/-- A pair within a list with one element more was within the list, or ends with that element. -/
theorem pair_sublist_concat {α : Type} {a b c : α} {l : List α}
    (h : [a, b].Sublist (l ++ [c])) : [a, b].Sublist l ∨ a ∈ l ∧ b = c := by
  have hreverse : [b, a].Sublist (c :: l.reverse) := by simpa using h.reverse
  cases hreverse with
  | cons _ h => exact .inl (by simpa using h.reverse)
  | cons_cons _ h => exact .inr ⟨List.mem_reverse.1 (List.singleton_sublist.1 h), rfl⟩

/-- What is gathered of some roots and of one more, if the fields of this one are added to those of
the others and none of them was there. -/
theorem Gathered.append {r : Registries} {roots : List ClassRef} {fields fields' : RootFields}
    (h : fields.Gathered r roots) {root : ClassRef} {served : Instance}
    {own : OrderedMap String (ClassRef × FieldSpec)} (hown : rootFieldsOf r root = .ok own)
    (hof : ∀ operation,
      fields'.of operation = fields.of operation ++
          (entries root served own).filter (·.2.spec.isUnder operation) ∧
        ∀ e ∈ entries root served own, e.2.spec.isUnder operation = true →
          e.1 ∉ OrderedMap.keys (fields.of operation)) :
    fields'.Gathered r (roots ++ [root]) := by
  obtain ⟨hnames, hkeys, -⟩ := (rootFieldsOf_spec r root).1 own hown
  rw [← keys_entries root served] at hkeys
  have hcontributes : ∀ {operation name}, r.Contributes root operation name →
      ∃ field, (name, field) ∈ entries root served own ∧ field.spec.isUnder operation = true := by
    rintro operation name ⟨owner, spec, hyoungest, hunder⟩
    exact ⟨⟨root, owner, spec, served⟩,
      (mem_entries_iff hown served).2 ⟨rfl, rfl, hyoungest⟩, hunder⟩
  refine ⟨fun operation ↦ ?_, fun operation e he ↦ ?_, fun {root' operation name} hroot hc ↦ ?_,
    fun name first second hc ↦ ?_⟩
  · rw [(hof operation).1, OrderedMap.keys, List.map_append]
    refine List.nodup_append.2 ⟨h.nodup operation, ?_, fun a ha b hb hab ↦ ?_⟩
    · exact hkeys.sublist (List.filter_sublist.map Prod.fst)
    · obtain ⟨e, he, rfl⟩ := List.mem_map.1 hb
      obtain ⟨hmem, hunder⟩ := List.mem_filter.1 he
      exact (hof operation).2 e hmem hunder (hab ▸ ha)
  · rw [(hof operation).1] at he
    rcases List.mem_append.1 he with he | he
    · obtain ⟨hroot, hyoungest⟩ := h.youngest operation e he
      exact ⟨List.mem_append_left _ hroot, hyoungest⟩
    · obtain ⟨hmem, hunder⟩ := List.mem_filter.1 he
      obtain ⟨hroot, -, hyoungest⟩ := (mem_entries_iff hown served).1 hmem
      rw [hroot]
      exact ⟨List.mem_append_right _ List.mem_cons_self, hyoungest, hunder⟩
  · rw [(hof operation).1, OrderedMap.keys, List.map_append]
    rcases List.mem_append.1 hroot with hroot | hroot
    · exact List.mem_append_left _ (h.all hroot hc)
    · obtain ⟨field, hmem, hunder⟩ := hcontributes (List.mem_singleton.1 hroot ▸ hc)
      exact List.mem_append_right _
        (List.mem_map.2 ⟨_, List.mem_filter.2 ⟨hmem, hunder⟩, rfl⟩)
  · cases hc with
    | own hroot howner htwice =>
      rcases List.mem_append.1 hroot with hroot | hroot
      · exact h.apart _ _ _ (.own hroot howner htwice)
      · cases List.mem_singleton.1 hroot
        exact List.nodup_iff_forall_not_duplicate.1 (hnames _ howner) _ htwice
    | @entries _ _ operation _ hpair hfirst hsecond =>
      rcases pair_sublist_concat hpair with hpair | ⟨hmem, rfl⟩
      · exact h.apart _ _ _ (.entries hpair hfirst hsecond)
      · obtain ⟨field, hfield, hunder⟩ := hcontributes hsecond
        exact (hof operation).2 _ hfield hunder (h.all hmem hfirst)

/-- **One root more.**  Its fields are added to those of the roots before it, unless there is a
collision. -/
theorem Gathered.concat {r : Registries} {roots : List ClassRef} {fields : RootFields}
    (h : fields.Gathered r roots) {root : ClassRef} (served : Instance)
    {own : OrderedMap String (ClassRef × FieldSpec)} (hown : rootFieldsOf r root = .ok own) :
    (∀ fields', own.foldlM (fun fields (name, owner, spec) ↦
        fields.add name { root, owner, spec, served }) fields = .ok fields' →
      fields'.Gathered r (roots ++ [root])) ∧
    ∀ e, own.foldlM (fun fields (name, owner, spec) ↦
        fields.add name { root, owner, spec, served }) fields = .error e →
      ∃ name first second, r.Collision (roots ++ [root]) name first second ∧
        e = .assembly (.duplicateRootField name first second) := by
  obtain ⟨-, hkeys, -⟩ := (rootFieldsOf_spec r root).1 own hown
  rw [← keys_entries root served] at hkeys
  obtain ⟨hok, herr⟩ := foldlM_add hkeys fields
  rw [← foldlM_entries]
  refine ⟨fun fields' hrun ↦ h.append hown (hok fields' hrun), fun e hrun ↦ ?_⟩
  obtain ⟨⟨name, field⟩, hmem, operation, hunder, known, hknown, rfl⟩ := herr e hrun
  obtain ⟨rfl, -, hyoungest⟩ := (mem_entries_iff hown served).1 hmem
  have hroot := (h.youngest operation _ hknown).1
  exact ⟨name, _, _, .entries ((List.singleton_sublist.2 hroot).append (.refl _))
    (h.contributes hknown) ⟨field.owner, field.spec, hyoungest, hunder⟩, rfl⟩

/-! ## All roots -/

/-- What is gathered of a root that is registered. -/
theorem gatherRoot_gathered (host : Host σ) {w : Workspace σ} {s : SessionId}
    {roots : List ClassRef} {fields : RootFields} (h : fields.Gathered (w.registries s) roots)
    {root : ClassRef} (hroot : (w.registries s).isRoot root.key = true) :
    (∃ state, ((gatherRoot host s fields root).runIn w).2 = { w with host := state }) ∧
    (∀ fields', ((gatherRoot host s fields root).runIn w).1 = .ok fields' →
      fields'.Gathered (w.registries s) (roots ++ [root])) ∧
    ∀ e, ((gatherRoot host s fields root).runIn w).1 = .error e →
      ∃ name first second, (w.registries s).Collision (roots ++ [root]) name first second ∧
        e = .assembly (.duplicateRootField name first second) := by
  obtain ⟨spec, hspec⟩ := Option.isSome_iff_exists.1 hroot
  obtain ⟨served, state, -, hrun⟩ := gatherRoot_of_some host hspec fields
  rw [hrun]
  refine ⟨⟨state, rfl⟩, ?_⟩
  cases hown : rootFieldsOf (w.registries s) root with
  | error e =>
    obtain ⟨owner, howner, name, htwice, rfl⟩ := (rootFieldsOf_spec _ root).2 e hown
    exact outcomes_error
      ⟨name, _, _, .own (List.mem_append_right _ List.mem_cons_self) howner htwice, rfl⟩
  | ok own => exact h.concat served hown

/-- **All roots.**  The fields of registered roots are gathered, unless there is a collision. -/
theorem gatherRoots_gathered (host : Host σ) {w : Workspace σ} {s : SessionId}
    {roots : List ClassRef}
    (hroots : ∀ root ∈ roots, (w.registries s).isRoot root.key = true) :
    (∀ fields, ((gatherRoots host s roots).runIn w).1 = .ok fields →
      fields.Gathered (w.registries s) roots) ∧
    ∀ e, ((gatherRoots host s roots).runIn w).1 = .error e →
      ∃ name first second, (w.registries s).Collision roots name first second ∧
        e = .assembly (.duplicateRootField name first second) := by
  have h : ∀ (rest before : List ClassRef) (w : Workspace σ) (fields : RootFields),
      fields.Gathered (w.registries s) before →
      (∀ root ∈ rest, (w.registries s).isRoot root.key = true) →
      (∀ fields', ((rest.foldlM (gatherRoot host s) fields).runIn w).1 = .ok fields' →
        fields'.Gathered (w.registries s) (before ++ rest)) ∧
      ∀ e, ((rest.foldlM (gatherRoot host s) fields).runIn w).1 = .error e →
        ∃ name first second, (w.registries s).Collision (before ++ rest) name first second ∧
          e = .assembly (.duplicateRootField name first second) := by
    intro rest
    induction rest with
    | nil =>
      intro before w fields hf _
      rw [List.append_nil]
      exact outcomes_ok hf
    | cons root rest ih =>
      intro before w fields hf hrest
      obtain ⟨hroot, hrest⟩ := List.forall_mem_cons.1 hrest
      obtain ⟨⟨state, hstate⟩, hok, herr⟩ := gatherRoot_gathered host hf hroot
      rw [List.foldlM_cons, List.append_cons]
      rcases hrun : (gatherRoot host s fields root).runIn w with ⟨e | fields₁, w₁⟩ <;>
        rw [hrun] at hstate hok herr <;> cases hstate
      · rw [Compile.runIn_bind_of_error hrun]
        obtain ⟨name, first, second, hc, rfl⟩ := herr e rfl
        exact outcomes_error ⟨name, first, second, hc.mono (List.sublist_append_left _ _), rfl⟩
      · rw [Compile.runIn_bind_of_ok hrun]
        -- making a root changes the state of the program only
        exact ih (before ++ [root]) { w with host := state } fields₁ (hok fields₁ rfl) hrest
  exact h roots [] w {} (.empty _) hroots

end RootFields

end ApiGraph
