import ApiGraph.Proofs.FieldMap.Inheritance

/-!
# Declarations that are lost

What is registered for a class is kept under its property, and an argument under its position; but
field maps and argument maps go by the exposed name, which can be chosen.  So two properties of one
class, or two parameters of one method, can meet under one name.  Then the last one registered is in
the map and the others are lost, and nothing is reported.  A class later on the walk takes names
over as well, but that is inheritance.

## What is here

* `Registries.Keyed`: what is registered is kept under its property, in every run.
* `lastNamed_declaredOn_iff`: the last declaration of a name on a walk.
* `KeepsAll` and `TellsApart`: no declaration is lost, and no class has two under one name; and
  `Merges.keepsAll_iff`, these are the same.
* `Workspace.Reachable.collapses`: all maps of all types, in every run.
-/

set_option autoImplicit false

namespace ApiGraph

open OrderedMap (keys values)

/-! ## What is registered under a property -/

/-- Everything in a registry is kept under its property, and once. -/
def Registry.Keyed {κ ν : Type} (property : ν → κ) (r : Registry κ ν) : Prop :=
  ∀ owner, (keys (r.getAll owner)).Nodup ∧ ∀ e ∈ r.getAll owner, property e.2 = e.1

namespace Registry.Keyed

variable {κ ν : Type} {property : ν → κ} {r : Registry κ ν}

theorem set [DecidableEq κ] (h : r.Keyed property) (owner : TypeKey) {key : κ} {value : ν}
    (hv : property value = key) : (r.set owner key value).Keyed property := by
  intro other
  rw [Registry.getAll_set]
  split
  · refine ⟨OrderedMap.nodup_keys_put (h owner).1 _ _, fun e he ↦ ?_⟩
    rcases OrderedMap.mem_put he with rfl | he
    · exact hv
    · exact (h owner).2 e he
  · exact h other

/-- A property of an owner is registered once. -/
theorem eq_of_property_eq (h : r.Keyed property) {owner : TypeKey} {a b : ν}
    (ha : a ∈ values (r.getAll owner)) (hb : b ∈ values (r.getAll owner))
    (hab : property a = property b) : a = b := by
  obtain ⟨e, he, rfl⟩ := List.mem_map.1 ha
  obtain ⟨e', he', rfl⟩ := List.mem_map.1 hb
  have hkey : e.1 = e'.1 := ((h owner).2 e he).symm.trans (hab.trans ((h owner).2 e' he'))
  exact congrArg Prod.snd (List.inj_on_of_nodup_map (h owner).1 he he' hkey)

end Registry.Keyed

namespace Registries

/-- The fields and input fields of a class are kept under their properties. -/
structure Keyed (r : Registries) : Prop where
  fields : r.fields.Keyed FieldSpec.property
  inputFields : r.inputFields.Keyed InputFieldSpec.property

variable {r : Registries}

theorem Keyed.field (h : r.Keyed) (cls : ClassRef) (spec : FieldSpec) :
    ((Registries.field cls spec).apply r).Keyed := by
  rcases field_apply cls spec r with heq | ⟨known, exposure, hknown, heq⟩ <;> rw [heq]
  · exact h
  · refine ⟨h.fields.set cls.key (?_ : known.property = spec.property), h.inputFields⟩
    rcases hknown with rfl | hknown
    · rfl
    · exact (h.fields cls.key).2 _ (OrderedMap.mem_of_find hknown)

theorem Keyed.inputField (h : r.Keyed) (cls : ClassRef) (spec : InputFieldSpec) :
    (r.inputField cls spec).Keyed :=
  ⟨h.fields, h.inputFields.set cls.key rfl⟩

/-- Registering something keeps it so. -/
theorem Change.keyed {d : Declarations} {offered : GraphNode → Prop} {f : Registries → Registries}
    (hf : Change d offered f) (h : r.Keyed) : (f r).Keyed := by
  have hobject : ∀ cls (l : List ClassRef) (r : Registries), r.Keyed →
      (l.foldl (fun r interface ↦ r.addImplementor cls interface) r).Keyed := by
    intro cls l
    induction l with
    | nil => exact fun r h ↦ h
    | cons i rest ih => exact fun r h ↦ ih _ ⟨h.fields, h.inputFields⟩
  cases hf with
  | @objectType cls spec | @duplexType cls spec =>
    have h := hobject cls spec.implements r h
    exact ⟨h.fields, h.inputFields⟩
  | inputType | interfaceType | unionType | schemaRoot | arg | inject | beforeHook | afterHook =>
    exact ⟨h.fields, h.inputFields⟩
  | enum e spec =>
    rw [registerEnum, Registration.apply_get_bind]
    split
    · exact h
    · exact ⟨h.fields, h.inputFields⟩
  | field cls => exact h.field cls _
  | inputField cls => exact h.inputField cls _
  | duplexField cls =>
    rw [Registries.duplexField, Registration.apply_modify_bind]
    exact (h.inputField cls _).field cls _
  | rootField cls exposure =>
    rw [Registries.rootField]
    split
    · exact h
    · exact h.field cls _

end Registries

section Runs

variable {σ : Type} {d : Declarations} {host : Host σ} {w w' : Workspace σ}

/-- A step keeps what is registered under its property. -/
theorem Workspace.Step.keyed (h : Workspace.Step d host w w') (hw : w.Sound d) {s : SessionId}
    (hs : (w.registries s).Keyed) : (w'.registries s).Keyed := by
  rcases h.registries hw s with hsame | ⟨f, hf, happlied⟩
  · rwa [hsame]
  · rw [happlied]
    exact hf.keyed hs

theorem Workspace.Reachable.keyed (h : w.Reachable d host) (s : SessionId) :
    (w.registries s).Keyed := by
  obtain ⟨state, h⟩ := h
  induction h with
  | refl =>
    exact ⟨fun _ ↦ ⟨List.nodup_nil, fun _ he ↦ absurd he List.not_mem_nil⟩,
      fun _ ↦ ⟨List.nodup_nil, fun _ he ↦ absurd he List.not_mem_nil⟩⟩
  | tail hsteps hstep ih => exact hstep.keyed (Reachable.sound ⟨state, hsteps⟩) ih

end Runs

/-! ## The last declaration of a name -/

section Walk

variable {α β : Type} {name property : α → String} {own : ClassRef → List α} {key : String}

/-- A class of a list declares something of a name. -/
def Redeclares (own : ClassRef → List α) (name : α → String) (classes : List ClassRef)
    (key : String) : Prop :=
  ∃ c ∈ classes, ∃ f ∈ own c, name f = key

/-- The last declaration of a name on a walk is the last one of a class, after which no class
declares the name again. -/
theorem lastNamed_declaredOn_iff {walk : List ClassRef} {x : ClassRef × α} :
    LastNamed (fun x ↦ name x.2) (declaredOn own walk) key x ↔
      ∃ before after, walk = before ++ x.1 :: after ∧ ¬Redeclares own name after key ∧
        LastNamed name (own x.1) key x.2 := by
  induction walk with
  | nil =>
    constructor
    · intro h
      cases h.mem
    · rintro ⟨before, after, h, -⟩
      cases before <;> cases h
  | cons c rest ih =>
    have hrest : (∀ y ∈ declaredOn own rest, name y.2 ≠ key) ↔ ¬Redeclares own name rest key := by
      constructor
      · rintro h ⟨c', hc', f, hf, hname⟩
        exact h (c', f) (mem_declaredOn.2 ⟨hc', hf⟩) hname
      · intro h y hy hname
        obtain ⟨hc, hf⟩ := mem_declaredOn.1 hy
        exact h ⟨y.1, hc, y.2, hf, hname⟩
    have hcons : declaredOn own (c :: rest) =
        (own c).map (fun f ↦ (c, f)) ++ declaredOn own rest := List.flatMap_cons
    rw [hcons, lastNamed_append_iff, ih, lastNamed_map_iff, hrest]
    constructor
    · rintro (⟨before, after, rfl, h⟩ | ⟨⟨f, hlast, rfl⟩, hno⟩)
      · exact ⟨c :: before, after, rfl, h⟩
      · exact ⟨[], rest, rfl, hno, hlast⟩
    · rintro ⟨before, after, h, hno, hlast⟩
      cases before with
      | nil =>
        cases h
        exact .inr ⟨⟨x.2, hlast, rfl⟩, hno⟩
      | cons c' before =>
        cases h
        exact .inl ⟨before, after, rfl, hno, hlast⟩

/-! ## Declarations that are lost -/

/-- Of a walk every declaration is kept, unless a class later on the walk declares its name
again. -/
def KeepsAll (own : ClassRef → List α) (name : α → String) (walk : List ClassRef)
    (kept : ClassRef × α → Prop) : Prop :=
  ∀ before c after, walk = before ++ c :: after → ∀ f ∈ own c,
    kept (c, f) ∨ Redeclares own name after (name f)

/-- No class of a walk has two properties under one name, unless a class later on the walk declares
the name again. -/
def TellsApart (own : ClassRef → List α) (name property : α → String) (walk : List ClassRef) :
    Prop :=
  ∀ before c after, walk = before ++ c :: after → ∀ f ∈ own c, ∀ g ∈ own c,
    name f = name g → property f ≠ property g → Redeclares own name after (name f)

namespace Merges

variable {walk : List ClassRef} {madeOf : ClassRef × α → β → Prop}
  {fields : OrderedMap String β}

theorem nodup_keys (h : Merges name (declaredOn own walk) madeOf fields) : (keys fields).Nodup :=
  h.keys_eq ▸ nodup_eraseDups _

/-- Every entry is the last declaration of a class, after which no class declares the name again. -/
theorem last_of_class (h : Merges name (declaredOn own walk) madeOf fields) {b : β}
    (hb : (key, b) ∈ fields) :
    ∃ before c after f, walk = before ++ c :: after ∧ ¬Redeclares own name after key ∧
      LastNamed name (own c) key f ∧ madeOf (c, f) b := by
  obtain ⟨⟨c, f⟩, hlast, hmade⟩ := h.last key b hb
  obtain ⟨before, after, hwalk, hno, hlast⟩ := lastNamed_declaredOn_iff.1 hlast
  exact ⟨before, c, after, f, hwalk, hno, hlast, hmade⟩

/-- Whatever is not declared again is in the map, as the last declaration of its class. -/
theorem exists_last (h : Merges name (declaredOn own walk) madeOf fields) {before after : List _}
    {c : ClassRef} (hwalk : walk = before ++ c :: after) {f : α} (hf : f ∈ own c)
    (hno : ¬Redeclares own name after (name f)) :
    ∃ g b, LastNamed name (own c) (name f) g ∧ (name f, b) ∈ fields ∧ madeOf (c, g) b := by
  obtain ⟨g, hg⟩ : ∃ g, LastNamed name (own c) (name f) g := exists_lastNamed hf
  have hlast : LastNamed (fun x ↦ name x.2) (declaredOn own walk) (name f) (c, g) :=
    lastNamed_declaredOn_iff.2 ⟨before, after, hwalk, hno, hg⟩
  obtain ⟨b, hb, hmade⟩ := h.exists_of_lastNamed hlast
  exact ⟨g, b, hg, hb, hmade⟩

/-- **What is lost.**  No declaration of a walk is lost exactly if no class of it has two properties
under one name that no class later on declares again. -/
theorem keepsAll_iff (h : Merges name (declaredOn own walk) madeOf fields)
    {propertyOf : β → String} (hmade : ∀ x b, madeOf x b → propertyOf b = property x.2)
    (hown : ∀ c, ∀ f ∈ own c, ∀ g ∈ own c, property f = property g → f = g) :
    KeepsAll own name walk (fun x ↦ ∃ b, (name x.2, b) ∈ fields ∧ madeOf x b) ↔
      TellsApart own name property walk := by
  constructor
  · intro hkeeps before c after hwalk f hf g hg hname hproperty
    by_contra hno
    obtain ⟨b, hb, hbf⟩ := (hkeeps before c after hwalk f hf).resolve_right hno
    obtain ⟨b', hb', hbg⟩ := (hkeeps before c after hwalk g hg).resolve_right (hname ▸ hno)
    -- one entry cannot be made of both
    cases congrArg Prod.snd (List.inj_on_of_nodup_map h.nodup_keys hb hb' hname)
    exact hproperty ((hmade _ b hbf).symm.trans (hmade _ b hbg))
  · intro hapart before c after hwalk f hf
    by_cases hno : Redeclares own name after (name f)
    · exact .inr hno
    obtain ⟨g, b, hg, hb, hbg⟩ := h.exists_last hwalk hf hno
    refine .inl ⟨b, hb, ?_⟩
    have hfg : property f = property g := by
      by_contra hproperty
      exact hno (hapart before c after hwalk f hf g hg.mem hg.name_eq.symm hproperty)
    cases hown c f hf g hg.mem hfg
    exact hbg

end Merges

/-- What a map has of a walk.  Every entry is the last declaration of a class, after which no class
declares the name again; and no declaration is lost exactly if no class has two properties under one
name. -/
structure Collapsed (own : ClassRef → List α) (name property : α → String) (walk : List ClassRef)
    (madeOf : ClassRef × α → β → Prop) (fields : OrderedMap String β) : Prop where
  last : ∀ key b, (key, b) ∈ fields →
    ∃ before c after f, walk = before ++ c :: after ∧ ¬Redeclares own name after key ∧
      LastNamed name (own c) key f ∧ madeOf (c, f) b
  keeps_iff : KeepsAll own name walk (fun x ↦ ∃ b, (name x.2, b) ∈ fields ∧ madeOf x b) ↔
    TellsApart own name property walk

end Walk

/-! ## Runs -/

namespace Workspace

variable {σ : Type} {d : Declarations} {host : Host σ} {w v : Workspace σ} {s : SessionId}

/-- What the fields of the types of a session have of what is declared.  In one workspace something
is registered; another one has come of it without more being registered, and has the types. -/
structure Collapses (host : Host σ) (w v : Workspace σ) (s : SessionId) : Prop where
  objects : ∀ (key : TypeKey) (n : ObjectNode) (fields : FieldMap),
    v.entry s .objects key = some n → w.entry s .objectFields key = none →
      ((n.fields host).runIn v).1 = .ok fields →
        Collapsed (w.registries s).ownFields FieldSpec.exposedName FieldSpec.property n.walk
          (CompiledFrom host w s) fields
  interfaces : ∀ (key : TypeKey) (n : InterfaceNode) (fields : FieldMap),
    v.entry s .interfaces key = some n → w.entry s .interfaceFields key = none →
      ((n.fields host).runIn v).1 = .ok fields →
        Collapsed (w.registries s).ownFields FieldSpec.exposedName FieldSpec.property
          n.cls.oldestFirst (CompiledFrom host w s) fields
  inputs : ∀ (key : TypeKey) (n : InputNode) (fields : InputMap),
    v.entry s .inputs key = some n → w.entry s .inputFields key = none →
      ((n.fields host).runIn v).1 = .ok fields →
        Collapsed (w.registries s).ownInputs InputFieldSpec.exposedName InputFieldSpec.property
          n.cls.oldestFirst (fun x ↦ InputCompiledFrom host w s n.cls x.2) fields

end Workspace

section Collapsed

variable {σ : Type} {host : Host σ} {w : Workspace σ} {s : SessionId} {cls : ClassRef}
  {walk : List ClassRef}

theorem MergesFields.collapsed (hr : (w.registries s).Keyed)
    {outcome : Except CompileError FieldMap}
    (h : MergesFields host w s cls walk outcome) {fields : FieldMap} (ho : outcome = .ok fields) :
    Collapsed (w.registries s).ownFields FieldSpec.exposedName FieldSpec.property walk
      (CompiledFrom host w s) fields where
  last _ _ hb := (h.merges fields ho).last_of_class hb
  keeps_iff := (h.merges fields ho).keepsAll_iff (fun _ _ hmade ↦ hmade.madeOf.property_eq)
    fun _ _ hf _ hg ↦ hr.fields.eq_of_property_eq (List.mem_filter.1 hf).1 (List.mem_filter.1 hg).1

theorem MergesInputs.collapsed (hr : (w.registries s).Keyed)
    {outcome : Except CompileError InputMap}
    (h : MergesInputs host w s cls walk outcome) {fields : InputMap} (ho : outcome = .ok fields) :
    Collapsed (w.registries s).ownInputs InputFieldSpec.exposedName InputFieldSpec.property walk
      (fun x ↦ InputCompiledFrom host w s cls x.2) fields where
  last _ _ hb := (h.merges fields ho).last_of_class hb
  keeps_iff := (h.merges fields ho).keepsAll_iff (fun _ _ hmade ↦ hmade.property_eq)
    fun _ _ hf _ hg ↦ hr.inputFields.eq_of_property_eq hf hg

end Collapsed

namespace Workspace

variable {σ : Type} {d : Declarations} {host : Host σ} {w : Workspace σ} {s : SessionId}

/-- **What is lost where two names meet.**  Take any workspace of a run and a session that is open
in it, and let anything be compiled, but nothing be registered.  When a type without fields is asked
for them and they compile, every one of them is the last that some class on the walk declares under
its name, a class after which no other declares the name.  So no declaration is lost to another one
of its class exactly if no class on the walk has two properties under one name, except where a class
later on the walk declares the name again.  And when the arguments of a method compile, there is one
for every name under which callers can send a value: one for every parameter that is neither
injected nor hidden exactly if these parameters have different names. -/
theorem Reachable.collapses (hw : w.Reachable d host) (hs : w.isOpen s = true) :
    (∀ v, w.Aged d host v → w.Collapses host v s) ∧
      ∀ owner, ∀ f ∈ values ((w.registries s).fields.getAll owner.key), ∀ args params w',
        (compileArgs host s owner f).runIn w = (.ok (args, params), w') →
          keys args = ((w.registries s).callerNames owner f).eraseDups ∧
            (keys args = (w.registries s).callerNames owner f ↔
              ((w.registries s).callerNames owner f).Nodup) := by
  have hcoherent := hw.sound.coherent
  have hkeyed := hw.keyed s
  refine ⟨fun v hv ↦ ?_, fun owner f hf args params w' h ↦ ?_⟩
  · refine ⟨fun key n fields hn hnone ho ↦ ?_, fun key n fields hn hnone ho ↦ ?_,
      fun key n fields hn hnone ho ↦ ?_⟩
    · obtain ⟨-, -, -, -, ⟨c, hcls, -⟩, -⟩ := hv.proper (t := .objects) hn
      exact (hv.objectFields_merge hcoherent hs hn hcls hnone).collapsed hkeyed ho
    · exact (hv.interfaceFields_merge hcoherent hs hn hnone).collapsed hkeyed ho
    · exact (hv.inputFields_merge hcoherent hs hn hnone).collapsed hkeyed ho
  · have hspec := (hcoherent.registries s).fields owner.key f hf
    have hmade := compileArgs_madeOf hcoherent (lt_length_of_isOpen hs) (.refl hcoherent)
      hspec.params h
    have hkeys := hmade.keys_eq_callerNames
    exact ⟨hkeys, hkeys ▸ eraseDups_eq_self_iff⟩

end Workspace

/-! ### An instance -/

namespace Homonyms

/-- A class. -/
def point : ClassRef := .base ⟨1⟩ "Point"

/-- The class is all that is declared. -/
def declared : Declarations := .ofClasses [point] (by decide)

/-- A field. -/
def x : FieldSpec := { property := "x", type := some (.scalar .int) }

/-- Another field, exposed under the name of the first one. -/
def abscissa : FieldSpec := { property := "abscissa", name := some "x", type := some (.scalar .int) }

/-- A field with two parameters. -/
def move : FieldSpec where
  property := "move"
  type := some (.scalar .int)
  params := [{ name := "dx", signature := some (.scalar .int) },
    { name := "dy", signature := some (.scalar .int) }]
  method := some ⟨0⟩

/-- The class with its fields, and the second parameter exposed under the name of the first one. -/
def registered : Workspace Unit :=
  (((((Workspace.openSession { host := () } {}).2.modifyRegistries 0
    (·.objectType point {})).modifyRegistries 0
    (Registries.field point x).apply).modifyRegistries 0
    (Registries.field point abscissa).apply).modifyRegistries 0
    (Registries.field point move).apply).modifyRegistries 0
    (·.arg point "move" 1 { name := some "dx" })

/-- The class has been asked for as an object type. -/
def workspace : Workspace Unit := ((compileObject 0 point).runIn registered).2

theorem reachable : workspace.Reachable declared .idle := by
  have hpoint : declared.classes point := List.mem_cons_self
  have hint : ∀ offered t, some (TypeRef.scalar .int) = some t → t.Within declared offered := by
    rintro offered t ⟨⟩
    exact .scalar _
  have hx : ∀ offered, x.Within declared offered := fun offered ↦ ⟨hint offered, nofun, nofun⟩
  have habscissa : ∀ offered, abscissa.Within declared offered :=
    fun offered ↦ ⟨hint offered, nofun, nofun⟩
  have hmove : ∀ offered, move.Within declared offered := by
    refine fun offered ↦ ⟨hint offered, fun p hp g hg ↦ ?_, nofun⟩
    rcases List.mem_pair.1 hp with rfl | rfl <;> cases hg <;> exact .scalar _
  have hobject : ∀ offered, Registries.Change declared offered (·.objectType point {}) :=
    fun _ ↦ .objectType hpoint nofun
  have harg : ∀ offered, Registries.Change declared offered
      (·.arg point "move" 1 { name := some "dx" }) := fun _ ↦ .arg point "move" 1 nofun
  have hopened : Workspace.Reachable declared .idle _ :=
    (Workspace.Reachable.opened () {}).registered (s := 0) rfl (hobject _)
  have hregistered : registered.Reachable declared .idle :=
    (((hopened.registered (s := 0) rfl (.field point (hx _))).registered (s := 0) rfl
      (.field point (habscissa _))).registered (s := 0) rfl
      (.field point (hmove _))).registered (s := 0) rfl (harg _)
  exact hregistered.tail (.asked (.object (s := 0) rfl hpoint))

end Homonyms

open Homonyms in
/-- One of two fields of a class is lost, and one of two arguments of a method. -/
theorem Workspace.Reachable.collapses_homonyms :
    workspace.Reachable declared .idle ∧ workspace.isOpen 0 = true ∧
      (∃ n fields, workspace.entry 0 .objects point.key = some n ∧
        ((n.fields .idle).runIn workspace).1 = .ok fields ∧
        ¬KeepsAll (workspace.registries 0).ownFields FieldSpec.exposedName n.walk
          fun x ↦ ∃ b, (x.2.exposedName, b) ∈ fields ∧ CompiledFrom .idle workspace 0 x b) ∧
      ∃ args params w', (compileArgs .idle 0 point move).runIn workspace = (.ok (args, params), w') ∧
        (workspace.registries 0).callerNames point move = ["dx", "dx"] ∧ keys args = ["dx"] := by
  have hopen : workspace.isOpen 0 = true := rfl
  obtain ⟨htypes, hmethods⟩ := reachable.collapses hopen
  have hself := htypes workspace (.refl reachable.sound.coherent)
  have hnode : (workspace.entry 0 .objects point.key).map
      (fun n : ObjectNode ↦ (n.walk, ((n.fields .idle).runIn workspace).1.toOption.isSome)) =
        some ([point], true) := by cbv
  obtain ⟨n, hn, hn'⟩ := Option.map_eq_some_iff.1 hnode
  obtain ⟨hwalk, hok⟩ : n.walk = [point] ∧
      ((n.fields .idle).runIn workspace).1.toOption.isSome = true := by
    simpa only [Prod.mk.injEq] using hn'
  rcases hfields : ((n.fields .idle).runIn workspace).1 with e | fields
  · rw [hfields] at hok
    cases hok
  have hcollapsed := hself.objects point.key n fields hn rfl hfields
  have hown : (workspace.registries 0).ownFields point = [x, abscissa, move] := by cbv
  have hlost : ¬TellsApart (workspace.registries 0).ownFields FieldSpec.exposedName
      FieldSpec.property n.walk := by
    intro hapart
    obtain ⟨c, hc, -⟩ := hapart [] point [] hwalk x (hown ▸ .head _) abscissa
      (hown ▸ .tail _ (.head _)) rfl (by decide)
    exact absurd hc List.not_mem_nil
  have hargs : ((compileArgs .idle 0 point move).runIn workspace).1.toOption.isSome = true := by cbv
  rcases hrun : (compileArgs .idle 0 point move).runIn workspace with ⟨e | ⟨args, params⟩, w'⟩ <;>
    rw [hrun] at hargs
  · cases hargs
  have hmove : move ∈ (workspace.registries 0).ownFields point :=
    hown ▸ .tail _ (.tail _ (.head _))
  have hkeys := (hmethods point move (List.mem_filter.1 hmove).1 args params w' hrun).1
  have hnames : (workspace.registries 0).callerNames point move = ["dx", "dx"] := by cbv
  rw [hnames] at hkeys
  exact ⟨reachable, hopen, ⟨n, fields, hn, hfields, mt hcollapsed.keeps_iff.1 hlost⟩, args, params,
    w', rfl, hnames, hkeys.trans (by decide)⟩

end ApiGraph
