import ApiGraph.Proofs.Compile.Failures
import ApiGraph.Proofs.Field.Binding

/-!
# What a walk of classes declares, merged

A type sees the declarations of several classes, in the order of a walk through them, and a class
may be passed more than once.  Its field map has one entry for every name that is exposed on the
walk, at the place of the first declaration of the name and with the contents of the last.

## What is here

* `Registries.ownFields`, `Registries.ownInputs`: what a class declares itself, and `declaredOn`:
  what a walk passes.
* `Merges`: a map has of every name the last declaration.
* `compileFields_merges` and `compileInputFields_merges`: what becomes of a walk.
-/

set_option autoImplicit false

namespace ApiGraph

open Compile (Settles)

variable {σ α β : Type} {d : Declarations} {host : Host σ} {w : Workspace σ} {s : SessionId}

/-! ## Declarations -/

namespace Registries

/-- The fields that a class declares itself, in order, other than root fields. -/
def ownFields (r : Registries) (owner : ClassRef) : List FieldSpec :=
  (OrderedMap.values (r.fields.getAll owner.key)).filter (·.exposure.isNone)

/-- The input fields that a class declares itself, in order. -/
def ownInputs (r : Registries) (owner : ClassRef) : List InputFieldSpec :=
  OrderedMap.values (r.inputFields.getAll owner.key)

/-- Some class of a walk declares a root field. -/
def DeclaresRoot (r : Registries) (walk : List ClassRef) : Prop :=
  ∃ owner ∈ walk, ∃ f ∈ OrderedMap.values (r.fields.getAll owner.key), f.exposure.isSome = true

end Registries

/-- What a walk of classes passes: the declarations of every class, each with the class. -/
def declaredOn (own : ClassRef → List α) (walk : List ClassRef) : List (ClassRef × α) :=
  walk.flatMap fun owner ↦ (own owner).map fun a ↦ (owner, a)

theorem mem_declaredOn {own : ClassRef → List α} {walk : List ClassRef} {x : ClassRef × α} :
    x ∈ declaredOn own walk ↔ x.1 ∈ walk ∧ x.2 ∈ own x.1 := by
  rw [declaredOn, List.mem_flatMap]
  constructor
  · rintro ⟨owner, howner, hx⟩
    obtain ⟨a, ha, rfl⟩ := List.mem_map.1 hx
    exact ⟨howner, ha⟩
  · exact fun ⟨howner, ha⟩ ↦ ⟨x.1, howner, List.mem_map.2 ⟨x.2, ha, rfl⟩⟩

/-- A map has of every name that is declared the last declaration: its keys are the names, in the
order in which they first occur, and every entry is made of the last declaration of its name. -/
structure Merges (name : α → String) (declared : List (ClassRef × α))
    (madeOf : ClassRef × α → β → Prop) (fields : OrderedMap String β) : Prop where
  keys_eq : OrderedMap.keys fields = (declared.map fun x ↦ name x.2).eraseDups
  last : ∀ key b, (key, b) ∈ fields →
    ∃ x, LastNamed (fun x ↦ name x.2) declared key x ∧ madeOf x b

namespace Merges

variable {name : α → String} {declared : List (ClassRef × α)}

/-- The map of the declarations by name, made into a map of fields entry by entry. -/
theorem of_forall₂ {value : ClassRef × α → β} {γ : Type} {makes : β → γ → Prop}
    {fields : OrderedMap String γ}
    (h : List.Forall₂ (fun e e' ↦ e'.1 = e.1 ∧ makes e.2 e'.2)
      (OrderedMap.ofEntries (declared.map fun x ↦ (name x.2, value x))) fields) :
    Merges name declared (fun x c ↦ makes (value x) c) fields where
  keys_eq := by
    have hkeys : OrderedMap.keys fields =
        OrderedMap.keys (OrderedMap.ofEntries (declared.map fun x ↦ (name x.2, value x))) := by
      have heq := List.forall₂_map_left_iff.2 (List.forall₂_map_right_iff.2
        (h.imp fun _ _ he ↦ he.1.symm))
      exact (List.forall₂_eq_eq_eq ▸ heq).symm
    rw [hkeys, OrderedMap.keys_ofEntries, List.map_map]
    rfl
  last key c hc := by
    obtain ⟨⟨key', b⟩, hb, hkey, hmakes⟩ := exists_left_of_forall₂ h hc
    cases hkey
    have hfind := (OrderedMap.find_eq_some_iff (OrderedMap.nodup_keys_ofEntries _)).2 hb
    obtain ⟨before, after, hsplit, -, hafter⟩ := OrderedMap.find_ofEntries_eq_some_iff.1 hfind
    obtain ⟨l, l', rfl, hl, hl'⟩ := List.map_eq_append_iff.1 hsplit
    obtain ⟨x, l'', rfl, hx, rfl⟩ := List.map_eq_cons_iff.1 hl'
    cases hx
    exact ⟨x, ⟨l, l'', rfl, rfl, fun y hy ↦ hafter _ (List.mem_map_of_mem hy)⟩, hmakes⟩

/-- The last declaration of a name has an entry. -/
theorem exists_of_lastNamed {madeOf : ClassRef × α → β → Prop} {fields : OrderedMap String β}
    (h : Merges name declared madeOf fields) {key : String} {x : ClassRef × α}
    (hx : LastNamed (fun x ↦ name x.2) declared key x) : ∃ b, (key, b) ∈ fields ∧ madeOf x b := by
  have hkey : key ∈ OrderedMap.keys fields := by
    rw [h.keys_eq, List.mem_eraseDups, ← hx.name_eq]
    exact List.mem_map_of_mem hx.mem
  obtain ⟨⟨_, b⟩, hb, rfl⟩ := List.mem_map.1 hkey
  obtain ⟨y, hy, hmade⟩ := h.last _ b hb
  exact ⟨b, hb, hx.unique hy ▸ hmade⟩

end Merges

/-! ## What is collected -/

/-- Adds a declaration to those that are collected for a class. -/
def collectField (r : Registries) (cls : ClassRef)
    (found : OrderedMap String (ClassRef × FieldSpec)) (x : ClassRef × FieldSpec) :
    Except CompileError (OrderedMap String (ClassRef × FieldSpec)) :=
  if x.2.exposure.isSome then
    if r.isRoot cls.key then .ok found
    else .error (.type (.rootFieldOnNonRoot cls.name x.2.property))
  else .ok (OrderedMap.put found x.2.exposedName x)

theorem collectFields_eq (r : Registries) (cls : ClassRef) (walk : List ClassRef) :
    collectFields r cls walk =
      (declaredOn (fun c ↦ OrderedMap.values (r.fields.getAll c.key)) walk).foldlM
        (collectField r cls) [] := by
  simp only [collectFields, declaredOn, OrderedMap.values, List.map_map]
  rfl

/-- Declarations are put into the map one after the other; only a root field where none may be stops
this, and where it may be it is passed over. -/
theorem foldlM_collectField (r : Registries) (cls : ClassRef) (l : List (ClassRef × FieldSpec))
    (found : OrderedMap String (ClassRef × FieldSpec)) :
    (∀ m, l.foldlM (collectField r cls) found = .ok m →
      (∀ x ∈ l, x.2.exposure.isSome = true → r.isRoot cls.key = true) ∧
        m = ((l.filter (·.2.exposure.isNone)).map fun x ↦ (x.2.exposedName, x)).foldl
          (fun m e ↦ OrderedMap.put m e.1 e.2) found) ∧
    ∀ e, l.foldlM (collectField r cls) found = .error e →
      r.isRoot cls.key = false ∧ ∃ x ∈ l, x.2.exposure.isSome = true ∧
        e = .type (.rootFieldOnNonRoot cls.name x.2.property) := by
  induction l generalizing found with
  | nil =>
    rw [List.foldlM_nil]
    exact ⟨fun m h ↦ ⟨fun _ hx ↦ absurd hx List.not_mem_nil, (Except.ok.inj h).symm⟩, nofun⟩
  | cons x rest ih =>
    rw [List.foldlM_cons, collectField]
    by_cases hx : x.2.exposure.isSome = true
    · have hfilter : (x :: rest).filter (·.2.exposure.isNone) =
          rest.filter (·.2.exposure.isNone) :=
        List.filter_cons_of_neg (by simpa using Option.isSome_iff_ne_none.1 hx)
      rw [if_pos hx, hfilter]
      by_cases hroot : r.isRoot cls.key = true
      · obtain ⟨hok, herr⟩ := ih found
        rw [if_pos hroot]
        refine ⟨fun m h ↦ ⟨fun _ _ _ ↦ hroot, (hok m h).2⟩, fun e h ↦ ?_⟩
        exact absurd ((herr e h).1.symm.trans hroot) Bool.false_ne_true
      · rw [if_neg hroot]
        refine ⟨nofun, fun e h ↦ ⟨Bool.eq_false_iff.2 hroot, x, List.mem_cons_self, hx, ?_⟩⟩
        exact (Except.error.inj h).symm
    · have hfilter : (x :: rest).filter (·.2.exposure.isNone) =
          x :: rest.filter (·.2.exposure.isNone) :=
        List.filter_cons_of_pos (by simpa using hx)
      obtain ⟨hok, herr⟩ := ih (OrderedMap.put found x.2.exposedName x)
      rw [if_neg hx, hfilter]
      refine ⟨fun m h ↦ ⟨?_, (hok m h).2⟩, fun e h ↦ ?_⟩
      · exact List.forall_mem_cons.2 ⟨fun h ↦ absurd h hx, (hok m h).1⟩
      · obtain ⟨hroot, y, hy, he⟩ := herr e h
        exact ⟨hroot, y, List.mem_cons_of_mem _ hy, he⟩

/-- The declarations of a class are its own fields and its root fields. -/
theorem filter_declaredOn (r : Registries) (walk : List ClassRef) :
    (declaredOn (fun c ↦ OrderedMap.values (r.fields.getAll c.key)) walk).filter
      (·.2.exposure.isNone) = declaredOn r.ownFields walk := by
  simp only [declaredOn, List.filter_flatMap, List.filter_map]
  rfl

/-- What is collected for a class is what the walk declares, by name; unless there is a root field
where none may be. -/
theorem collectFields_outcome (r : Registries) (cls : ClassRef) (walk : List ClassRef) :
    (∀ m, collectFields r cls walk = .ok m →
      (r.DeclaresRoot walk → r.isRoot cls.key = true) ∧
        m = OrderedMap.ofEntries
          ((declaredOn r.ownFields walk).map fun x ↦ (x.2.exposedName, x))) ∧
    ∀ e, collectFields r cls walk = .error e →
      r.DeclaresRoot walk ∧ r.isRoot cls.key = false ∧
        ∃ field, e = .type (.rootFieldOnNonRoot cls.name field) := by
  rw [collectFields_eq]
  obtain ⟨hok, herr⟩ := foldlM_collectField r cls
    (declaredOn (fun c ↦ OrderedMap.values (r.fields.getAll c.key)) walk) []
  refine ⟨fun m h ↦ ?_, fun e h ↦ ?_⟩
  · obtain ⟨hroot, hm⟩ := hok m h
    rw [filter_declaredOn] at hm
    refine ⟨fun ⟨c, hc, f, hf, hexposed⟩ ↦ ?_, hm⟩
    exact hroot (c, f) (mem_declaredOn.2 ⟨hc, hf⟩) hexposed
  · obtain ⟨hroot, x, hx, hexposed, he⟩ := herr e h
    obtain ⟨hc, hf⟩ := mem_declaredOn.1 hx
    exact ⟨⟨x.1, hc, x.2, hf, hexposed⟩, hroot, x.2.property, he⟩

/-! ## What is compiled -/

/-- A field is compiled, in a workspace, from a declaration, as a field of the class that declares
it. -/
structure CompiledFrom (host : Host σ) (w : Workspace σ) (s : SessionId) (x : ClassRef × FieldSpec)
    (field : CompiledField) : Prop where
  compiled : ((compileField host s x.1 x.2 none).runIn w).1 = .ok field
  madeOf : MadeOf host (w.registries s) x.1 x.2 field

/-- An input field is compiled, in a workspace, from a declaration, for an input type. -/
structure InputCompiledFrom (host : Host σ) (w : Workspace σ) (s : SessionId) (cls : ClassRef)
    (spec : InputFieldSpec) (field : CompiledInputField) : Prop where
  compiled : ((compileInputField host s cls spec).runIn w).1 = .ok field
  name_eq : field.name = spec.exposedName
  property_eq : field.property = spec.property
  default_eq : field.default = spec.default

/-- What the fields of a class come to along a walk: they are refused as root fields exactly if the
walk declares one and the class is no schema root; and otherwise, if they all compile, the walk is
merged. -/
structure MergesFields (host : Host σ) (w : Workspace σ) (s : SessionId) (cls : ClassRef)
    (walk : List ClassRef) (outcome : Except CompileError FieldMap) : Prop where
  refused_iff : (∃ c field, outcome = .error (.type (.rootFieldOnNonRoot c field))) ↔
    (w.registries s).DeclaresRoot walk ∧ (w.registries s).isRoot cls.key = false
  merges : ∀ fields, outcome = .ok fields →
    Merges FieldSpec.exposedName (declaredOn (w.registries s).ownFields walk)
      (CompiledFrom host w s) fields

/-- What the input fields of a class come to along a walk: they are never refused as root fields,
and if they all compile, the walk is merged. -/
structure MergesInputs (host : Host σ) (w : Workspace σ) (s : SessionId) (cls : ClassRef)
    (walk : List ClassRef) (outcome : Except CompileError InputMap) : Prop where
  not_refused : ∀ c field, outcome ≠ .error (.type (.rootFieldOnNonRoot c field))
  merges : ∀ fields, outcome = .ok fields →
    Merges InputFieldSpec.exposedName (declaredOn (w.registries s).ownInputs walk)
      (fun x ↦ InputCompiledFrom host w s cls x.2) fields

/-- Compiles the value of an entry, which stays under its key. -/
def compileEntry {ν : Type} (f : ν → Compile σ β) (e : String × ν) : Compile σ (String × β) := do
  let b ← f e.2
  return (e.1, b)

/-- Entries that are compiled one after the other are compiled one by one, each as it would be
first. -/
theorem forall₂_of_runIn_compileEntry {ν : Type} {f : ν → Compile σ β}
    {nodes : β → List GraphNode} {p : ν → β → Prop} {entries : List (String × ν)}
    (hw : w.Coherent d) (hf : ∀ e ∈ entries, Settles d host w [] (f e.2) nodes)
    (hp : ∀ e ∈ entries, ∀ {w₁ w₂ : Workspace σ} {b : β}, w.Filled d host w₁ →
      (f e.2).runIn w₁ = (.ok b, w₂) → p e.2 b)
    {fields : List (String × β)}
    (h : ((entries.mapM (compileEntry f)).runIn w).1 = .ok fields) :
    List.Forall₂ (fun e e' ↦ e'.1 = e.1 ∧ p e.2 e'.2) entries fields := by
  have hentry : ∀ e ∈ entries, Settles d host w [] (compileEntry f e) fun e ↦ nodes e.2 :=
    fun e he ↦ (hf e he).bind fun b _ ↦
      .pure (fun n hn ↦ .inl (List.mem_append_left _ hn)) trivial
  refine (Settles.forall₂_of_runIn_mapM hentry
    (p := fun e e' _ ↦ e'.1 = e.1 ∧ p e.2 e'.2) (fun e he w₁ b w₂ hw₁ hrun ↦ ?_)
    (fun _ _ _ _ _ ↦ id) (.refl hw) (Prod.ext h rfl)).2
  obtain ⟨b', w₃, hb, hrun⟩ := Compile.runIn_bind_eq_ok hrun
  cases hrun
  exact ⟨rfl, hp e he hw₁ hb⟩

section Compile

variable (hw : w.Coherent d) (hs : s < w.sessions.length)
include hw hs

/-- A field is compiled from a declaration, whatever has been compiled before it. -/
theorem CompiledFrom.of_run {x : ClassRef × FieldSpec} (hx : x.2.Within d (w.Offers d))
    {w₁ w₂ : Workspace σ} (hw₁ : w.Filled d host w₁) {field : CompiledField}
    (h : (compileField host s x.1 x.2 none).runIn w₁ = (.ok field, w₂)) :
    CompiledFrom host w s x field := by
  have hsettles : Settles d host w [] (compileField host s x.1 x.2 none) CompiledField.nodes :=
    compileField_settles hw hs x.1 hx none
  exact ⟨hsettles.runIn_eq (.refl hw) hw₁ ▸ congrArg Prod.fst h,
    compileField_madeOf hw hs hw₁ hx h⟩

omit hw hs in
theorem compileInputField_madeOf {cls : ClassRef} {spec : InputFieldSpec}
    {field : CompiledInputField} {w₁ w₂ : Workspace σ}
    (h : (compileInputField host s cls spec).runIn w₁ = (.ok field, w₂)) :
    field.name = spec.exposedName ∧ field.property = spec.property ∧
      field.default = spec.default := by
  rw [compileInputField] at h
  split at h
  · cases h
  obtain ⟨type, w₃, -, h⟩ := Compile.runIn_bind_eq_ok h
  split at h <;> cases h
  exact ⟨rfl, rfl, rfl⟩

theorem InputCompiledFrom.of_run {cls : ClassRef} {spec : InputFieldSpec}
    (hspec : spec.Within d (w.Offers d)) {w₁ w₂ : Workspace σ} (hw₁ : w.Filled d host w₁)
    {field : CompiledInputField}
    (h : (compileInputField host s cls spec).runIn w₁ = (.ok field, w₂)) :
    InputCompiledFrom host w s cls spec field := by
  have hsettles : Settles d host w [] (compileInputField host s cls spec) _ :=
    compileInputField_settles hw hs cls hspec
  obtain ⟨hname, hproperty, hdefault⟩ := compileInputField_madeOf h
  exact ⟨hsettles.runIn_eq (.refl hw) hw₁ ▸ congrArg Prod.fst h, hname, hproperty, hdefault⟩

/-- The fields that are collected are compiled one by one, whatever has been compiled before. -/
theorem compileFields_merges (cls : ClassRef) (walk : List ClassRef) :
    MergesFields host w s cls walk ((compileFields host s cls walk).runIn w).1 := by
  obtain ⟨hok, herr⟩ := collectFields_outcome (w.registries s) cls walk
  have hrun : (compileFields host s cls walk).runIn w =
      (ExceptT.mk (pure (collectFields (w.registries s) cls walk)) >>= fun declared ↦
        declared.mapM (compileEntry fun x ↦ compileField host s x.1 x.2 none) :
          Compile σ FieldMap).runIn w := rfl
  rw [hrun]
  cases hcollect : collectFields (w.registries s) cls walk with
  | error e =>
    obtain ⟨hdeclares, hroot, field, rfl⟩ := herr e hcollect
    rw [Compile.runIn_bind_of_error (Compile.runIn_mk_pure _ w)]
    exact ⟨⟨fun _ ↦ ⟨hdeclares, hroot⟩, fun _ ↦ ⟨_, _, rfl⟩⟩, nofun⟩
  | ok declared =>
    obtain ⟨hroot, hdeclared⟩ := hok declared hcollect
    have hwithin := (collectFields_spec (hw.registries s).fields).1 _ hcollect
    rw [Compile.runIn_bind_of_ok (Compile.runIn_mk_pure _ w)]
    refine ⟨⟨?_, fun ⟨hdeclares, hno⟩ ↦ ?_⟩, fun fields h ↦ ?_⟩
    · rintro ⟨c, field, h⟩
      have hfails : FailsOnly CompileError.OfField (declared.mapM (compileEntry fun x ↦
          compileField host s x.1 x.2 none) : Compile σ FieldMap) :=
        .mapM fun e _ ↦ (compileField_failsOnly s host e.2.1 e.2.2 none).bind fun _ ↦ .pure _
      exact absurd (Eq.symm (hfails w _ h)) Bool.false_ne_true
    · exact absurd (hno.symm.trans (hroot hdeclares)) Bool.false_ne_true
    · have hforall := forall₂_of_runIn_compileEntry (p := CompiledFrom host w s) hw
        (fun e he ↦ compileField_settles hw hs e.2.1 (hwithin e he) none)
        (fun e he _ _ _ hw₁ hrun ↦ .of_run hw hs (hwithin e he) hw₁ hrun) h
      rw [hdeclared] at hforall
      exact .of_forall₂ hforall

omit hw hs in
/-- What is collected for an input type is what its lineage declares, by name. -/
theorem collectInputFields_eq (r : Registries) (walk : List ClassRef) :
    collectInputFields r walk = OrderedMap.ofEntries
      ((declaredOn r.ownInputs walk).map fun x ↦ (x.2.exposedName, x.2)) := by
  simp only [collectInputFields, declaredOn, Registries.ownInputs, OrderedMap.values,
    List.map_flatMap, List.map_map]
  rfl

/-- The input fields of a lineage are compiled one by one as well. -/
theorem compileInputFields_merges (cls : ClassRef) :
    MergesInputs host w s cls cls.oldestFirst ((compileInputFields host s cls).runIn w).1 := by
  have hrun : (compileInputFields host s cls).runIn w =
      ((collectInputFields (w.registries s) cls.oldestFirst).mapM
        (compileEntry (compileInputField host s cls)) : Compile σ InputMap).runIn w := rfl
  rw [hrun]
  have hcollect := collectInputFields_eq (w.registries s) cls.oldestFirst
  generalize collectInputFields (w.registries s) cls.oldestFirst = declared at hcollect
  refine ⟨fun c field h ↦ ?_, fun fields h ↦ ?_⟩
  · have hfails : FailsOnly CompileError.OfField
        (declared.mapM (compileEntry (compileInputField host s cls)) : Compile σ InputMap) :=
      .mapM fun e _ ↦ (compileInputField_failsOnly s host cls e.2).bind fun _ ↦ .pure _
    exact absurd (Eq.symm (hfails w _ h)) Bool.false_ne_true
  · have hwithin : ∀ e ∈ declared, e.2.Within d (w.Offers d) := by
      rw [hcollect]
      intro e he
      obtain ⟨x, hx, rfl⟩ := List.mem_map.1 (OrderedMap.mem_of_mem_ofEntries he)
      exact (hw.registries s).inputFields x.1.key x.2 (mem_declaredOn.1 hx).2
    have hforall := forall₂_of_runIn_compileEntry (p := InputCompiledFrom host w s cls) hw
      (fun e he ↦ compileInputField_settles hw hs cls (hwithin e he))
      (fun e he _ _ _ hw₁ hrun ↦ .of_run hw hs (hwithin e he) hw₁ hrun) h
    rw [hcollect] at hforall
    exact .of_forall₂ hforall

end Compile

end ApiGraph
