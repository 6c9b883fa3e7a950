import ApiGraph.Proofs.Argument.Termination
import ApiGraph.Proofs.Field.Binding
import ApiGraph.Proofs.FieldMap.Conformance
import ApiGraph.Proofs.Session.Duplex
import ApiGraph.Proofs.Session.Lifetime

/-!
# Duplex types give back what they get

An input object is converted to an instance: what is supplied under the name of a field is converted
and stored under its property.  An output field goes the other way: what an instance has under the
property of the field is returned under its name, after a cast.  For a class with the same fields on
both sides the second undoes the first.  Names lead to properties and back if the two correspond one
to one, wherever in the lineage they are declared, and the cast finds nothing to do.

## What is here

* `OrderedMap.find_of_filled`: what an instance has under the property of a field.
* `CompiledField.Returns`: what a field returns without its hooks, with `returns_of_find`.
* `CompiledInputField.Mirrors`: an input field and an output field are the two sides of one.
* `GivesBack`: an output field returns what was supplied for an input field.
* `Registries.Sees`: what a walk sees of a name, with `Registries.Sees.mirrors`.
* `Workspace.DuplexRun.gives_back`: the fields of duplex types do, in every run.
-/

set_option autoImplicit false

namespace ApiGraph

open OrderedMap (find)
open Relation (ReflTransGen)
open Workspace (Step)

variable {σ : Type} {d : Declarations} {host : Host σ} {w w' u v : Workspace σ} {s : SessionId}

/-! ## What is filled in -/

section Filled

variable {convert : GraphType → WireValue → Answer HostValue} {supplied : List (String × WireValue)}

/-- What a field is filled with stands under its property. -/
theorem CompiledInputField.property_of_fill {f : CompiledInputField} {e : String × HostValue}
    (h : f.fill convert supplied = Answer.given (.ok (some e))) : e.1 = f.property := by
  rcases hraw : (find supplied f.name).or f.default with _ | raw
  · rw [fill, hraw] at h
    cases h
  · rw [fill_of_raw hraw] at h
    obtain ⟨y, -, hy⟩ := Answer.bind_eq_ok h
    cases hy
    rfl

/-- Fields are filled one by one.  If no other field has the property of a field, what it is filled
with is found there, and nothing is found if it is not filled. -/
theorem OrderedMap.find_of_filled {fields : List CompiledInputField}
    {props : List (Option (String × HostValue))}
    (h : List.Forall₂ (fun f p ↦ f.fill convert supplied = Answer.given (.ok p)) fields props)
    {f : CompiledInputField} (hf : f ∈ fields)
    (honly : ∀ g ∈ fields, g.property = f.property → g = f) :
    ∃ p, f.fill convert supplied = Answer.given (.ok p) ∧
      find (ofEntries (props.filterMap fun p ↦ p)) f.property = p.map Prod.snd := by
  obtain ⟨p, hp, hfill⟩ := exists_right_of_forall₂ h hf
  have hentry : ∀ e ∈ props.filterMap fun p ↦ p, e.1 = f.property → p = some e := by
    intro e he hproperty
    obtain ⟨_, hmem, rfl⟩ := List.mem_filterMap.1 he
    obtain ⟨g, hg, hgfill⟩ := exists_left_of_forall₂ h hmem
    obtain rfl := honly g hg ((CompiledInputField.property_of_fill hgfill).symm.trans hproperty)
    cases hfill.symm.trans hgfill
    rfl
  refine ⟨p, hfill, ?_⟩
  rcases hfind : find (ofEntries (props.filterMap fun p ↦ p)) f.property with _ | y
  · rcases p with _ | e
    · rfl
    · have he : e ∈ props.filterMap fun p ↦ p := List.mem_filterMap.2 ⟨_, hp, rfl⟩
      refine absurd ?_ (find_eq_none_iff.1 hfind)
      rw [keys_ofEntries, List.mem_eraseDups, ← CompiledInputField.property_of_fill hfill]
      exact List.mem_map_of_mem he
  · rw [hentry _ (mem_of_mem_ofEntries (mem_of_find hfind)) rfl]
    rfl

end Filled

/-! ## What a field returns -/

/-- The resolver of a field without the hooks of the field. -/
def FieldResolver.unhooked (f : FieldResolver) : FieldResolver :=
  { f with before := [], after := [] }

/-- Without its hooks a field answers a source with a value, whatever it is called with. -/
def CompiledField.Returns (host : Host σ) (field : CompiledField) (source y : HostValue) : Prop :=
  ∀ args context info join,
    field.resolver.unhooked.call host source args context info join = pure y

/-- Without its hooks a field gives its value, cast. -/
theorem FieldResolver.call_unhooked (host : Host σ) (f : FieldResolver) (source : HostValue)
    (args : OrderedMap String HostValue) (context : Option RequestContext) (info : ResolveInfo)
    (join : HookJoin σ) :
    f.unhooked.call host source args context info join = (do
      let raw ← f.produce host (f.dataFor source args context info)
      ExceptT.mk (pure ((f.resultCast.apply f.fieldName raw).mapError .cast)) :
        Resolve σ HostValue) := by
  simp only [call, unhooked, joinHooks_nil, pure_bind, bind_pure]
  rfl

/-- A field of no method has of an instance what stands under its property. -/
theorem FieldResolver.target_instanceOf {f : FieldResolver} (hmethod : f.method = none)
    (cls : ClassRef) (props : List (String × HostValue)) :
    f.target (.instanceOf cls props []) = .value ((find props f.property).getD .undefined) := by
  have hget : (HostValue.instanceOf cls props []).get f.property = find props f.property := rfl
  have hown : ((HostValue.instanceOf cls props []).instance?.bind fun i ↦
    find i.methods f.property) = none := rfl
  rw [target, hown, hget, hmethod]
  cases find props f.property <;> rfl

/-- A field that reads a property returns what an instance has there, if the cast leaves that as it
is. -/
theorem CompiledField.returns_of_find {field : CompiledField} (hroot : field.resolver.root = none)
    (hmethod : field.resolver.method = none) {cls : ClassRef} {props : List (String × HostValue)}
    {y : HostValue} (hfind : (find props field.resolver.property).getD .undefined = y)
    (hcast : field.resolver.resultCast.apply field.resolver.fieldName y = .ok y) :
    field.Returns host (.instanceOf cls props []) y := by
  intro args context info join
  have hsource : (field.resolver.dataFor (.instanceOf cls props []) args context info).source =
      .instanceOf cls props [] := by
    rw [FieldResolver.dataFor, hroot, Option.map_none, Option.getD_none]
  rw [FieldResolver.call_unhooked, FieldResolver.produce, hsource,
    FieldResolver.target_instanceOf hmethod, hfind]
  show (pure y >>= fun raw ↦ _) = _
  rw [pure_bind, hcast]
  rfl

/-! ## The two sides of a field -/

/-- The type of an input field has the lists of the reference that its declaration has. -/
theorem compileInputField_inputShapes {cls : ClassRef} {spec : InputFieldSpec} {t : TypeRef}
    (htype : spec.type = some t) (ht : t.Plain) {f : CompiledInputField}
    (h : ((compileInputField host s cls spec).runIn w).1 = .ok f) :
    t.InputShapes (w.registries s) f.type := by
  rcases hrun : (compileInputField host s cls spec).runIn w with ⟨_, w'⟩
  rw [hrun] at h
  dsimp only at h
  subst h
  rw [compileInputField, htype] at hrun
  obtain ⟨type, w₁, hcaught, hrun⟩ := Compile.runIn_bind_eq_ok hrun
  split at hrun <;> cases hrun
  rename_i hinput
  rcases hresolve : (resolveType host s t _).runIn w with ⟨e | type', w₂⟩
  · rw [Compile.runIn_tryCatch_of_error hresolve] at hcaught
    cases hcaught
  · rw [Compile.runIn_tryCatch_of_ok hresolve] at hcaught
    cases hcaught
    exact resolveType_inputShapes ht hresolve hinput

/-- An input field and an output field are the two sides of one that reads a property: what is
converted for the one is not changed by the cast of the other. -/
structure CompiledInputField.Mirrors (f : CompiledInputField) (field : CompiledField) : Prop where
  default_eq : f.default = none
  property_eq : field.resolver.property = f.property
  root : field.resolver.root = none
  method : field.resolver.method = none
  cast : ∀ fieldsOf x y, f.type.suits x = true → fromInput fieldsOf f.type x = some (.ok y) →
    field.resolver.resultCast.apply field.resolver.fieldName y = .ok y

/-- A field that is compiled on both sides, perhaps at different times. -/
theorem CompiledFrom.mirrors (hw : w.Coherent d) (hs : s < w.sessions.length)
    (hinterfaces : ∀ key, (w.registries s).isInterface key = true →
      (w'.registries s).isInterface key = true)
    {b c : ClassRef} {spec : FieldSpec} (hspec : spec.IsProperty)
    (hwithin : spec.Within d (w.Offers d))
    {field : CompiledField} (hfield : CompiledFrom host w s (b, spec) field)
    {f : CompiledInputField} (hf : InputCompiledFrom host w' s c spec.toInput f) :
    f.Mirrors field := by
  rcases hrun : (compileField host s b spec none).runIn w with ⟨_, w₁⟩
  obtain rfl : _ = _ := (congrArg Prod.fst hrun).symm.trans hfield.compiled
  obtain ⟨hmade, hroot, hplan⟩ := compileField_parts hw hs (.refl hw) hwithin hrun
  refine ⟨hf.default_eq, hmade.source.trans hf.property_eq.symm, hroot,
    hmade.method.trans hspec.method, fun fieldsOf x y hx hy ↦ ?_⟩
  rw [← hplan w.host, FieldSpec.resultPlan]
  rcases htype : spec.type with _ | t
  · rfl
  · have hshapes := compileInputField_inputShapes htype (hspec.type t htype) hf.compiled
    exact CastPlan.apply_of_applyItem ((hshapes.imp hinterfaces).recast hx hy _ w.host)

/-! ## What is given back -/

/-- An output field returns of an instance, which has been made of an object, what has been supplied
for an input field: the value under the name of the input field as it is converted, null if that is
null, and undefined if there is none. -/
structure GivesBack (host : Host σ) (w : Workspace σ) (supplied : List (String × WireValue))
    (made : HostValue) (f : CompiledInputField) (field : CompiledField) : Prop where
  converted : ∀ x, find supplied f.name = some x →
    ∃ y, ((convertArgument host f.type x).runIn w).1 = .ok y ∧ field.Returns host made y
  null : find supplied f.name = some .null → field.Returns host made .null
  undefined : find supplied f.name = none → field.Returns host made .undefined

/-- An output field returns what was supplied for its input field, unless another input field has
the same property. -/
theorem CompiledInputField.Mirrors.givesBack {f : CompiledInputField} {field : CompiledField}
    (h : f.Mirrors field) (hw : w.Coherent d) {n : InputNode} (hn : w.Fills d host n)
    {inputs : InputMap} (hinputs : ∀ map, ((n.fields host).runIn w).1 = .ok map → map = inputs)
    (hf : f ∈ OrderedMap.values inputs)
    (honly : ∀ g ∈ OrderedMap.values inputs, g.property = f.property → g = f)
    {supplied : List (String × WireValue)}
    (hsuits : ∀ x, find supplied f.name = some x → f.type.suits x = true) {made : HostValue}
    (hmade : ((convertArgument host (.named (.input n)) (.object supplied)).runIn w).1 =
      .ok made) :
    GivesBack host w supplied made f field := by
  have htype : w.FillsType d host (.named (.input n)) := fun _ hm ↦ by
    cases hm
    exact hn
  rw [convertArgument_eq hw htype] at hmade
  rcases hanswer : fromInput (w.inputFieldsOf host) (.named (.input n)) (.object supplied)
    with _ | r
  · rw [hanswer] at hmade
    cases hmade
  obtain rfl : r = .ok made := by rwa [hanswer] at hmade
  obtain ⟨fields, props, hfields, hfilled, rfl⟩ := fromInput_object_ok hanswer
  obtain rfl := hinputs fields hfields
  obtain ⟨p, hfill, hfind⟩ := OrderedMap.find_of_filled hfilled hf honly
  rw [← h.property_eq] at hfind
  have hconverted : ∀ x, find supplied f.name = some x → ∃ y,
      ((convertArgument host f.type x).runIn w).1 = .ok y ∧
        field.Returns host (.instanceOf n.cls
          (OrderedMap.ofEntries (props.filterMap fun p ↦ p)) []) y := by
    intro x hx
    have hraw : (find supplied f.name).or f.default = some x := by rw [hx, Option.some_or]
    rw [fill_of_raw hraw] at hfill
    obtain ⟨y, hy, hpy⟩ := Answer.bind_eq_ok hfill
    cases hpy
    refine ⟨y, ?_, CompiledField.returns_of_find h.root h.method ?_ ?_⟩
    · rw [convertArgument_eq hw (hn.fields hw hfields hf), hy]
      rfl
    · rw [hfind]
      rfl
    · exact h.cast _ x y (hsuits x hx) hy
  refine ⟨hconverted, fun hnull ↦ ?_, fun hnone ↦ ?_⟩
  · obtain ⟨y, hy, hreturns⟩ := hconverted _ hnull
    rw [convertArgument_eq hw (hn.fields hw hfields hf), fromInput_null] at hy
    cases hy
    exact hreturns
  · rw [fill, hnone, h.default_eq] at hfill
    cases hfill
    refine CompiledField.returns_of_find h.root h.method ?_ (CastPlan.apply_of_isNullish _ _ rfl)
    rw [hfind]
    rfl

/-! ## Runs -/

/-- The output fields of an object type are those of a walk that ends in the lineage of its
class. -/
theorem ObjectNode.merges_own (hw : w.Coherent d) {c : ClassRef} (hc : d.classes c) {o : ObjectNode}
    (ho : w.entry s .objects c.key = some o) (hnone : w.entry s .objectFields c.key = none)
    {fields : FieldMap} (h : ((o.fields host).runIn w).1 = .ok fields) :
    ∃ before, Merges FieldSpec.exposedName
      (declaredOn (w.registries s).ownFields (before ++ c.oldestFirst)) (CompiledFrom host w s)
      fields := by
  have hkept : LazyNode.KeptBy w s c.key (.object o) := ho
  obtain ⟨-, ⟨c', hcls, hc', hkey⟩, -⟩ := hw.entries (t := .objects) ho
  obtain rfl := d.classes_inj hc' hc hkey
  have hwalk : o.walk = (o.interfaces.map InterfaceNode.cls ++ o.mixins).flatMap
      ClassRef.oldestFirst ++ c'.oldestFirst := by
    rw [walk, hcls, List.flatMap_append]
    exact congrArg _ (List.append_nil _)
  have hmerges := (Workspace.Aged.objectFields_merge hw (hkept.isOpen_of_ok hw hnone h) (.refl hw)
    ho hcls hnone).merges _ h
  rw [hwalk] at hmerges
  exact ⟨_, hmerges⟩

/-- The input fields of an input type are those of the lineage of its class. -/
theorem InputNode.merges_own (hw : w.Coherent d) {c : ClassRef} (hc : d.classes c) {n : InputNode}
    (hn : w.entry s .inputs c.key = some n) (hnone : w.entry s .inputFields c.key = none)
    {inputs : InputMap} (h : ((n.fields host).runIn w).1 = .ok inputs) :
    Merges InputFieldSpec.exposedName (declaredOn (w.registries s).ownInputs c.oldestFirst)
      (fun x ↦ InputCompiledFrom host w s c x.2) inputs := by
  have hkept : LazyNode.KeptBy w s c.key (.input n) := hn
  obtain ⟨-, ⟨hcn, hkey⟩, -⟩ := hw.entries (t := .inputs) hn
  have hcls : n.cls = c := d.classes_inj hcn hc hkey
  have hmerges := (Workspace.Aged.inputFields_merge hw (hkept.isOpen_of_ok hw hnone h) (.refl hw)
    hn hnone).merges _ h
  rwa [hcls] at hmerges

/-- What a walk declares on the input side comes from what it declares on the output side. -/
theorem Registries.lastNamed_ownInputs {r : Registries} {walk : List ClassRef}
    (h : ∀ c ∈ walk, r.Duplex c) {key : String} {x : ClassRef × InputFieldSpec} :
    LastNamed (fun x ↦ x.2.exposedName) (declaredOn r.ownInputs walk) key x ↔
      ∃ y, LastNamed (fun y ↦ y.2.exposedName) (declaredOn r.ownFields walk) key y ∧
        (y.1, y.2.toInput) = x := by
  rw [declaredOn_ownInputs h, lastNamed_map_iff]
  rfl

/-- What a walk sees of a name: of all that it passes, what it passes last. -/
def Registries.Sees (r : Registries) (walk : List ClassRef) (name : String)
    (x : ClassRef × FieldSpec) : Prop :=
  LastNamed (fun x ↦ x.2.exposedName) (declaredOn r.ownFields walk) name x

section Sides

variable {c : ClassRef} {fields : FieldMap} {inputs : InputMap}
  (hduplex : ∀ b ∈ c.oldestFirst, (w'.registries s).Duplex b)
  (hinputs : Merges InputFieldSpec.exposedName
    (declaredOn (w'.registries s).ownInputs c.oldestFirst)
    (fun x ↦ InputCompiledFrom host w' s c x.2) inputs)
include hduplex hinputs

/-- What a lineage sees on either side has its two sides, whatever an object type sees before the
lineage. -/
theorem Registries.Sees.mirrors (hw : w.Coherent d) (hs : s < w.sessions.length)
    (hduplex₀ : ∀ b ∈ c.oldestFirst, (w.registries s).Duplex b)
    (hinterfaces : ∀ key, (w.registries s).isInterface key = true →
      (w'.registries s).isInterface key = true)
    {before : List ClassRef} (hfields : Merges FieldSpec.exposedName
      (declaredOn (w.registries s).ownFields (before ++ c.oldestFirst)) (CompiledFrom host w s)
      fields)
    {name : String} {x : ClassRef × FieldSpec} (hx : (w.registries s).Sees c.oldestFirst name x)
    (hx' : (w'.registries s).Sees c.oldestFirst name x) :
    ∃ f field, (name, f) ∈ inputs ∧ (name, field) ∈ fields ∧ f.name = name ∧ f.Mirrors field := by
  obtain ⟨f, hf, hfmade⟩ :=
    hinputs.exists_of_lastNamed ((lastNamed_ownInputs hduplex).2 ⟨x, hx', rfl⟩)
  rw [declaredOn_append] at hfields
  obtain ⟨field, hfield, hmade⟩ := hfields.exists_of_lastNamed (lastNamed_append_iff.2 (.inl hx))
  obtain ⟨hb, hown⟩ := mem_declaredOn.1 hx.mem
  have hregistered := (List.mem_filter.1 hown).1
  exact ⟨f, field, hf, hfield, hfmade.name_eq.trans hx.name_eq,
    hmade.mirrors hw hs hinterfaces ((hduplex₀ x.1 hb).properties _ hregistered)
      ((hw.registries s).fields _ _ hregistered) hfmade⟩

/-- No two input fields have one property if names and properties correspond. -/
theorem Registries.OneToOne.eq_of_property (hone : (w'.registries s).OneToOne c.oldestFirst)
    {key key' : String} {f g : CompiledInputField} (hf : (key, f) ∈ inputs)
    (hg : (key', g) ∈ inputs) (h : g.property = f.property) : g = f := by
  obtain ⟨_, hlast, hmade⟩ := hinputs.last key f hf
  obtain ⟨_, hlast', hmade'⟩ := hinputs.last key' g hg
  obtain ⟨x, hx, rfl⟩ := (lastNamed_ownInputs hduplex).1 hlast
  obtain ⟨y, hy, rfl⟩ := (lastNamed_ownInputs hduplex).1 hlast'
  have hname : y.2.exposedName = x.2.exposedName :=
    (hone y hy.mem x hx.mem).2 (hmade'.property_eq.symm.trans (h.trans hmade.property_eq))
  have hkey : key' = key := hy.name_eq.symm.trans (hname.trans hx.name_eq)
  exact congrArg Prod.snd (List.inj_on_of_nodup_map hinputs.nodup_keys hg hf hkey)

end Sides

namespace Workspace

/-- **Duplex types give back what they get.**  Take a class whose lineage gets its fields by
accepted calls that register a property on both sides, with names and properties that correspond one
to one.  Its two field maps may be made at any moments, as long as what is an interface for the
output fields is one for the input fields.  At any later time convert an object, the entries of
which are well typed, to an instance of the class.  Then each field that the lineage has at both
moments returns of the instance, without its hooks, what was supplied under its name, as it was
converted; null if null was supplied; and undefined if nothing was. -/
theorem DuplexRun.gives_back {c : ClassRef} (hc : d.classes c)
    (hw : w.DuplexRun d host s c.oldestFirst) {o : ObjectNode}
    (ho : w.entry s .objects c.key = some o) (hnone : w.entry s .objectFields c.key = none)
    {fields : FieldMap} (hfields : ((o.fields host).runIn w).1 = .ok fields)
    (hw' : w'.DuplexRun d host s c.oldestFirst) {n : InputNode}
    (hn : w'.entry s .inputs c.key = some n) (hnone' : w'.entry s .inputFields c.key = none)
    {inputs : InputMap} (hinputs : (n.fields host).runIn w' = (.ok inputs, u))
    (hinterfaces : ∀ key, (w.registries s).isInterface key = true →
      (w'.registries s).isInterface key = true)
    (hone : (w'.registries s).OneToOne c.oldestFirst) (hv : ReflTransGen (Step d host) u v)
    {supplied : List (String × WireValue)}
    (hsuits : ∀ name f x, (name, f) ∈ inputs → find supplied name = some x →
      f.type.suits x = true)
    {made : HostValue}
    (hmade : ((convertArgument host (.named (.input n)) (.object supplied)).runIn v).1 =
      .ok made) :
    ∀ name x, (w.registries s).Sees c.oldestFirst name x →
      (w'.registries s).Sees c.oldestFirst name x → ∃ f field,
        (name, f) ∈ inputs ∧ (name, field) ∈ fields ∧ GivesBack host v supplied made f field := by
  have hcoh : w.Coherent d := hw.reachable.sound.coherent
  have hcoh' : w'.Coherent d := hw'.reachable.sound.coherent
  obtain ⟨before, hobject⟩ := ObjectNode.merges_own hcoh hc ho hnone hfields
  have hinput := InputNode.merges_own hcoh' hc hn hnone' (congrArg Prod.fst hinputs)
  -- later on the type has the same fields, if it has any
  have hkept : LazyNode.KeptBy w' s c.key (.input n) := hn
  have hasked : Step d host w' ((n.fields host).runIn w').2 := .asked (hkept.request hcoh')
  rw [hinputs] at hasked
  have hsteps : ReflTransGen (Step d host) w' v := hv.head hasked
  have hgiven : ∀ map, ((n.fields host).runIn v).1 = .ok map → map = inputs := fun map ↦
    hw'.reachable.eq_of_fields hkept hinputs hv
  have hcohv : v.Coherent d := (hw'.reachable.steps hsteps).sound.coherent
  have hfills : v.Fills d host n :=
    ⟨v, .refl hcohv, s, _, (hw'.reachable.lives hkept).node v hsteps⟩
  intro name x hx hx'
  obtain ⟨f, field, hf, hfield, hname, hmirrors⟩ :=
    hx.mirrors hw'.duplex hinput hcoh (lt_length_of_entry ho) hw.duplex hinterfaces hobject hx'
  have honly : ∀ g ∈ OrderedMap.values inputs, g.property = f.property → g = f := by
    intro g hg
    obtain ⟨_, hg', rfl⟩ := List.mem_map.1 hg
    exact hone.eq_of_property hw'.duplex hinput hf hg'
  exact ⟨f, field, hf, hfield, hmirrors.givesBack hcohv hfills hgiven
    (List.mem_map_of_mem hf) honly (fun x hx ↦ hsuits _ f x hf (hname ▸ hx)) hmade⟩

end Workspace

/-! ### An instance -/

namespace Family

/-- A class. -/
def item : ClassRef := .base ⟨1⟩ "Item"

/-- A class that inherits from it. -/
def tree : ClassRef := .derived ⟨2⟩ "Tree" item

/-- The two classes. -/
def declared : Declarations := .ofClasses [item, tree] (by decide)

/-- A field under another name than its property. -/
def label : FieldSpec where
  property := "text"
  name := some "label"
  type := some (.scalar .string)

/-- A field that refers to the class it is of. -/
def children : FieldSpec where
  property := "children"
  type := some (.thunk none (.array [.cls tree]))

/-- A session. -/
def opened : Workspace Unit := (Workspace.openSession { host := () } {}).2

/-- The class is registered on both sides. -/
def typed : Workspace Unit := opened.modifyRegistries 0 (·.duplexType tree {})

/-- The class from which it inherits has its field. -/
def labelled : Workspace Unit := typed.modifyRegistries 0 (Registries.duplexField item label).apply

/-- The class has its own field. -/
def registered : Workspace Unit :=
  labelled.modifyRegistries 0 (Registries.duplexField tree children).apply

/-- The class has been asked for on both sides. -/
def asked : Workspace Unit :=
  ((compileInput 0 tree).runIn ((compileObject 0 tree).runIn registered).2).2

/-- What is supplied: a tree with a child that has no label. -/
def supplied : List (String × WireValue) :=
  [("label", .string "root"), ("children", .list [.object [("label", .null)]])]

theorem classes_tree : declared.classes tree := List.mem_cons_of_mem _ List.mem_cons_self

theorem duplexRun : asked.DuplexRun declared .idle 0 tree.oldestFirst := by
  have hstart : Workspace.DuplexRun declared .idle 0 tree.oldestFirst { host := () } := ⟨(), .refl⟩
  have hopened : opened.DuplexRun declared .idle 0 tree.oldestFirst :=
    hstart.tail (.opened _ _) fun _ _ ↦ .aside rfl rfl
  have htyped : typed.DuplexRun declared .idle 0 tree.oldestFirst :=
    hopened.tail (.registered (s := 0) rfl (.duplexType classes_tree (List.forall_mem_nil _)))
      fun _ _ ↦ .aside rfl rfl
  have hlabel : label.Within declared (typed.Offers declared) := by
    refine ⟨fun t ht ↦ ?_, nofun, nofun⟩
    cases ht
    exact .scalar _
  have hchildren : children.Within declared (labelled.Offers declared) := by
    refine ⟨fun t ht ↦ ?_, nofun, nofun⟩
    cases ht
    refine .thunk (.array fun t ht ↦ ?_)
    cases List.mem_singleton.1 ht
    exact .cls classes_tree
  have hlabel' : label.IsProperty := ⟨rfl, rfl, fun t ht ↦ by cases ht; exact .scalar _⟩
  have hchildren' : children.IsProperty :=
    ⟨rfl, rfl, fun t ht ↦ by cases ht; exact .thunk _ (.array (.cls _))⟩
  have hrun : (Registries.duplexField item label).run (typed.registries 0) =
      (.ok (), labelled.registries 0) := rfl
  have hrun' : (Registries.duplexField tree children).run (labelled.registries 0) =
      (.ok (), registered.registries 0) := rfl
  have hlabelled : labelled.DuplexRun declared .idle 0 tree.oldestFirst :=
    htyped.tail (.registered (s := 0) rfl (.duplexField item hlabel)) fun _ _ ↦ .field hlabel' hrun
  have hregistered : registered.DuplexRun declared .idle 0 tree.oldestFirst :=
    hlabelled.tail (.registered (s := 0) rfl (.duplexField tree hchildren)) fun _ _ ↦
      .field hchildren' hrun'
  have hobject := hregistered.tail (.asked (.object (s := 0) rfl classes_tree))
    fun _ _ ↦ .aside (by cbv) (by cbv)
  exact hobject.tail (.asked (.input (s := 0) rfl classes_tree))
    fun _ _ ↦ .aside (by cbv) (by cbv)

/-- Both fields of the lineage, as they are registered. -/
theorem declaredOn_tree : declaredOn (asked.registries 0).ownFields tree.oldestFirst =
    [(item, label.bothSides), (tree, children.bothSides)] := by
  cbv

theorem oneToOne : (asked.registries 0).OneToOne tree.oldestFirst := by
  rw [Registries.OneToOne, declaredOn_tree]
  decide

end Family

open Family in
/-- A tree is converted, and its fields return what was supplied. -/
theorem Workspace.DuplexRun.gives_back_family :
    ∃ o fields n inputs u made,
      declared.classes tree ∧ asked.DuplexRun declared .idle 0 tree.oldestFirst ∧
      asked.entry 0 .objects tree.key = some o ∧ asked.entry 0 .objectFields tree.key = none ∧
      ((o.fields .idle).runIn asked).1 = .ok fields ∧
      asked.entry 0 .inputs tree.key = some n ∧ asked.entry 0 .inputFields tree.key = none ∧
      (n.fields .idle).runIn asked = (.ok inputs, u) ∧
      (asked.registries 0).OneToOne tree.oldestFirst ∧
      (∀ name f x, (name, f) ∈ inputs → find supplied name = some x → f.type.suits x = true) ∧
      ((convertArgument .idle (.named (.input n)) (.object supplied)).runIn u).1 = .ok made ∧
      made = .instanceOf tree
        [("text", .scalar (.string "root")),
          ("children", .list [.instanceOf tree [("text", .null)] []])] [] ∧
      (asked.registries 0).Sees tree.oldestFirst "label" (item, label.bothSides) ∧
      ∃ f field, ("label", f) ∈ inputs ∧ ("label", field) ∈ fields ∧
        GivesBack .idle u supplied made f field := by
  have hobject : (asked.entry 0 .objects tree.key).map
      (fun o : ObjectNode ↦ ((o.fields .idle).runIn asked).1.toOption.isSome) = some true := by cbv
  have hinput : (asked.entry 0 .inputs tree.key).map (fun n : InputNode ↦
      (((n.fields .idle).runIn asked).1.toOption.map fun inputs ↦
          inputs.all fun e ↦ (find supplied e.1).all e.2.type.suits,
        ((convertArgument .idle (.named (.input n)) (.object supplied)).runIn
          ((n.fields .idle).runIn asked).2).1.toOption)) =
      some (some true, some (.instanceOf tree
        [("text", .scalar (.string "root")),
          ("children", .list [.instanceOf tree [("text", .null)] []])] [])) := by cbv
  obtain ⟨o, ho, hok⟩ := Option.map_eq_some_iff.1 hobject
  obtain ⟨n, hn, hn'⟩ := Option.map_eq_some_iff.1 hinput
  obtain ⟨hall, hmade⟩ := Prod.mk.injEq .. ▸ hn'
  rcases hfields : ((o.fields .idle).runIn asked).1 with e | fields
  · rw [hfields] at hok
    cases hok
  rcases hinputs : (n.fields .idle).runIn asked with ⟨e | inputs, u⟩ <;>
    rw [hinputs] at hall hmade
  · cases hall
  rcases hconvert : ((convertArgument .idle (.named (.input n)) (.object supplied)).runIn u).1
    with e | made <;> rw [hconvert] at hmade
  · cases hmade
  have hsuits : ∀ name f x, (name, f) ∈ inputs → find supplied name = some x →
      f.type.suits x = true := by
    intro name f x hf hx
    have hentry := List.all_eq_true.1 (Option.some.inj hall) _ hf
    rwa [hx] at hentry
  have hsees : (asked.registries 0).Sees tree.oldestFirst "label" (item, label.bothSides) := by
    rw [Registries.Sees, declaredOn_tree]
    exact ⟨[], _, rfl, rfl, by decide⟩
  have hgives := duplexRun.gives_back classes_tree ho rfl hfields duplexRun hn rfl hinputs
    (fun _ ↦ id) oneToOne .refl hsuits hconvert "label" _ hsees hsees
  exact ⟨o, fields, n, inputs, u, made, classes_tree, duplexRun, ho, rfl, hfields, hn, rfl, hinputs,
    oneToOne, hsuits, hconvert, Option.some.inj hmade, hsees, hgives⟩

end ApiGraph
