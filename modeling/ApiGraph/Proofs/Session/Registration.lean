import ApiGraph.Proofs.Compile.Coherent
import ApiGraph.Session.Registration

/-!
# What a registration may change

Registrations add to the registries.  A class never loses a role, and if what a call refers to is
declared or offered, so is all that the registries refer to afterwards.

## What is here

* `Registries.Change`: the changes that registration calls make.
* `Registries.Change.within` and `Registries.Change.extends`: what they preserve.
-/

set_option autoImplicit false

namespace ApiGraph

/-- The registries that a registration leaves, whether or not it was refused. -/
def Registration.apply (x : Registration) (r : Registries) : Registries := (x.run r).2

namespace Registration

variable (r : Registries)

theorem apply_get_bind (f : Registries → Registration) :
    Registration.apply (get >>= f) r = (f r).apply r := rfl

theorem apply_modify_bind (f : Registries → Registries) (x : Registration) :
    Registration.apply (modify f >>= fun _ ↦ x) r = x.apply (f r) := rfl

end Registration

namespace Registries

/-- The changes that registration calls make, with declarations and nodes that are offered. -/
inductive Change (d : Declarations) (offered : GraphNode → Prop) :
    (Registries → Registries) → Prop
  | objectType {cls : ClassRef} {spec : ObjectSpec} (hc : d.classes cls)
    (hs : ∀ c ∈ spec.implements, d.classes c) : Change d offered (·.objectType cls spec)
  | inputType (cls : ClassRef) (spec : InputSpec) : Change d offered (·.inputType cls spec)
  | duplexType {cls : ClassRef} {spec : ObjectSpec} (hc : d.classes cls)
    (hs : ∀ c ∈ spec.implements, d.classes c) : Change d offered (·.duplexType cls spec)
  | interfaceType (cls : ClassRef) (spec : InterfaceSpec) :
    Change d offered (·.interfaceType cls spec)
  | unionType (cls : ClassRef) {spec : UnionSpec} (hs : ∀ c ∈ spec.members, d.classes c) :
    Change d offered (·.unionType cls spec)
  | schemaRoot (cls : ClassRef) (spec : RootSpec) : Change d offered (·.schemaRoot cls spec)
  | enum (e : EnumDef) (spec : EnumSpec) : Change d offered (registerEnum e spec).apply
  | field (cls : ClassRef) {spec : FieldSpec} (hs : spec.Within d offered) :
    Change d offered (Registries.field cls spec).apply
  | inputField (cls : ClassRef) {spec : InputFieldSpec} (hs : spec.Within d offered) :
    Change d offered (·.inputField cls spec)
  | duplexField (cls : ClassRef) {spec : FieldSpec} (hs : spec.Within d offered) :
    Change d offered (Registries.duplexField cls spec).apply
  | rootField (cls : ClassRef) {spec : FieldSpec} (exposure : Exposure)
    (hs : spec.Within d offered) : Change d offered (Registries.rootField cls spec exposure).apply
  | arg (cls : ClassRef) (field : String) (index : Nat) {spec : ArgSpec}
    (hs : spec.Within d offered) : Change d offered (·.arg cls field index spec)
  | inject (cls : ClassRef) (field : String) (index : Nat) (i : Injector) :
    Change d offered (·.inject cls field index i)
  | beforeHook (cls : ClassRef) (field : String) (hook : Hook) :
    Change d offered (·.beforeHook cls field hook)
  | afterHook (cls : ClassRef) (field : String) (hook : Hook) :
    Change d offered (·.afterHook cls field hook)

variable {d : Declarations} {offered : GraphNode → Prop} {r : Registries}

/-- A change can still be made when more is offered. -/
theorem Change.imp {offered' : GraphNode → Prop} (ho : ∀ n, offered n → offered' n)
    {f : Registries → Registries} (h : Change d offered f) : Change d offered' f := by
  cases h with
  | objectType hc hs => exact .objectType hc hs
  | inputType cls spec => exact .inputType cls spec
  | duplexType hc hs => exact .duplexType hc hs
  | interfaceType cls spec => exact .interfaceType cls spec
  | unionType cls hs => exact .unionType cls hs
  | schemaRoot cls spec => exact .schemaRoot cls spec
  | enum e spec => exact .enum e spec
  | field cls hs => exact .field cls (hs.imp ho)
  | inputField cls hs => exact .inputField cls (hs.imp ho)
  | duplexField cls hs => exact .duplexField cls (hs.imp ho)
  | rootField cls exposure hs => exact .rootField cls exposure (hs.imp ho)
  | arg cls field index hs => exact .arg cls field index (hs.imp ho)
  | inject cls field index i => exact .inject cls field index i
  | beforeHook cls field hook => exact .beforeHook cls field hook
  | afterHook cls field hook => exact .afterHook cls field hook

/-! ## One change after the other -/

/-- A field is recorded as it is, or with the exposure of the one before it, or not at all. -/
theorem field_apply (cls : ClassRef) (spec : FieldSpec) (r : Registries) :
    (field cls spec).apply r = r ∨
      ∃ known exposure, (known = spec ∨ r.fields.get? cls.key spec.property = some known) ∧
        (field cls spec).apply r = { r with
          fields := r.fields.set cls.key spec.property { known with exposure } } := by
  rw [field, Registration.apply_get_bind]
  split
  · rename_i known hk
    split
    · rename_i merged _
      exact .inr ⟨known, some merged, .inr hk, rfl⟩
    · exact .inl rfl
  · exact .inr ⟨spec, spec.exposure, .inl rfl, rfl⟩

theorem Within.field (hr : r.Within d offered) (cls : ClassRef) {spec : FieldSpec}
    (hs : spec.Within d offered) : ((Registries.field cls spec).apply r).Within d offered := by
  rcases field_apply cls spec r with h | ⟨known, exposure, hk, h⟩
  · rw [h]
    exact hr
  · have hknown : known.Within d offered := by
      rcases hk with rfl | hk
      · exact hs
      · exact hr.fields.get? hk
    rw [h]
    exact { hr with fields := hr.fields.set _ _ ⟨hknown.type, hknown.params, hknown.returns⟩ }

theorem Within.inputField (hr : r.Within d offered) (cls : ClassRef) {spec : InputFieldSpec}
    (hs : spec.Within d offered) : (r.inputField cls spec).Within d offered :=
  { hr with inputFields := hr.inputFields.set _ _ hs }

theorem Within.addImplementor (hr : r.Within d offered) {cls : ClassRef} (hc : d.classes cls)
    (interface : ClassRef) : (r.addImplementor cls interface).Within d offered := by
  refine { hr with implementors := fun cs hcs c hmem ↦ ?_ }
  have hknown : ∀ c ∈ r.implementorsOf interface, d.classes c :=
    fun c hc ↦ hr.of_implementorsOf hc
  rcases OrderedMap.mem_values_put hcs with rfl | hcs
  · split at hmem
    · exact hknown c hmem
    · rcases List.mem_append.1 hmem with hmem | hmem
      · exact hknown c hmem
      · exact List.mem_singleton.1 hmem ▸ hc
  · exact hr.implementors cs hcs c hmem

theorem Within.objectType (hr : r.Within d offered) {cls : ClassRef} {spec : ObjectSpec}
    (hc : d.classes cls) (hs : ∀ c ∈ spec.implements, d.classes c) :
    (r.objectType cls spec).Within d offered := by
  have hfold : ∀ (l : List ClassRef) (r : Registries), r.Within d offered →
      (l.foldl (fun r interface ↦ r.addImplementor cls interface) r).Within d offered := by
    intro l
    induction l with
    | nil => exact fun r hr ↦ hr
    | cons i rest ih => exact fun r hr ↦ ih _ (hr.addImplementor hc i)
  have hr' := hfold spec.implements r hr
  refine { hr' with implements := fun spec' h ↦ ?_ }
  rcases OrderedMap.mem_values_put h with rfl | h
  · exact hs
  · exact hr'.implements spec' h

/-- What a registration refers to is declared or offered, and so is all that it leaves. -/
theorem Change.within {f : Registries → Registries} (h : Change d offered f)
    (hr : r.Within d offered) : (f r).Within d offered := by
  cases h with
  | objectType hc hs => exact hr.objectType hc hs
  | duplexType hc hs => exact { hr.objectType hc hs with }
  | inputType | interfaceType | schemaRoot | inject | beforeHook | afterHook => exact { hr with }
  | unionType cls hs =>
    refine { hr with members := fun spec' h ↦ ?_ }
    rcases OrderedMap.mem_values_put h with rfl | h
    · exact hs
    · exact hr.members spec' h
  | enum e spec =>
    rw [registerEnum, Registration.apply_get_bind]
    split
    · exact hr
    · exact { hr with }
  | field cls hs => exact hr.field cls hs
  | inputField cls hs => exact hr.inputField cls hs
  | duplexField cls hs =>
    rw [Registries.duplexField, Registration.apply_modify_bind]
    exact (hr.inputField cls ⟨hs.type, hs.returns⟩).field cls ⟨hs.type, hs.params, hs.returns⟩
  | rootField cls exposure hs =>
    rw [Registries.rootField]
    split
    · exact hr
    · exact hr.field cls ⟨hs.type, hs.params, hs.returns⟩
  | arg cls field index hs => exact { hr with args := hr.args.set _ _ hs }

/-! ## Nothing is taken back -/

theorem Extends.of_eq {r' : Registries} (ho : r'.objects = r.objects) (hi : r'.inputs = r.inputs)
    (hu : r'.unions = r.unions) (hf : r'.interfaces = r.interfaces)
    (hin : r'.inputFields = r.inputFields) : r.Extends r' where
  objects key h := by rwa [isObject, ho]
  inputs key h := by rwa [isInput, hi]
  unions key h := by rwa [isUnion, hu]
  interfaces key h := by rwa [isInterface, hf]
  inputFields := Nat.le_of_eq (by rw [inputFieldTotal, inputFieldTotal, hin])

theorem Extends.field (r : Registries) (cls : ClassRef) (spec : FieldSpec) :
    r.Extends ((Registries.field cls spec).apply r) := by
  rcases field_apply cls spec r with h | ⟨known, exposure, -, h⟩ <;> rw [h]
  · exact .refl r
  · exact .of_eq rfl rfl rfl rfl rfl

theorem Extends.inputField (r : Registries) (cls : ClassRef) (spec : InputFieldSpec) :
    r.Extends (r.inputField cls spec) where
  objects _ := id
  inputs _ := id
  unions _ := id
  interfaces _ := id
  inputFields := OrderedMap.length_flatMap_le_put _ _ _ (OrderedMap.length_le_length_put _ _ _)

theorem Extends.inputType (r : Registries) (cls : ClassRef) (spec : InputSpec) :
    r.Extends (r.inputType cls spec) :=
  { Extends.refl r with inputs := fun _ h ↦ OrderedMap.has_put h _ _ }

theorem Extends.objectType (r : Registries) (cls : ClassRef) (spec : ObjectSpec) :
    r.Extends (r.objectType cls spec) := by
  have hfold : ∀ (l : List ClassRef) (r : Registries),
      r.Extends (l.foldl (fun r interface ↦ r.addImplementor cls interface) r) := by
    intro l
    induction l with
    | nil => exact .refl
    | cons i rest ih =>
      intro r
      have h : r.Extends (r.addImplementor cls i) := .of_eq rfl rfl rfl rfl rfl
      exact h.trans (ih _)
  exact (hfold spec.implements r).trans
    { Extends.refl _ with objects := fun _ h ↦ OrderedMap.has_put h _ _ }

/-- Registering takes no role from any class and no input field from any owner. -/
theorem Change.extends {f : Registries → Registries} (h : Change d offered f) (r : Registries) :
    r.Extends (f r) := by
  cases h with
  | objectType => exact .objectType r _ _
  | duplexType => exact (Extends.objectType r _ _).trans (.inputType _ _ _)
  | inputType cls spec => exact .inputType r cls spec
  | interfaceType cls spec =>
    exact { Extends.refl r with interfaces := fun _ h ↦ OrderedMap.has_put h _ _ }
  | unionType cls => exact { Extends.refl r with unions := fun _ h ↦ OrderedMap.has_put h _ _ }
  | enum e spec =>
    rw [registerEnum, Registration.apply_get_bind]
    split
    · exact .refl r
    · exact .of_eq rfl rfl rfl rfl rfl
  | field cls => exact .field r cls _
  | inputField cls => exact .inputField r cls _
  | duplexField cls =>
    rw [Registries.duplexField, Registration.apply_modify_bind]
    exact (Extends.inputField r cls _).trans (.field _ cls _)
  | rootField cls exposure =>
    rw [Registries.rootField]
    split
    · exact .refl r
    · exact .field r cls _
  | schemaRoot | arg | inject | beforeHook | afterHook => exact .of_eq rfl rfl rfl rfl rfl

end Registries
end ApiGraph
