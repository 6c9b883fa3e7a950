import ApiGraph.Proofs.Argument.Recast
import ApiGraph.Proofs.FieldMap.Merge
import ApiGraph.Proofs.Session.FieldCall

/-!
# Fields that are registered on both sides

A duplex type is an object type and an input type of one class, and a field of it is registered on
both sides by one call.  The two sides are recorded in two registries, which therefore have the same
fields in the same order, as long as a class gets its fields by such calls alone and none of them is
refused.

## What is here

* `FieldSpec.IsProperty`: a field that reads a property, of a plain type.
* `Registries.Duplex`: a class has its fields on both sides, and `Registries.DuplexStep`: it gets
  one more on both sides at most, with `DuplexStep.duplex`.
* `Workspace.DuplexRun`: the runs in which some classes get their fields in this way only, and
  `DuplexRun.duplex`: they have them on both sides then.
* `declaredOn_ownInputs`: what a walk through such classes declares on either side.
-/

set_option autoImplicit false

namespace ApiGraph

open OrderedMap (mapValues values)
open Relation (ReflTransGen)

variable {σ : Type} {d : Declarations} {host : Host σ}

/-- A field reads a property, whatever the operation.  If it declares a type, that is made by lists
of native scalars and classes. -/
structure FieldSpec.IsProperty (spec : FieldSpec) : Prop where
  method : spec.method = none
  exposure : spec.exposure = none
  type : ∀ t, spec.type = some t → t.Plain

theorem FieldSpec.IsProperty.bothSides {spec : FieldSpec} (h : spec.IsProperty) :
    spec.bothSides.IsProperty :=
  ⟨h.method, h.exposure, h.type⟩

namespace Registries

variable {owner : ClassRef} {r r' : Registries}

/-- The fields of a class read properties, and stand on both sides. -/
structure Duplex (r : Registries) (owner : ClassRef) : Prop where
  properties : ∀ spec ∈ values (r.fields.getAll owner.key), spec.IsProperty
  inputs : r.inputFields.getAll owner.key =
    mapValues FieldSpec.toInput (r.fields.getAll owner.key)

/-- The fields of a class stay as they are, or a call that registers one on both sides, of this
class or of another one, is accepted. -/
inductive DuplexStep (owner : ClassRef) (r r' : Registries) : Prop
  | aside (hfields : r'.fields.getAll owner.key = r.fields.getAll owner.key)
    (hinputs : r'.inputFields.getAll owner.key = r.inputFields.getAll owner.key) :
    DuplexStep owner r r'
  | field {cls : ClassRef} {spec : FieldSpec} (hspec : spec.IsProperty)
    (hrun : (duplexField cls spec).run r = (.ok (), r')) : DuplexStep owner r r'

/-- The update that all calls end in stores a field that is no root field as it is declared. -/
theorem eq_of_place {cls : ClassRef} {spec stored : FieldSpec} {known : Option FieldSpec}
    (hspec : spec.exposure = none) (h : FieldCall.place cls spec known = .ok stored) :
    stored = spec := by
  cases known with
  | none => exact (Except.ok.inj h).symm
  | some known =>
    rw [FieldCall.place, hspec] at h
    rcases hknown : known.exposure with _ | _ | _ | _ <;> rw [hknown] at h <;> cases h

/-- An accepted call has put the field into both registries. -/
theorem of_run_duplexField {cls : ClassRef} {spec : FieldSpec} (hspec : spec.exposure = none)
    (h : (duplexField cls spec).run r = (.ok (), r')) :
    r'.fields = r.fields.set cls.key spec.property spec.bothSides ∧
      r'.inputFields = r.inputFields.set cls.key spec.property spec.bothSides.toInput := by
  obtain ⟨stored, hanswer, rfl⟩ := FieldCall.eq_of_accepted (c := .duplexField cls spec) h
  have hplace : FieldCall.place cls spec.bothSides (r.fields.get? cls.key spec.property) =
      .ok stored := hanswer
  have hexposure : spec.bothSides.exposure = none := hspec
  exact ⟨eq_of_place hexposure hplace ▸ rfl, rfl⟩

theorem DuplexStep.duplex (h : DuplexStep owner r r') (hr : r.Duplex owner) :
    r'.Duplex owner := by
  cases h with
  | aside hfields hinputs =>
    refine ⟨hfields ▸ hr.properties, ?_⟩
    rw [hfields, hinputs, hr.inputs]
  | @field cls spec hspec hrun =>
    obtain ⟨hfields, hinputs⟩ := of_run_duplexField hspec.exposure hrun
    have hall := Registry.getAll_set r.fields cls.key owner.key spec.property spec.bothSides
    have hall' := Registry.getAll_set r.inputFields cls.key owner.key spec.property
      spec.bothSides.toInput
    rw [← hfields] at hall
    rw [← hinputs] at hall'
    by_cases hcls : cls.key = owner.key
    · rw [if_pos hcls, hcls] at hall hall'
      refine ⟨fun f hf ↦ ?_, ?_⟩
      · rw [hall] at hf
        rcases OrderedMap.mem_values_put hf with rfl | hf
        · exact hspec.bothSides
        · exact hr.properties f hf
      · rw [hall, hall', hr.inputs, OrderedMap.put_mapValues]
    · rw [if_neg hcls] at hall hall'
      exact ⟨hall ▸ hr.properties, hall'.trans (hr.inputs.trans (congrArg _ hall.symm))⟩

end Registries

namespace Workspace

variable {w w' : Workspace σ} {s : SessionId} {classes : List ClassRef}

/-- The workspaces of the runs in which some classes of a session get fields, on either side, only
by calls that register a property on both sides and are accepted. -/
def DuplexRun (d : Declarations) (host : Host σ) (s : SessionId) (classes : List ClassRef)
    (w : Workspace σ) : Prop :=
  ∃ state, ReflTransGen (fun v v' ↦ Step d host v v' ∧
    ∀ c ∈ classes, Registries.DuplexStep c (v.registries s) (v'.registries s))
    { host := state } w

namespace DuplexRun

theorem reachable (h : w.DuplexRun d host s classes) : w.Reachable d host := by
  obtain ⟨state, h⟩ := h
  exact ⟨state, ReflTransGen.mono (fun _ _ ↦ And.left) _ _ h⟩

theorem tail (h : w.DuplexRun d host s classes) (hstep : Step d host w w')
    (hduplex : ∀ c ∈ classes, Registries.DuplexStep c (w.registries s) (w'.registries s)) :
    w'.DuplexRun d host s classes := by
  obtain ⟨state, h⟩ := h
  exact ⟨state, h.tail ⟨hstep, hduplex⟩⟩

/-- **Both sides have the same fields**, in the same order. -/
theorem duplex (h : w.DuplexRun d host s classes) :
    ∀ c ∈ classes, (w.registries s).Duplex c := by
  obtain ⟨state, h⟩ := h
  induction h with
  | refl => exact fun c _ ↦ ⟨fun _ hf ↦ absurd hf List.not_mem_nil, rfl⟩
  | tail _ hstep ih => exact fun c hc ↦ (hstep.2 c hc).duplex (ih c hc)

end DuplexRun
end Workspace

/-! ## What a walk declares -/

namespace Registries

variable {owner : ClassRef} {r : Registries} {walk : List ClassRef}

theorem Duplex.ownFields_eq (h : r.Duplex owner) :
    r.ownFields owner = values (r.fields.getAll owner.key) :=
  List.filter_eq_self.2 fun f hf ↦ by rw [(h.properties f hf).exposure]; rfl

theorem Duplex.ownInputs_eq (h : r.Duplex owner) :
    r.ownInputs owner = (r.ownFields owner).map FieldSpec.toInput := by
  rw [ownInputs, h.inputs, OrderedMap.values_mapValues, h.ownFields_eq]

/-- A walk declares the same on both sides. -/
theorem declaredOn_ownInputs (h : ∀ c ∈ walk, r.Duplex c) :
    declaredOn r.ownInputs walk =
      (declaredOn r.ownFields walk).map fun x ↦ (x.1, x.2.toInput) := by
  induction walk with
  | nil => rfl
  | cons c rest ih =>
    obtain ⟨hc, hrest⟩ := List.forall_mem_cons.1 h
    have hcons {α : Type} (own : ClassRef → List α) : declaredOn own (c :: rest) =
        (own c).map (fun a ↦ (c, a)) ++ declaredOn own rest := List.flatMap_cons
    rw [hcons, hcons, ih hrest, hc.ownInputs_eq, List.map_append, List.map_map, List.map_map]
    rfl

/-- The names and the properties of a walk correspond one to one. -/
def OneToOne (r : Registries) (walk : List ClassRef) : Prop :=
  ∀ x ∈ declaredOn r.ownFields walk, ∀ y ∈ declaredOn r.ownFields walk,
    x.2.exposedName = y.2.exposedName ↔ x.2.property = y.2.property

end Registries

end ApiGraph
