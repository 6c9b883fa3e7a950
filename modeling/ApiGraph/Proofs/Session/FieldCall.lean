import ApiGraph.Proofs.Session.Registration

/-!
# Registrations that can be refused

Output fields come in by several calls, which all end in the same update of the registry of fields;
that update, the check for a method and the check for a known enum are all that can refuse a
registration.  A call that is refused should leave nothing behind, and only one does: the call that
registers both sides of a duplex field has recorded the input side by then.

## What is here

* `FieldCall`: the calls that register an output field, and `FieldCall.answer`: what such a call
  makes of the field that is there already.
* `FieldCall.run_eq`: one call, in full.
* `RefusableCall.registries_of_refused`: what a refused call leaves.
-/

set_option autoImplicit false

namespace ApiGraph

/-! ## Entries that are set again -/

theorem Registry.get?_set {κ ν : Type} [DecidableEq κ] (r : Registry κ ν) (owner other : TypeKey)
    (key otherKey : κ) (value : ν) : (r.set owner key value).get? other otherKey =
      if (owner, key) = (other, otherKey) then some value else r.get? other otherKey := by
  rw [get?, getAll_set]
  by_cases howner : owner = other
  · subst howner
    simp [OrderedMap.find_put, get?]
  · simp [howner, get?]

/-- Setting a key to the value it has changes nothing. -/
theorem Registry.set_eq_self_iff {κ ν : Type} [DecidableEq κ] {r : Registry κ ν} {owner : TypeKey}
    {key : κ} {value : ν} : r.set owner key value = r ↔ r.get? owner key = some value := by
  constructor
  · intro h
    rw [← h, get?_set, if_pos rfl]
  · intro h
    obtain ⟨owners⟩ := r
    have hm : OrderedMap.find owners owner = some (getAll ⟨owners⟩ owner) := by
      rw [get?, getAll] at h
      rw [getAll]
      cases howner : OrderedMap.find owners owner with
      | none => simp [howner] at h
      | some m => rfl
    rw [set, update, OrderedMap.put_of_find h, OrderedMap.put_of_find hm]

/-! ## Calls that register an output field -/

theorem Registration.run_get_bind (f : Registries → Registration) (r : Registries) :
    (get >>= f : Registration).run r = (f r).run r := rfl

/-- Both sides of a duplex field are nullable unless it is said otherwise. -/
def FieldSpec.bothSides (spec : FieldSpec) : FieldSpec :=
  { spec with nullable := some (spec.nullable.getD true) }

/-- A call that registers an output field.  A root field is registered as a query, as a mutation
or as both. -/
inductive FieldCall where
  | field (cls : ClassRef) (spec : FieldSpec)
  | duplexField (cls : ClassRef) (spec : FieldSpec)
  | rootField (cls : ClassRef) (spec : FieldSpec) (exposure : Exposure)

namespace FieldCall

/-- The registration that a call makes. -/
def run : FieldCall → Registration
  | .field cls spec => Registries.field cls spec
  | .duplexField cls spec => Registries.duplexField cls spec
  | .rootField cls spec exposure => Registries.rootField cls spec exposure

/-- The class that gets the field. -/
def cls : FieldCall → ClassRef
  | .field cls _ | .duplexField cls _ | .rootField cls _ _ => cls

/-- The field as the call declares it. -/
def declaration : FieldCall → FieldSpec
  | .field _ spec => spec
  | .duplexField _ spec => spec.bothSides
  | .rootField _ spec exposure => { spec with exposure := some exposure }

/-- The property that the call registers. -/
def property (c : FieldCall) : String := c.declaration.property

/-- The operations under which the call exposes the field. -/
def exposure (c : FieldCall) : Option Exposure := c.declaration.exposure

/-- Whether a method is missing that the call needs. -/
def lacksMethod : FieldCall → Bool
  | .rootField _ spec _ => spec.method.isNone
  | _ => false

/-- The input field that the call records before it can be refused, with the class that gets it. -/
def inputSide : FieldCall → Option (ClassRef × InputFieldSpec)
  | .duplexField cls spec => some (cls, spec.bothSides.toInput)
  | _ => none

/-- The registries at the moment at which the call can be refused. -/
def early (c : FieldCall) (r : Registries) : Registries :=
  match c.inputSide with
  | some (cls, spec) => r.inputField cls spec
  | none => r

/-- What the update makes of the field that is registered under the property, if there is one. -/
def place (cls : ClassRef) (spec : FieldSpec) : Option FieldSpec → Except RegistrationError FieldSpec
  | none => .ok spec
  | some known =>
    match Exposure.merge known.exposure spec.exposure with
    | some merged => .ok { known with exposure := some merged }
    | none => .error (.duplicateField cls.name spec.property)

/-- The field that the call stores, given the one that is there. -/
def answer (c : FieldCall) (known : Option FieldSpec) : Except RegistrationError FieldSpec :=
  if c.lacksMethod then .error (.rootFieldNotMethod c.cls.name c.property)
  else place c.cls c.declaration known

@[simp] theorem fields_early (c : FieldCall) (r : Registries) : (c.early r).fields = r.fields := by
  cases c <;> rfl

/-- The update that all calls end in. -/
theorem run_field (cls : ClassRef) (spec : FieldSpec) (r : Registries) :
    (Registries.field cls spec).run r =
      match place cls spec (r.fields.get? cls.key spec.property) with
      | .ok stored => (.ok (), { r with fields := r.fields.set cls.key spec.property stored })
      | .error e => (.error e, r) := by
  rw [Registries.field, Registration.run_get_bind]
  cases r.fields.get? cls.key spec.property with
  | none => rfl
  | some known =>
    simp only [place]
    cases Exposure.merge known.exposure spec.exposure <;> rfl

/-- **One call.**  It is refused, or it stores the field that it answers. -/
theorem run_eq (c : FieldCall) (r : Registries) :
    c.run.run r =
      match c.answer (r.fields.get? c.cls.key c.property) with
      | .ok stored =>
        (.ok (), { c.early r with fields := r.fields.set c.cls.key c.property stored })
      | .error e => (.error e, c.early r) := by
  cases c with
  | field cls spec => exact run_field cls spec r
  | duplexField cls spec => exact run_field cls spec.bothSides _
  | rootField cls spec exposure =>
    by_cases hmethod : spec.method.isNone
    · simp only [run, Registries.rootField, answer, lacksMethod, hmethod, if_true]
      rfl
    · have hrun : (rootField cls spec exposure).run =
          Registries.field cls { spec with exposure := some exposure } := by
        simp [run, Registries.rootField, hmethod]
      rw [hrun, run_field, answer, if_neg (by simpa [lacksMethod] using hmethod)]
      rfl

/-- An accepted call has stored the field that it answers. -/
theorem eq_of_accepted {c : FieldCall} {r r' : Registries} (h : c.run.run r = (.ok (), r')) :
    ∃ stored, c.answer (r.fields.get? c.cls.key c.property) = .ok stored ∧
      r' = { c.early r with fields := r.fields.set c.cls.key c.property stored } := by
  have hrun := (c.run_eq r).symm.trans h
  split at hrun
  · exact ⟨_, ‹_›, (congrArg Prod.snd hrun).symm⟩
  · cases hrun

end FieldCall

/-! ## What a refused call leaves -/

/-- A registration that can be refused. -/
inductive RefusableCall where
  | ofField (c : FieldCall)
  | registerEnum (d : EnumDef) (spec : EnumSpec)

namespace RefusableCall

/-- The registration that a call makes. -/
def run : RefusableCall → Registration
  | .ofField c => c.run
  | .registerEnum d spec => Registries.registerEnum d spec

/-- The input field that the call records before it can be refused, with the class that gets it. -/
def inputSide : RefusableCall → Option (ClassRef × InputFieldSpec)
  | .ofField c => c.inputSide
  | .registerEnum _ _ => none

/-- A refused call leaves what it has recorded before. -/
theorem eq_early_of_refused {call : RefusableCall} {r r' : Registries} {e : RegistrationError}
    (h : call.run.run r = (.error e, r')) :
    r' = match call.inputSide with
      | some (cls, spec) => r.inputField cls spec
      | none => r := by
  cases call with
  | ofField c =>
    have hrun := (c.run_eq r).symm.trans h
    split at hrun
    · cases hrun
    · exact (congrArg Prod.snd hrun).symm
  | registerEnum d spec =>
    rw [run, Registries.registerEnum, Registration.run_get_bind] at h
    split at h
    · exact (congrArg Prod.snd h).symm
    · cases h

/-- **A refused registration leaves the registries as they were, but for the input side of a duplex
field.**  Nothing else can have changed.  The input side is recorded all the same, so that the
registries are as they were exactly if the same input field was registered before. -/
theorem registries_of_refused {call : RefusableCall} {r r' : Registries} {e : RegistrationError}
    (h : call.run.run r = (.error e, r')) :
    { r' with inputFields := r.inputFields } = r ∧
    (call.inputSide = none → r' = r) ∧
    ∀ cls spec, call.inputSide = some (cls, spec) →
      r'.inputFields.get? cls.key spec.property = some spec ∧
      (∀ owner property, (owner, property) ≠ (cls.key, spec.property) →
        r'.inputFields.get? owner property = r.inputFields.get? owner property) ∧
      (r' = r ↔ r.inputFields.get? cls.key spec.property = some spec) := by
  have hr' := eq_early_of_refused h
  cases hside : call.inputSide with
  | none =>
    rw [hside] at hr'
    exact ⟨by rw [hr'], fun _ ↦ hr', nofun⟩
  | some side =>
    obtain ⟨cls, spec⟩ := side
    rw [hside] at hr'
    subst hr'
    refine ⟨rfl, nofun, ?_⟩
    rintro _ _ ⟨⟩
    refine ⟨?_, fun owner property hne ↦ ?_, ?_⟩
    · exact (Registry.get?_set _ _ _ _ _ _).trans (if_pos rfl)
    · exact (Registry.get?_set _ _ _ _ _ _).trans (if_neg (Ne.symm hne))
    · rw [← Registry.set_eq_self_iff]
      exact ⟨congrArg Registries.inputFields, congrArg fun inputs ↦ { r with inputFields := inputs }⟩

end RefusableCall

namespace Registries.Refused

/-- A class. -/
def point : ClassRef := .base ⟨1⟩ "Point"

/-- A field of it. -/
def text : FieldSpec := { property := "x", type := some (.scalar .string) }

/-- Another field of the same property. -/
def renamed : FieldSpec := { property := "x", name := some "y", type := some (.scalar .int) }

/-- The registries in which the first field is registered on both sides. -/
def registries : Registries := (FieldCall.duplexField point text).run.apply {}

end Registries.Refused

open Registries.Refused in
/-- The second field is refused, and its input side replaces the one of the first. -/
theorem RefusableCall.registries_of_refused_duplex :
    let call := RefusableCall.ofField (.duplexField point renamed)
    (call.run.run registries).1 = .error (.duplicateField "Point" "x") ∧
      registries.inputFields.get? point.key "x" = some text.bothSides.toInput ∧
      (call.run.apply registries).inputFields.get? point.key "x" =
        some renamed.bothSides.toInput ∧
      call.run.apply registries ≠ registries := by
  let call := RefusableCall.ofField (.duplexField point renamed)
  have hcall : call.run.run registries =
      (.error (.duplicateField "Point" "x"), call.run.apply registries) := rfl
  obtain ⟨hafter, -, hsame⟩ := (RefusableCall.registries_of_refused hcall).2.2 point _ rfl
  refine ⟨rfl, rfl, hafter, fun h ↦ ?_⟩
  cases (hsame.1 h : some text.bothSides.toInput = _)

end ApiGraph
