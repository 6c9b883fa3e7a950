import ApiGraph.Proofs.Compile.Fields

/-!
# Fields that are at hand

Once the fields of a node have been asked for with success they are kept, and asking again gives the
same map and changes nothing.  That is so as long as the session's field maps are not released.  The
object types of an interface's implementors are at hand in the same way, as long as the session is
open.

## What is here

* `Workspace.Retains`: what one workspace has at hand another one has too.
* `ObjectNode.Kept`, `InterfaceNode.Kept`, `InputNode.Kept`: the map that is kept for a node, with
  `runIn_fields_of_kept`: it is the one that is given.  `InterfaceNode.Implemented` does the same
  for implementors.
* `GraphNode.Kept`: whatever a node leads to is at hand, and `GraphNode.kept_of_successors`: it is
  after the successors of a node have been asked for.
-/

set_option autoImplicit false

namespace ApiGraph

open Compile (Settles)

variable {σ : Type}

/-- A map is kept as the fields of an object type. -/
def ObjectNode.Kept (n : ObjectNode) (w : Workspace σ) (fields : FieldMap) : Prop :=
  (∃ s role key cls, n.id = .compiled s role key ∧ n.cls = some cls ∧
    w.entry s .objectFields key = some fields) ∨
  ∃ serial operation m, n.id = .root serial operation ∧
    OrderedMap.find w.roots (serial, operation) = some (m, fields)

/-- A map is kept as the fields of an interface. -/
def InterfaceNode.Kept (n : InterfaceNode) (w : Workspace σ) (fields : FieldMap) : Prop :=
  ∃ s role key, n.id = .compiled s role key ∧ w.entry s .interfaceFields key = some fields

/-- Object types are kept for the implementors of an interface whose session is open. -/
def InterfaceNode.Implemented (n : InterfaceNode) (w : Workspace σ) (objects : List ObjectNode) :
    Prop :=
  ∃ s role key, n.id = .compiled s role key ∧ w.isOpen s = true ∧
    List.Forall₂ (fun c m ↦ w.entry s .objects c.key = some m)
      ((w.registries s).implementorsOf n.cls) objects

/-- A map is kept as the fields of an input type. -/
def InputNode.Kept (n : InputNode) (w : Workspace σ) (fields : InputMap) : Prop :=
  ∃ s role key, n.id = .compiled s role key ∧ w.entry s .inputFields key = some fields

/-- Whatever a node leads to is at hand. -/
def GraphNode.Kept (w : Workspace σ) : GraphNode → Prop
  | .object n => ∃ fields, n.Kept w fields
  | .interface n => (∃ fields, n.Kept w fields) ∧ ∃ objects, n.Implemented w objects
  | .input n => ∃ fields, n.Kept w fields
  | .union _ | .enum _ | .scalar _ => True

variable {d : Declarations} {host : Host σ} {w₀ w w' : Workspace σ}

/-! ## What is kept is given -/

theorem ObjectNode.runIn_fields_of_kept {n : ObjectNode} {fields : FieldMap}
    (h : n.Kept w fields) : (n.fields host).runIn w = (.ok fields, w) := by
  rcases h with ⟨s, role, key, cls, hid, hcls, h⟩ | ⟨serial, operation, m, hid, h⟩
  · rw [ObjectNode.fields, hid, hcls]
    exact Compile.runIn_remember_of_entry h
  · rw [ObjectNode.fields, hid]
    show (get >>= _ : Compile σ FieldMap).runIn w = _
    rw [Compile.runIn_get_bind, h]
    rfl

theorem InterfaceNode.runIn_fields_of_kept {n : InterfaceNode} {fields : FieldMap}
    (h : n.Kept w fields) : (n.fields host).runIn w = (.ok fields, w) := by
  obtain ⟨s, role, key, hid, h⟩ := h
  rw [InterfaceNode.fields, hid]
  exact Compile.runIn_remember_of_entry h

theorem InterfaceNode.runIn_implementations_of_implemented {n : InterfaceNode}
    {objects : List ObjectNode} (h : n.Implemented w objects) :
    (n.implementations : Compile σ _).runIn w = (.ok objects, w) := by
  obtain ⟨s, role, key, hid, hopen, h⟩ := h
  have hrequire : (Compile.requireOpen s : Compile σ Unit).runIn w = (.ok (), w) := by
    rw [Compile.runIn_requireOpen, if_pos hopen]
  rw [InterfaceNode.implementations, hid]
  dsimp only
  rw [Compile.runIn_bind_of_ok hrequire, Compile.runIn_get_bind]
  exact Compile.runIn_mapM_of_forall₂ (h.imp fun c m hm ↦ Compile.runIn_remember_of_entry hm)

theorem InputNode.runIn_fields_of_kept {n : InputNode} {fields : InputMap}
    (h : n.Kept w fields) : (n.fields host).runIn w = (.ok fields, w) := by
  obtain ⟨s, role, key, hid, h⟩ := h
  rw [InputNode.fields, hid]
  exact Compile.runIn_remember_of_entry h

/-! ## From one workspace to another -/

/-- What a workspace has at hand another one has too. -/
structure Workspace.Retains (w w' : Workspace σ) : Prop where
  kept : ∀ {s : SessionId} {t : CacheTable} {key : TypeKey} {v : t.Value},
    w.entry s t key = some v → w'.entry s t key = some v
  isOpen : ∀ s, w.isOpen s = true → w'.isOpen s = true
  registries : ∀ s, w'.registries s = w.registries s
  roots : w'.roots = w.roots

theorem Workspace.Grows.retains (hg : w.Grows w') : w.Retains w' :=
  ⟨hg.kept, fun s h ↦ hg.isOpen s ▸ h, hg.registries, hg.roots⟩

theorem Workspace.Retains.refl (w : Workspace σ) : w.Retains w :=
  ⟨fun h ↦ h, fun _ h ↦ h, fun _ ↦ rfl, rfl⟩

section Retains

variable (hr : w.Retains w')
include hr

theorem Workspace.Holds.transfer {n : GraphNode} (h : w.Holds d n) : w'.Holds d n :=
  h.imp (fun _ ↦ hr.kept) fun _ h ↦ hr.roots ▸ h

theorem ObjectNode.Kept.transfer {n : ObjectNode} {fields : FieldMap} (h : n.Kept w fields) :
    n.Kept w' fields := by
  rcases h with ⟨s, role, key, cls, hid, hcls, h⟩ | ⟨serial, operation, m, hid, h⟩
  · exact .inl ⟨s, role, key, cls, hid, hcls, hr.kept h⟩
  · exact .inr ⟨serial, operation, m, hid, hr.roots ▸ h⟩

theorem InterfaceNode.Kept.transfer {n : InterfaceNode} {fields : FieldMap}
    (h : n.Kept w fields) : n.Kept w' fields := by
  obtain ⟨s, role, key, hid, h⟩ := h
  exact ⟨s, role, key, hid, hr.kept h⟩

theorem InterfaceNode.Implemented.transfer {n : InterfaceNode} {objects : List ObjectNode}
    (h : n.Implemented w objects) : n.Implemented w' objects := by
  obtain ⟨s, role, key, hid, hopen, h⟩ := h
  refine ⟨s, role, key, hid, hr.isOpen s hopen, ?_⟩
  rw [hr.registries]
  exact h.imp fun _ _ hm ↦ hr.kept hm

theorem InputNode.Kept.transfer {n : InputNode} {fields : InputMap} (h : n.Kept w fields) :
    n.Kept w' fields := by
  obtain ⟨s, role, key, hid, h⟩ := h
  exact ⟨s, role, key, hid, hr.kept h⟩

theorem GraphNode.Kept.transfer {n : GraphNode} (h : n.Kept w) : n.Kept w' := by
  cases n with
  | object n | input n => exact h.imp fun _ hf ↦ hf.transfer hr
  | interface n =>
    exact ⟨h.1.imp fun _ hf ↦ hf.transfer hr, h.2.imp fun _ ho ↦ ho.transfer hr⟩
  | union n | enum n | scalar n => exact h

omit hr in
/-- Asking for successors that are at hand gives the same in every workspace that has them. -/
theorem GraphNode.Kept.runIn_successors {n : GraphNode} (h : n.Kept w) :
    ∃ ms, ∀ w', w.Retains w' → (n.successors host).runIn w' = (.ok ms, w') := by
  cases n with
  | object n =>
    obtain ⟨fields, hf⟩ := h
    refine ⟨FieldMap.nodes fields ++ n.interfaces.map .interface, fun w' hr ↦ ?_⟩
    rw [GraphNode.successors,
      Compile.runIn_bind_of_ok (ObjectNode.runIn_fields_of_kept (hf.transfer hr))]
    rfl
  | interface n =>
    obtain ⟨⟨fields, hf⟩, objects, ho⟩ := h
    refine ⟨FieldMap.nodes fields ++ objects.map .object, fun w' hr ↦ ?_⟩
    have hobjects := InterfaceNode.runIn_implementations_of_implemented (ho.transfer hr)
    rw [GraphNode.successors,
      Compile.runIn_bind_of_ok (InterfaceNode.runIn_fields_of_kept (hf.transfer hr)),
      Compile.runIn_bind_of_ok hobjects]
    rfl
  | input n =>
    obtain ⟨fields, hf⟩ := h
    refine ⟨(OrderedMap.values fields).map fun f ↦ f.type.node, fun w' hr ↦ ?_⟩
    rw [GraphNode.successors,
      Compile.runIn_bind_of_ok (InputNode.runIn_fields_of_kept (hf.transfer hr))]
    rfl
  | union n => exact ⟨_, fun _ _ ↦ rfl⟩
  | enum n | scalar n => exact ⟨[], fun _ _ ↦ rfl⟩

end Retains

theorem GraphNode.Kept.mono (hg : w.Grows w') {n : GraphNode} (h : n.Kept w) : n.Kept w' :=
  h.transfer hg.retains

/-! ## What was given is kept -/

section Filled

variable (hw₀ : w₀.Coherent d) (hw : w₀.Filled d host w)
include hw₀ hw

theorem ObjectNode.kept_of_runIn {n : ObjectNode} (hn : w.Holds d (.object n)) {fields : FieldMap}
    (h : (n.fields host).runIn w = (.ok fields, w')) : n.Kept w' fields := by
  have hg : w.Grows w' := by
    have hs : Settles d host w₀ [] _ _ := ObjectNode.fields_settles hw₀ hw hn
    exact hs.grows_of_run hw h
  rcases hn with ⟨s, key, hn⟩ | ⟨⟨serial, operation⟩, known, hn⟩
  · have hs := Workspace.lt_length_of_entry (hg.kept hn)
    obtain ⟨hid, ⟨c, hcls, -⟩, -⟩ := hw.coherent.entries hn
    rw [ObjectNode.fields, hid, hcls] at h
    exact .inl ⟨s, _, key, c, hid, hcls, Compile.entry_of_runIn_remember h hs⟩
  · have hid : n.id = .root serial operation := by rw [(hw.coherent.roots hn).1, rootNode]
    have hk : n.Kept w known := .inr ⟨serial, operation, n, hid, hn⟩
    rw [ObjectNode.runIn_fields_of_kept hk] at h
    cases h
    exact hk

theorem InterfaceNode.kept_of_runIn {n : InterfaceNode} (hn : w.Holds d (.interface n))
    {fields : FieldMap} (h : (n.fields host).runIn w = (.ok fields, w')) : n.Kept w' fields := by
  have hg : w.Grows w' := by
    have hs : Settles d host w₀ [] _ _ := InterfaceNode.fields_settles hw₀ hw hn
    exact hs.grows_of_run hw h
  obtain ⟨s, key, hn⟩ := hn
  have hs := Workspace.lt_length_of_entry (hg.kept hn)
  have hid := (hw.coherent.entries hn).1
  rw [InterfaceNode.fields, hid] at h
  exact ⟨s, _, key, hid, Compile.entry_of_runIn_remember h hs⟩

theorem InterfaceNode.implemented_of_runIn {n : InterfaceNode} (hn : w.Holds d (.interface n))
    {objects : List ObjectNode} (h : (n.implementations : Compile σ _).runIn w = (.ok objects, w')) :
    n.Implemented w' objects := by
  obtain ⟨s, key, hn⟩ := hn
  have hid := (hw.coherent.entries hn).1
  have hs₀ : s < w₀.sessions.length :=
    hw.grows.sessions_length ▸ Workspace.lt_length_of_entry hn
  rw [InterfaceNode.implementations, hid] at h
  obtain ⟨_, w₁, hrequire, h⟩ := Compile.runIn_bind_eq_ok h
  rw [Compile.runIn_requireOpen] at hrequire
  by_cases hopen : w.isOpen s = true
  · rw [if_pos hopen] at hrequire
    cases hrequire
    rw [Compile.runIn_get_bind] at h
    have hsettles : ∀ c ∈ (w.registries s).implementorsOf n.cls,
        Settles d host w₀ [] (compileObject s c) fun m ↦ [.object m] := by
      rw [hw.grows.registries]
      exact fun c hc ↦ compileObject_settles hw₀ hs₀ ((hw₀.registries s).of_implementorsOf hc)
    have hkept : ∀ c ∈ (w.registries s).implementorsOf n.cls, ∀ w₁ m w₂,
        w₀.Filled d host w₁ → (compileObject s c).runIn w₁ = (.ok m, w₂) →
        w₂.entry s .objects c.key = some m := by
      intro c hc w₁ m w₂ hw₁ hm
      exact ((hsettles c hc).kept hs₀ hw₁ hm).2
    obtain ⟨hg, hobjects⟩ := Settles.forall₂_of_runIn_mapM hsettles
      (p := fun c m w ↦ w.entry s .objects c.key = some m) hkept (fun _ _ _ _ hg ↦ hg.kept) hw h
    refine ⟨s, _, key, hid, hg.isOpen s ▸ hopen, ?_⟩
    rwa [hg.registries]
  · rw [if_neg hopen] at hrequire
    cases hrequire

theorem InputNode.kept_of_runIn {n : InputNode} (hn : w.Holds d (.input n)) {fields : InputMap}
    (h : (n.fields host).runIn w = (.ok fields, w')) : n.Kept w' fields := by
  have hg : w.Grows w' := by
    have hs : Settles d host w₀ [] _ _ := InputNode.fields_settles hw₀ hw hn
    exact hs.grows_of_run hw h
  obtain ⟨s, key, hn⟩ := hn
  have hs := Workspace.lt_length_of_entry (hg.kept hn)
  have hid := (hw.coherent.entries hn).1
  rw [InputNode.fields, hid] at h
  exact ⟨s, _, key, hid, Compile.entry_of_runIn_remember h hs⟩

/-- What a node leads to is at hand once it has been asked for. -/
theorem GraphNode.kept_of_successors {n : GraphNode} (hn : w.Holds d n) {ms : List GraphNode}
    (h : (n.successors host).runIn w = (.ok ms, w')) : n.Kept w' := by
  cases n with
  | object n =>
    obtain ⟨fields, w₁, hf, h⟩ := Compile.runIn_bind_eq_ok h
    cases h
    exact ⟨fields, ObjectNode.kept_of_runIn hw₀ hw hn hf⟩
  | interface n =>
    obtain ⟨fields, w₁, hf, h⟩ := Compile.runIn_bind_eq_ok h
    obtain ⟨objects, w₂, ho, h⟩ := Compile.runIn_bind_eq_ok h
    cases h
    have hfields : Settles d host w₀ [] _ _ := InterfaceNode.fields_settles hw₀ hw hn
    have hobjects : Settles d host w₀ [] _ _ := InterfaceNode.implementations_settles hw₀ hw hn
    have hfilled := hfields.filled_of_run hw hf
    have hg := hobjects.grows_of_run hfilled ho
    have hheld : w₁.Holds d (.interface n) := hn.mono (hfields.grows_of_run hw hf)
    exact ⟨⟨fields, (InterfaceNode.kept_of_runIn hw₀ hw hn hf).transfer hg.retains⟩,
      objects, InterfaceNode.implemented_of_runIn hw₀ hfilled hheld ho⟩
  | input n =>
    obtain ⟨fields, w₁, hf, h⟩ := Compile.runIn_bind_eq_ok h
    cases h
    exact ⟨fields, InputNode.kept_of_runIn hw₀ hw hn hf⟩
  | union n | enum n | scalar n => trivial

end Filled
end ApiGraph
