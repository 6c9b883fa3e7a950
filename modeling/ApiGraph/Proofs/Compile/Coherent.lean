import ApiGraph.Proofs.Declarations
import ApiGraph.Proofs.Workspace
import ApiGraph.Schema.Assembly

/-!
# Coherent workspaces

A node is a value, and its identity says where it comes from: the session that made it, the role,
the key of the declaration.  In a coherent workspace the identity says everything.  What a table
keeps under a key was made for the one declaration that has the key, and every node that anything
refers to is itself in a table.  So two nodes of one identity are one node
(`Workspace.Coherent.eq_of_id_eq`).

## What is here

* `Workspace.Holds`: the nodes that a workspace knows, and `Workspace.Offers`: those that anything
  may refer to.
* `Workspace.Proper`: what an entry of a table has to be.
* `Workspace.Coherent`, and `Workspace.Coherent.of_grows`: it survives proper entries.
-/

set_option autoImplicit false

namespace ApiGraph

/-- The nodes that an entry of a table gives to whoever asks for it. -/
def CacheTable.nodes : (t : CacheTable) → t.Value → List GraphNode
  | .objects, n => [.object n]
  | .inputs, n => [.input n]
  | .enums, n => [.enum n]
  | .unions, n => [.union n]
  | .interfaces, n => [.interface n]
  | .objectFields, fields | .interfaceFields, fields => FieldMap.nodes fields
  | .inputFields, fields => (OrderedMap.values fields).map fun f ↦ f.type.node

/-- Whether a table is one of nodes; the others are of field maps, which can be released. -/
def CacheTable.ofNodes : CacheTable → Bool
  | .objects | .inputs | .enums | .unions | .interfaces => true
  | .objectFields | .interfaceFields | .inputFields => false

/-- How many input fields have been registered, whichever their owner. -/
def Registries.inputFieldTotal (r : Registries) : Nat :=
  (r.inputFields.owners.flatMap Prod.snd).length

/-- More is registered: whatever had a role has it still. -/
structure Registries.Extends (r r' : Registries) : Prop where
  objects : ∀ key, r.isObject key = true → r'.isObject key = true
  inputs : ∀ key, r.isInput key = true → r'.isInput key = true
  unions : ∀ key, r.isUnion key = true → r'.isUnion key = true
  interfaces : ∀ key, r.isInterface key = true → r'.isInterface key = true
  inputFields : r.inputFieldTotal ≤ r'.inputFieldTotal

theorem Registries.Extends.refl (r : Registries) : r.Extends r :=
  ⟨fun _ ↦ id, fun _ ↦ id, fun _ ↦ id, fun _ ↦ id, Nat.le_refl _⟩

theorem Registries.Extends.trans {r r' r'' : Registries} (h : r.Extends r') (h' : r'.Extends r'') :
    r.Extends r'' where
  objects key hk := h'.objects key (h.objects key hk)
  inputs key hk := h'.inputs key (h.inputs key hk)
  unions key hk := h'.unions key (h.unions key hk)
  interfaces key hk := h'.interfaces key (h.interfaces key hk)
  inputFields := Nat.le_trans h.inputFields h'.inputFields

namespace Workspace

variable {σ : Type} (d : Declarations)

/-! ## The nodes of a workspace -/

/-- The nodes that a workspace knows: scalars, enums made by hand, what a table keeps, and the roots
of schemas. -/
def Holds (w : Workspace σ) : GraphNode → Prop
  | .scalar n => d.scalars n ∨ ∃ native : NativeScalar, n = native.node
  | .enum n => d.enumNodes n ∨ ∃ s key, w.entry s .enums key = some n
  | .input n => ∃ s key, w.entry s .inputs key = some n
  | .union n => ∃ s key, w.entry s .unions key = some n
  | .interface n => ∃ s key, w.entry s .interfaces key = some n
  | .object n =>
    (∃ s key, w.entry s .objects key = some n) ∨
      ∃ key fields, OrderedMap.find w.roots key = some (n, fields)

/-- The nodes that anything may refer to.  The roots of a schema that is still being assembled are
known, but nothing can refer to them yet. -/
def Offers (w : Workspace σ) (n : GraphNode) : Prop :=
  w.Holds d n ∧ ∀ serial operation, n.id = .root serial operation → serial < w.nextSchema

/-- What a session may keep in a table for a key. -/
def Proper (w : Workspace σ) (s : SessionId) : (t : CacheTable) → TypeKey → t.Value → Prop
  | .objects, key, n =>
    n.id = .compiled s .object key ∧ (∃ c, n.cls = some c ∧ d.classes c ∧ c.key = key) ∧
      (w.registries s).isObject key = true ∧ ∀ i ∈ n.interfaces, w.Offers d (.interface i)
  | .inputs, key, n =>
    n.id = .compiled s .input key ∧ (d.classes n.cls ∧ n.cls.key = key) ∧
      (w.registries s).isInput key = true
  | .enums, key, n =>
    n.id = .compiled s .enum key ∧ d.enums n.definition ∧ n.definition.key = key
  | .unions, key, n =>
    n.id = .compiled s .union key ∧ (d.classes n.cls ∧ n.cls.key = key) ∧
      (w.registries s).isUnion key = true ∧ ∀ m ∈ n.members, w.Offers d (.object m)
  | .interfaces, key, n =>
    n.id = .compiled s .interface key ∧ (d.classes n.cls ∧ n.cls.key = key) ∧
      (w.registries s).isInterface key = true
  | .objectFields, _, fields | .interfaceFields, _, fields =>
    ∀ m ∈ FieldMap.nodes fields, w.Offers d m
  | .inputFields, _, fields =>
    (∀ m ∈ CacheTable.nodes .inputFields fields, w.Offers d m) ∧
      fields.length ≤ (w.registries s).inputFieldTotal

/-- A workspace in which the identity of a node says everything about it. -/
structure Coherent (w : Workspace σ) : Prop where
  registries : ∀ s, (w.registries s).Within d (w.Offers d)
  entries : ∀ {s : SessionId} {t : CacheTable} {key : TypeKey} {v : t.Value},
    w.entry s t key = some v → w.Proper d s t key v
  roots : ∀ {serial : Nat} {operation : Operation} {n : ObjectNode} {fields : FieldMap},
    OrderedMap.find w.roots (serial, operation) = some (n, fields) →
      n = rootNode serial operation n.name ∧ ∀ m ∈ FieldMap.nodes fields, w.Offers d m

variable {d} {w w' : Workspace σ}

/-! ## More entries -/

/-- A node stays known if the tables of nodes keep their entries, and it keeps its place as a
root. -/
theorem Holds.imp {n : GraphNode}
    (he : ∀ {s : SessionId} {t : CacheTable} {key : TypeKey} {v : t.Value}, t.ofNodes = true →
      w.entry s t key = some v → w'.entry s t key = some v)
    (hroots : ∀ {m : ObjectNode} {key : Nat × Operation} {fields : FieldMap}, n = .object m →
      OrderedMap.find w.roots key = some (m, fields) →
        OrderedMap.find w'.roots key = some (m, fields))
    (h : w.Holds d n) : w'.Holds d n := by
  cases n with
  | scalar n => exact h
  | object n =>
    rcases h with ⟨s, key, h⟩ | ⟨key, fields, h⟩
    · exact .inl ⟨s, key, he rfl h⟩
    · exact .inr ⟨key, fields, hroots rfl h⟩
  | enum n =>
    rcases h with h | ⟨s, key, h⟩
    · exact .inl h
    · exact .inr ⟨s, key, he rfl h⟩
  | input n | union n | interface n =>
    obtain ⟨s, key, h⟩ := h
    exact ⟨s, key, he rfl h⟩

theorem Holds.mono (hg : w.Grows w') {n : GraphNode} (h : w.Holds d n) : w'.Holds d n :=
  h.imp (fun _ ↦ hg.kept) fun _ h ↦ hg.roots ▸ h

theorem Offers.mono (hg : w.Grows w') {n : GraphNode} (h : w.Offers d n) : w'.Offers d n :=
  ⟨h.1.mono hg, fun serial operation hn ↦ hg.nextSchema ▸ h.2 serial operation hn⟩

/-- What a table may keep it may still keep when more is registered and more is offered. -/
theorem Proper.imp {s : SessionId} (hr : (w.registries s).Extends (w'.registries s))
    (ho : ∀ n, w.Offers d n → w'.Offers d n) {t : CacheTable} {key : TypeKey} {v : t.Value}
    (h : w.Proper d s t key v) : w'.Proper d s t key v := by
  cases t with
  | objects => exact ⟨h.1, h.2.1, hr.objects key h.2.2.1, fun i hi ↦ ho _ (h.2.2.2 i hi)⟩
  | unions => exact ⟨h.1, h.2.1, hr.unions key h.2.2.1, fun m hm ↦ ho _ (h.2.2.2 m hm)⟩
  | inputs => exact ⟨h.1, h.2.1, hr.inputs key h.2.2⟩
  | interfaces => exact ⟨h.1, h.2.1, hr.interfaces key h.2.2⟩
  | enums => exact h
  | objectFields | interfaceFields => exact fun m hm ↦ ho m (h m hm)
  | inputFields => exact ⟨fun m hm ↦ ho m (h.1 m hm), Nat.le_trans h.2 hr.inputFields⟩

theorem Proper.mono (hg : w.Grows w') {s : SessionId} {t : CacheTable} {key : TypeKey}
    {v : t.Value} (h : w.Proper d s t key v) : w'.Proper d s t key v :=
  h.imp (hg.registries s ▸ .refl _) fun _ ↦ .mono hg

/-- A coherent workspace stays coherent if all that comes to it is proper. -/
theorem Coherent.of_grows (hw : w.Coherent d) (hg : w.Grows w')
    (h : ∀ {s : SessionId} {t : CacheTable} {key : TypeKey} {v : t.Value},
      w'.entry s t key = some v → w.entry s t key = some v ∨ w'.Proper d s t key v) :
    w'.Coherent d where
  registries s := by
    rw [hg.registries s]
    exact (hw.registries s).imp fun n ↦ Offers.mono hg
  entries he := (h he).elim (fun he ↦ (hw.entries he).mono hg) id
  roots he := by
    rw [hg.roots] at he
    exact ⟨(hw.roots he).1, fun m hm ↦ ((hw.roots he).2 m hm).mono hg⟩

theorem Coherent.ofHost (hw : w.Coherent d) (host : σ) : Coherent d { w with host } :=
  hw.of_grows (.ofHost w host) .inl

/-- An entry that is proper, and no other than the one that may be there, can be kept. -/
theorem Coherent.keep (hw : w.Coherent d) {s : SessionId} {t : CacheTable} {key : TypeKey}
    {v : t.Value} (hu : ∀ u, w.entry s t key = some u → u = v) (hv : w.Proper d s t key v) :
    (w.keep s t key v).Coherent d := by
  have hg : w.Grows (w.keep s t key v) := .keep hu
  refine hw.of_grows hg fun {b u other x} he ↦ ?_
  by_cases heq : s = b ∧ t = u ∧ key = other
  · obtain ⟨rfl, rfl, rfl⟩ := heq
    have hs := lt_length_of_entry he
    rw [hg.sessions_length] at hs
    rw [entry_keep_self w hs] at he
    cases he
    exact .inr (hv.mono hg)
  · rw [entry_keep_of_ne w heq] at he
    exact .inl he

/-- What a table keeps gives only nodes that are offered. -/
theorem Coherent.offers_of_entry (hw : w.Coherent d) {s : SessionId} {t : CacheTable}
    {key : TypeKey} {v : t.Value} (h : w.entry s t key = some v) :
    ∀ n ∈ t.nodes v, w.Offers d n := by
  have hv := hw.entries h
  intro n hn
  cases t with
  | objects =>
    cases List.mem_singleton.1 hn
    refine ⟨.inl ⟨s, key, h⟩, fun serial operation hid ↦ ?_⟩
    rw [GraphNode.id, hv.1] at hid
    cases hid
  | enums =>
    cases List.mem_singleton.1 hn
    refine ⟨.inr ⟨s, key, h⟩, fun serial operation hid ↦ ?_⟩
    rw [GraphNode.id, hv.1] at hid
    cases hid
  | inputs | unions | interfaces =>
    cases List.mem_singleton.1 hn
    refine ⟨⟨s, key, h⟩, fun serial operation hid ↦ ?_⟩
    rw [GraphNode.id, hv.1] at hid
    cases hid
  | objectFields | interfaceFields => exact hv n hn
  | inputFields => exact hv.1 n hn

/-! ## From one workspace to another -/

/-- What is offered stays offered as long as no node is dropped. -/
theorem Offers.transfer (hw : w.Coherent d)
    (he : ∀ {s : SessionId} {t : CacheTable} {key : TypeKey} {v : t.Value}, t.ofNodes = true →
      w.entry s t key = some v → w'.entry s t key = some v)
    (hroots : ∀ {serial : Nat} {operation : Operation}, serial < w.nextSchema →
      OrderedMap.find w'.roots (serial, operation) = OrderedMap.find w.roots (serial, operation))
    (hnext : w.nextSchema ≤ w'.nextSchema) {n : GraphNode} (hn : w.Offers d n) :
    w'.Offers d n := by
  obtain ⟨hn, hserial⟩ := hn
  refine ⟨hn.imp he ?_, fun serial operation h ↦
    Nat.lt_of_lt_of_le (hserial serial operation h) hnext⟩
  rintro m ⟨serial, operation⟩ fields rfl hm
  have hid : m.id = .root serial operation := by rw [(hw.roots hm).1, rootNode]
  exact (hroots (hserial serial operation hid)).trans hm

/-- Coherence survives wherever no more is kept and no less is registered and offered. -/
theorem Coherent.transfer (hw : w.Coherent d) (ho : ∀ n, w.Offers d n → w'.Offers d n)
    (hr : ∀ s, (w.registries s).Extends (w'.registries s))
    (hwithin : ∀ s, (w'.registries s).Within d (w'.Offers d))
    (he : ∀ {s : SessionId} {t : CacheTable} {key : TypeKey} {v : t.Value},
      w'.entry s t key = some v → w.entry s t key = some v)
    (hroots : ∀ {serial : Nat} {operation : Operation} {n : ObjectNode} {fields : FieldMap},
      OrderedMap.find w'.roots (serial, operation) = some (n, fields) →
        OrderedMap.find w.roots (serial, operation) = some (n, fields) ∨
          n = rootNode serial operation n.name ∧ ∀ m ∈ FieldMap.nodes fields, w'.Offers d m) :
    w'.Coherent d where
  registries := hwithin
  entries h := (hw.entries (he h)).imp (hr _) ho
  roots h := (hroots h).elim
    (fun h ↦ ⟨(hw.roots h).1, fun m hm ↦ ho m ((hw.roots h).2 m hm)⟩) id

/-- Coherence survives whatever leaves tables, registries and roots as they are. -/
theorem Coherent.of_same (hw : w.Coherent d) (hr : ∀ s, w'.registries s = w.registries s)
    (he : ∀ s t key, w'.entry s t key = w.entry s t key) (hroots : w'.roots = w.roots)
    (hnext : w.nextSchema ≤ w'.nextSchema) : w'.Coherent d := by
  have ho : ∀ n, w.Offers d n → w'.Offers d n := by
    intro n hn
    refine Offers.transfer hw ?_ ?_ hnext hn
    · exact fun _ h ↦ (he ..).trans h
    · exact fun _ ↦ by rw [hroots]
  refine hw.transfer ho (fun s ↦ hr s ▸ .refl _) (fun s ↦ ?_) (fun h ↦ he .. ▸ h) fun h ↦ ?_
  · rw [hr s]
    exact (hw.registries s).imp ho
  · exact .inl (hroots ▸ h)

/-! ## Identity -/

/-- The node of an identity, if the workspace knows it by its identity alone. -/
def node? (w : Workspace σ) : NodeId → Option GraphNode
  | .native scalar => some (.scalar scalar.node)
  | .custom _ => none
  | .compiled s .object key => (w.entry s .objects key).map .object
  | .compiled s .input key => (w.entry s .inputs key).map .input
  | .compiled s .enum key => (w.entry s .enums key).map .enum
  | .compiled s .union key => (w.entry s .unions key).map .union
  | .compiled s .interface key => (w.entry s .interfaces key).map .interface
  | .root serial operation =>
    (OrderedMap.find w.roots (serial, operation)).map fun r ↦ .object r.1

theorem id_native (scalar : NativeScalar) : scalar.node.id = .native scalar := by
  cases scalar <;> rfl

/-- Every node is found by its identity, except for those that the program makes by hand. -/
theorem Coherent.node?_id (hw : w.Coherent d) {n : GraphNode} (h : w.Holds d n) :
    d.Makes n ∨ w.node? n.id = some n := by
  cases n with
  | scalar n =>
    rcases h with h | ⟨native, rfl⟩
    · exact .inl (.scalar h)
    · exact .inr (by rw [GraphNode.id, id_native, node?])
  | enum n =>
    rcases h with h | ⟨s, key, h⟩
    · exact .inl (.enum h)
    · exact .inr (by rw [GraphNode.id, (hw.entries h).1, node?, h, Option.map_some])
  | object n =>
    rcases h with ⟨s, key, h⟩ | ⟨⟨serial, operation⟩, fields, h⟩
    · exact .inr (by rw [GraphNode.id, (hw.entries h).1, node?, h, Option.map_some])
    · have hn : n.id = .root serial operation := by rw [(hw.roots h).1, rootNode]
      exact .inr (by rw [GraphNode.id, hn, node?, h, Option.map_some])
  | input n | union n | interface n =>
    obtain ⟨s, key, h⟩ := h
    exact .inr (by rw [GraphNode.id, (hw.entries h).1, node?, h, Option.map_some])

/-- **Two nodes of one identity are one node.** -/
theorem Coherent.eq_of_id_eq (hw : w.Coherent d) {a b : GraphNode} (ha : w.Holds d a)
    (hb : w.Holds d b) (h : a.id = b.id) : a = b := by
  rcases hw.node?_id ha with ha' | ha' <;> rcases hw.node?_id hb with hb' | hb'
  · exact ha'.eq_of_id_eq hb' h
  · obtain ⟨serial, hs⟩ := ha'.custom
    rw [← h, hs] at hb'
    cases hb'
  · obtain ⟨serial, hs⟩ := hb'.custom
    rw [h, hs] at ha'
    cases ha'
  · rw [h, hb'] at ha'
    exact (Option.some.inj ha').symm

end Workspace
end ApiGraph
