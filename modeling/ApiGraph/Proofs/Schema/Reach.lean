import ApiGraph.Proofs.Compile.Fields
import Mathlib.Logic.Relation

/-!
# The nodes that a workspace leads to

One node leads to another through the type of a field or of an argument, an interface that it
claims, a registered implementor, a member, or the type of an input field.  The walk of
`collectTypes` asks for these by `GraphNode.successors`, which may fail; the relation here says what
they are.

## What is here

* `Workspace.Leads`: one node leads to another, one constructor for each kind of edge.
* `Workspace.Reaches`: the nodes reached from some nodes; `Workspace.reaches_iff_of_leads`: they are
  a matter of what the nodes on the way lead to.
* `Workspace.leads_object_iff` and its like: what a node of each kind leads to.
* `GraphNode.mem_successors_iff`: successors are what a node leads to.
* `Workspace.compositeIds`: the identities that nodes with successors can have.
-/

set_option autoImplicit false

namespace ApiGraph

open Compile (Settles)

variable {σ : Type}

namespace Workspace

/-- The map of the fields of an object type or of an interface. -/
def OutputFields (host : Host σ) (w : Workspace σ) : GraphNode → FieldMap → Prop
  | .object n, fields => ((n.fields host).runIn w).1 = .ok fields
  | .interface n, fields => ((n.fields host).runIn w).1 = .ok fields
  | _, _ => False

/-- One node leads to another. -/
inductive Leads (host : Host σ) (w : Workspace σ) : GraphNode → GraphNode → Prop
  /-- Through the type of a field. -/
  | fieldType {n : GraphNode} {fields : FieldMap} {f : CompiledField}
    (hn : w.OutputFields host n fields) (hf : f ∈ OrderedMap.values fields) :
    Leads host w n f.type.node
  /-- Through the type of an argument of a field. -/
  | argumentType {n : GraphNode} {fields : FieldMap} {f : CompiledField} {a : CompiledArg}
    (hn : w.OutputFields host n fields) (hf : f ∈ OrderedMap.values fields)
    (ha : a ∈ OrderedMap.values f.args) : Leads host w n a.type.node
  /-- Through an interface that an object type claims. -/
  | claim {n : ObjectNode} {i : InterfaceNode} (hi : i ∈ n.interfaces) :
    Leads host w (.object n) (.interface i)
  /-- Through a registered implementor of an interface. -/
  | implementor {n : InterfaceNode} {objects : List ObjectNode} {m : ObjectNode}
    (hn : (n.implementations.runIn w).1 = .ok objects) (hm : m ∈ objects) :
    Leads host w (.interface n) (.object m)
  /-- Through a member of a union. -/
  | member {n : UnionNode} {m : ObjectNode} (hm : m ∈ n.members) :
    Leads host w (.union n) (.object m)
  /-- Through the type of a field of an input type. -/
  | inputField {n : InputNode} {fields : InputMap} {f : CompiledInputField}
    (hn : ((n.fields host).runIn w).1 = .ok fields) (hf : f ∈ OrderedMap.values fields) :
    Leads host w (.input n) f.type.node

/-- A node is reached from some nodes. -/
def Reaches (host : Host σ) (w : Workspace σ) (start : List GraphNode) (n : GraphNode) : Prop :=
  ∃ r ∈ start, Relation.ReflTransGen (w.Leads host) r n

theorem Reaches.of_mem {host : Host σ} {w : Workspace σ} {start : List GraphNode} {n : GraphNode}
    (h : n ∈ start) : w.Reaches host start n :=
  ⟨n, h, .refl⟩

theorem Reaches.tail {host : Host σ} {w : Workspace σ} {start : List GraphNode} {n m : GraphNode}
    (h : w.Reaches host start n) (hm : w.Leads host n m) : w.Reaches host start m := by
  obtain ⟨r, hr, h⟩ := h
  exact ⟨r, hr, h.tail hm⟩

/-- Nodes that lead to the same nodes in two workspaces reach the same nodes. -/
theorem reaches_iff_of_leads {host : Host σ} {w v : Workspace σ} {start : List GraphNode}
    (h : ∀ n, w.Reaches host start n → ∀ m, w.Leads host n m ↔ v.Leads host n m) {n : GraphNode} :
    w.Reaches host start n ↔ v.Reaches host start n := by
  constructor
  · rintro ⟨r, hr, hpath⟩
    induction hpath with
    | refl => exact .of_mem hr
    | @tail b c hpath hlead ih => exact ih.tail ((h b ⟨r, hr, hpath⟩ c).1 hlead)
  · rintro ⟨r, hr, hpath⟩
    induction hpath with
    | refl => exact .of_mem hr
    | @tail b c _ hlead ih => exact ih.tail ((h b ih c).2 hlead)

end Workspace

/-- What is among the nodes of a map is the type of a field or of an argument. -/
theorem FieldMap.mem_nodes_iff {fields : FieldMap} {m : GraphNode} :
    m ∈ FieldMap.nodes fields ↔ ∃ f ∈ OrderedMap.values fields,
      m = f.type.node ∨ ∃ a ∈ OrderedMap.values f.args, m = a.type.node := by
  simp only [FieldMap.nodes, List.mem_flatMap, CompiledField.nodes, List.mem_cons, List.mem_map,
    eq_comm]

section Successors

variable {d : Declarations} {host : Host σ} {w₀ w : Workspace σ}

theorem Workspace.leads_of_mem_nodes {n m : GraphNode} {fields : FieldMap}
    (hn : w.OutputFields host n fields) (hm : m ∈ FieldMap.nodes fields) : w.Leads host n m := by
  obtain ⟨f, hf, rfl | ⟨a, ha, rfl⟩⟩ := FieldMap.mem_nodes_iff.1 hm
  · exact .fieldType hn hf
  · exact .argumentType hn hf ha

/-- An object type leads to the types of its fields and to the interfaces that it claims. -/
theorem Workspace.leads_object_iff {n : ObjectNode} {m : GraphNode} {fields : FieldMap}
    (hn : ((n.fields host).runIn w).1 = .ok fields) :
    w.Leads host (.object n) m ↔ m ∈ FieldMap.nodes fields ∨ m ∈ n.interfaces.map .interface := by
  constructor
  · intro h
    cases h with
    | fieldType hn' hf =>
      cases hn.symm.trans hn'
      exact .inl (FieldMap.mem_nodes_iff.2 ⟨_, hf, .inl rfl⟩)
    | argumentType hn' hf ha =>
      cases hn.symm.trans hn'
      exact .inl (FieldMap.mem_nodes_iff.2 ⟨_, hf, .inr ⟨_, ha, rfl⟩⟩)
    | claim hi => exact .inr (List.mem_map_of_mem hi)
  · rintro (hm | hm)
    · exact leads_of_mem_nodes hn hm
    · obtain ⟨i, hi, rfl⟩ := List.mem_map.1 hm
      exact .claim hi

/-- An interface leads to the types of its fields and to its registered implementors. -/
theorem Workspace.leads_interface_iff {n : InterfaceNode} {m : GraphNode} {fields : FieldMap}
    {objects : List ObjectNode} (hn : ((n.fields host).runIn w).1 = .ok fields)
    (ho : (n.implementations.runIn w).1 = .ok objects) :
    w.Leads host (.interface n) m ↔ m ∈ FieldMap.nodes fields ∨ m ∈ objects.map .object := by
  constructor
  · intro h
    cases h with
    | fieldType hn' hf =>
      cases hn.symm.trans hn'
      exact .inl (FieldMap.mem_nodes_iff.2 ⟨_, hf, .inl rfl⟩)
    | argumentType hn' hf ha =>
      cases hn.symm.trans hn'
      exact .inl (FieldMap.mem_nodes_iff.2 ⟨_, hf, .inr ⟨_, ha, rfl⟩⟩)
    | implementor ho' hm =>
      cases ho.symm.trans ho'
      exact .inr (List.mem_map_of_mem hm)
  · rintro (hm | hm)
    · exact leads_of_mem_nodes hn hm
    · obtain ⟨o, ho', rfl⟩ := List.mem_map.1 hm
      exact .implementor ho ho'

/-- A union leads to its members. -/
theorem Workspace.leads_union_iff {n : UnionNode} {m : GraphNode} :
    w.Leads host (.union n) m ↔ m ∈ n.members.map .object := by
  constructor
  · intro h
    cases h with
    | fieldType hn | argumentType hn => cases hn
    | member hm => exact List.mem_map_of_mem hm
  · intro hm
    obtain ⟨o, ho, rfl⟩ := List.mem_map.1 hm
    exact .member ho

/-- An input type leads to the types of its fields. -/
theorem Workspace.leads_input_iff {n : InputNode} {m : GraphNode} {fields : InputMap}
    (hn : ((n.fields host).runIn w).1 = .ok fields) :
    w.Leads host (.input n) m ↔ m ∈ (OrderedMap.values fields).map (·.type.node) := by
  constructor
  · intro h
    cases h with
    | fieldType hn' | argumentType hn' => cases hn'
    | inputField hn' hf =>
      cases hn.symm.trans hn'
      exact List.mem_map_of_mem hf
  · intro hm
    obtain ⟨f, hf, rfl⟩ := List.mem_map.1 hm
    exact .inputField hn hf

/-- **Successors are what a node leads to.** -/
theorem GraphNode.mem_successors_iff (hw₀ : w₀.Coherent d) (hw : w₀.Filled d host w)
    {n : GraphNode} (hn : w.Holds d n) {ms : List GraphNode}
    (h : ((n.successors host).runIn w₀).1 = .ok ms) {m : GraphNode} :
    m ∈ ms ↔ w₀.Leads host n m := by
  have hself : w₀.Filled d host w₀ := .refl hw₀
  obtain ⟨w', h⟩ : ∃ w', (n.successors host).runIn w₀ = (.ok ms, w') := ⟨_, Prod.ext h rfl⟩
  cases n with
  | object n =>
    obtain ⟨fields, w₁, hf, h⟩ := Compile.runIn_bind_eq_ok h
    cases h
    rw [Workspace.leads_object_iff (congrArg Prod.fst hf), List.mem_append]
  | interface n =>
    obtain ⟨fields, w₁, hf, h⟩ := Compile.runIn_bind_eq_ok h
    obtain ⟨objects, w₂, ho, h⟩ := Compile.runIn_bind_eq_ok h
    cases h
    -- the implementors are asked for after the fields, which makes no difference
    have hobjects : (n.implementations.runIn w₀).1 = .ok objects := by
      have hf' : Settles d host w₀ [] _ _ := InterfaceNode.fields_settles hw₀ hw hn
      have ho' : Settles d host w₀ [] _ _ := InterfaceNode.implementations_settles hw₀ hw hn
      rw [← ho'.runIn_eq hself (hf'.filled_of_run hself hf), ho]
    rw [Workspace.leads_interface_iff (congrArg Prod.fst hf) hobjects, List.mem_append]
  | union n =>
    cases h
    exact Workspace.leads_union_iff.symm
  | input n =>
    obtain ⟨fields, w₁, hf, h⟩ := Compile.runIn_bind_eq_ok h
    cases h
    exact (Workspace.leads_input_iff (congrArg Prod.fst hf)).symm
  | enum n | scalar n =>
    cases h
    refine ⟨nofun, fun hm ↦ ?_⟩
    cases hm with
    | fieldType hn | argumentType hn => cases hn

end Successors

/-! ## How many nodes there can be -/

/-- The identities that the nodes of a session with successors can have. -/
def Registries.compositeIds (r : Registries) (s : SessionId) : List NodeId :=
  (OrderedMap.keys r.objects).map (.compiled s .object) ++
    (OrderedMap.keys r.inputs).map (.compiled s .input) ++
    (OrderedMap.keys r.unions).map (.compiled s .union) ++
    (OrderedMap.keys r.interfaces).map (.compiled s .interface)

namespace Workspace

/-- The identities that nodes with successors can have. -/
def compositeIds (w : Workspace σ) : List NodeId :=
  (w.sessions.zipIdx.flatMap fun x ↦ x.1.registries.compositeIds x.2) ++
    w.roots.map fun e ↦ .root e.1.1 e.1.2

theorem length_compositeIds (w : Workspace σ) : w.compositeIds.length = w.typeCount := by
  have h : ∀ (l : List Session) (k m : Nat),
      ((l.zipIdx k).flatMap fun x ↦ x.1.registries.compositeIds x.2).length + m =
        l.foldr (fun s n ↦ s.registries.typeCount + n) m := by
    intro l
    induction l with
    | nil => intro k m; exact Nat.zero_add m
    | cons x rest ih =>
      intro k m
      rw [List.zipIdx_cons, List.flatMap_cons, List.length_append, List.foldr_cons, ← ih (k + 1) m]
      simp only [Registries.compositeIds, Registries.typeCount, OrderedMap.keys,
        List.length_append, List.length_map]
      omega
  rw [compositeIds, List.length_append, List.length_map, typeCount]
  exact h w.sessions 0 w.roots.length

theorem registries_of_lt {w : Workspace σ} {s : SessionId} (hs : s < w.sessions.length) :
    (w.sessions[s], s) ∈ w.sessions.zipIdx ∧ w.sessions[s].registries = w.registries s := by
  refine ⟨List.mem_zipIdx_iff_getElem?.2 (List.getElem?_eq_getElem hs), ?_⟩
  rw [registries, session, List.getElem?_eq_getElem hs, Option.getD_some]

/-- A node with successors has one of these identities. -/
theorem Coherent.mem_compositeIds {d : Declarations} {w : Workspace σ} (hw : w.Coherent d)
    {n : GraphNode} (hn : w.Holds d n) (hc : n.isComposite = true) : n.id ∈ w.compositeIds := by
  have hsession : ∀ {s : SessionId} {id : NodeId}, s < w.sessions.length →
      id ∈ (w.registries s).compositeIds s → id ∈ w.compositeIds := by
    intro s id hs hid
    obtain ⟨hmem, hr⟩ := registries_of_lt hs
    exact List.mem_append_left _ (List.mem_flatMap.2 ⟨_, hmem, hr.symm ▸ hid⟩)
  cases n with
  | object n =>
    rcases hn with ⟨s, key, h⟩ | ⟨⟨serial, operation⟩, fields, h⟩
    · obtain ⟨hid, -, hr, -⟩ := hw.entries h
      refine hsession (lt_length_of_entry h) ?_
      rw [GraphNode.id, hid]
      have hkey := List.mem_map_of_mem (f := NodeId.compiled s .object)
        ((OrderedMap.has_iff_mem_keys _ key).1 hr)
      simp only [Registries.compositeIds, List.mem_append, hkey, true_or]
    · refine List.mem_append_right _ (List.mem_map.2 ⟨_, OrderedMap.mem_of_find h, ?_⟩)
      rw [GraphNode.id, (hw.roots h).1, rootNode]
  | input n =>
    obtain ⟨s, key, h⟩ := hn
    obtain ⟨hid, -, hr⟩ := hw.entries h
    refine hsession (lt_length_of_entry h) ?_
    rw [GraphNode.id, hid]
    have hkey := List.mem_map_of_mem (f := NodeId.compiled s .input)
      ((OrderedMap.has_iff_mem_keys _ key).1 hr)
    simp only [Registries.compositeIds, List.mem_append, hkey, true_or, or_true]
  | union n =>
    obtain ⟨s, key, h⟩ := hn
    obtain ⟨hid, -, hr, -⟩ := hw.entries h
    refine hsession (lt_length_of_entry h) ?_
    rw [GraphNode.id, hid]
    have hkey := List.mem_map_of_mem (f := NodeId.compiled s .union)
      ((OrderedMap.has_iff_mem_keys _ key).1 hr)
    simp only [Registries.compositeIds, List.mem_append, hkey, true_or, or_true]
  | interface n =>
    obtain ⟨s, key, h⟩ := hn
    obtain ⟨hid, -, hr⟩ := hw.entries h
    refine hsession (lt_length_of_entry h) ?_
    rw [GraphNode.id, hid]
    have hkey := List.mem_map_of_mem (f := NodeId.compiled s .interface)
      ((OrderedMap.has_iff_mem_keys _ key).1 hr)
    simp only [Registries.compositeIds, List.mem_append, hkey, or_true]
  | enum n | scalar n => cases hc

end Workspace
end ApiGraph
