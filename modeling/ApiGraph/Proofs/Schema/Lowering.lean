import ApiGraph.Proofs.Session.Steps

/-!
# The types that are lowered

Building an executable asks once more for the fields of each type.  They were asked for when the
schema was compiled, so they are at hand, or else their session has lost its last owner and no
executable is built.  Either way what is lowered mentions nothing that the schema did not reach.

## What is here

* `EngineType.mentions`: the type names that a lowered type mentions.
* `GraphNode.Becomes`: what a node becomes in an executable, and `GraphNode.becomes_of_lower`.
* `GraphNode.Kept.lower_of_follows`: a node is lowered later as it is now, or not at all.
-/

set_option autoImplicit false

namespace ApiGraph

open OrderedMap (values)

variable {σ : Type} {d : Declarations} {host : Host σ} {w w' : Workspace σ}

/-! ## Names -/

/-- The name at the bottom of a type. -/
def TypeExpr.base : TypeExpr → String
  | .named name => name
  | .nonNull inner => inner.base
  | .list item => item.base

theorem GraphType.base_expr (t : GraphType) : t.expr.base = t.node.name := by
  induction t with
  | named n => rfl
  | nonNull inner ih => exact ih
  | list item ih => exact ih

/-- The type names that a field mentions: of the field itself and of its arguments. -/
def CompiledField.mentions (f : CompiledField) : List String :=
  f.type.expr.base :: (values f.args).map fun a ↦ a.type.expr.base

/-- The type names that a lowered type mentions. -/
def EngineType.mentions : EngineType → List String
  | .scalar _ | .enum _ => []
  | .object n fields =>
    (values fields).flatMap CompiledField.mentions ++ n.interfaces.map InterfaceNode.name
  | .input _ fields => (values fields).map fun f ↦ f.type.expr.base
  | .union n => n.members.map ObjectNode.name
  | .interface _ fields => (values fields).flatMap CompiledField.mentions

/-- A field mentions the nodes of its types. -/
theorem FieldMap.mem_mentions {fields : FieldMap} {name : String}
    (h : name ∈ (values fields).flatMap CompiledField.mentions) :
    ∃ m ∈ FieldMap.nodes fields, m.name = name := by
  obtain ⟨f, hf, h⟩ := List.mem_flatMap.1 h
  rcases List.mem_cons.1 h with rfl | h
  · exact ⟨f.type.node, FieldMap.mem_nodes_iff.2 ⟨f, hf, .inl rfl⟩, f.type.base_expr.symm⟩
  · obtain ⟨a, ha, rfl⟩ := List.mem_map.1 h
    exact ⟨a.type.node, FieldMap.mem_nodes_iff.2 ⟨f, hf, .inr ⟨a, ha, rfl⟩⟩,
      a.type.base_expr.symm⟩

/-! ## What a node becomes -/

/-- Whether a node is a scalar that the engine has already. -/
def GraphNode.isBuiltin : GraphNode → Bool
  | .scalar n => n.builtin
  | _ => false

/-- What a node becomes in an executable: the node itself, with the fields that it has. -/
inductive GraphNode.Becomes (host : Host σ) (w : Workspace σ) : GraphNode → EngineType → Prop
  | scalar (n : ScalarNode) : Becomes host w (.scalar n) (.scalar n)
  | enum (n : EnumNode) : Becomes host w (.enum n) (.enum n)
  | union (n : UnionNode) : Becomes host w (.union n) (.union n)
  | object {n : ObjectNode} {fields : FieldMap} (h : ((n.fields host).runIn w).1 = .ok fields) :
    Becomes host w (.object n) (.object n fields)
  | interface {n : InterfaceNode} {fields : FieldMap}
    (h : ((n.fields host).runIn w).1 = .ok fields) :
    Becomes host w (.interface n) (.interface n fields)
  | input {n : InputNode} {fields : InputMap} (h : ((n.fields host).runIn w).1 = .ok fields) :
    Becomes host w (.input n) (.input n fields)

theorem GraphNode.Becomes.node_eq {n : GraphNode} {t : EngineType} (h : n.Becomes host w t) :
    t.node = n := by
  cases h <;> rfl

/-- What a node becomes mentions names of nodes that the node leads to. -/
theorem GraphNode.Becomes.leads {n : GraphNode} {t : EngineType} (h : n.Becomes host w t)
    {name : String} (hname : name ∈ t.mentions) : ∃ m, w.Leads host n m ∧ m.name = name := by
  cases h with
  | scalar | enum => exact absurd hname List.not_mem_nil
  | union n =>
    obtain ⟨m, hm, rfl⟩ := List.mem_map.1 hname
    exact ⟨.object m, .member hm, rfl⟩
  | @object n fields h =>
    have hfields : w.OutputFields host (.object n) fields := h
    rcases List.mem_append.1 hname with hname | hname
    · obtain ⟨m, hm, rfl⟩ := FieldMap.mem_mentions hname
      exact ⟨m, Workspace.leads_of_mem_nodes hfields hm, rfl⟩
    · obtain ⟨i, hi, rfl⟩ := List.mem_map.1 hname
      exact ⟨.interface i, .claim hi, rfl⟩
  | @interface n fields h =>
    have hfields : w.OutputFields host (.interface n) fields := h
    obtain ⟨m, hm, rfl⟩ := FieldMap.mem_mentions hname
    exact ⟨m, Workspace.leads_of_mem_nodes hfields hm, rfl⟩
  | input h =>
    obtain ⟨f, hf, rfl⟩ := List.mem_map.1 hname
    exact ⟨f.type.node, .inputField h hf, f.type.base_expr.symm⟩

/-- A node is left out if it is a scalar that the engine has, and else lowered to what it
becomes. -/
theorem GraphNode.becomes_of_lower {n : GraphNode} {o : Option EngineType}
    (h : ((n.lower host).runIn w).1 = .ok o) :
    match o with
    | none => n.isBuiltin = true
    | some t => n.isBuiltin = false ∧ n.Becomes host w t := by
  obtain ⟨w', h⟩ : ∃ w', (n.lower host).runIn w = (.ok o, w') := ⟨_, Prod.ext h rfl⟩
  cases n with
  | scalar n =>
    rw [lower] at h
    split at h
    · rename_i hbuiltin
      cases h
      exact hbuiltin
    · rename_i hbuiltin
      cases h
      exact ⟨eq_false_of_ne_true hbuiltin, .scalar n⟩
  | enum n =>
    cases h
    exact ⟨rfl, .enum n⟩
  | union n =>
    cases h
    exact ⟨rfl, .union n⟩
  | object n =>
    obtain ⟨fields, w₁, hf, h⟩ := Compile.runIn_bind_eq_ok h
    cases h
    exact ⟨rfl, .object (congrArg Prod.fst hf)⟩
  | interface n =>
    obtain ⟨fields, w₁, hf, h⟩ := Compile.runIn_bind_eq_ok h
    cases h
    exact ⟨rfl, .interface (congrArg Prod.fst hf)⟩
  | input n =>
    obtain ⟨fields, w₁, hf, h⟩ := Compile.runIn_bind_eq_ok h
    cases h
    exact ⟨rfl, .input (congrArg Prod.fst hf)⟩

/-- A scalar that the engine has goes by one of the engine's names. -/
theorem GraphNode.engineScalar_of_isBuiltin {n : GraphNode} (hn : w.Holds d n)
    (h : n.isBuiltin = true) : n.name ∈ engineScalars := by
  cases n with
  | scalar n =>
    replace h : n.builtin = true := h
    rcases hn with hn | ⟨native, rfl⟩
    · rw [(d.scalars_custom hn).1] at h
      cases h
    · cases native with
      | date => cases h
      | string | number | boolean | int | id => decide
  | enum n | union n | object n | interface n | input n => cases h

/-! ## Lowering later -/

/-- An object type is lowered with the fields that are kept for it. -/
theorem ObjectNode.runIn_lower_of_kept {n : ObjectNode} {fields : FieldMap} (h : n.Kept w fields) :
    ((GraphNode.object n).lower host).runIn w = (.ok (some (.object n fields)), w) := by
  rw [GraphNode.lower, Compile.runIn_bind_of_ok (n.runIn_fields_of_kept h)]
  rfl

/-- So is an interface. -/
theorem InterfaceNode.runIn_lower_of_kept {n : InterfaceNode} {fields : FieldMap}
    (h : n.Kept w fields) :
    ((GraphNode.interface n).lower host).runIn w = (.ok (some (.interface n fields)), w) := by
  rw [GraphNode.lower, Compile.runIn_bind_of_ok (n.runIn_fields_of_kept h)]
  rfl

/-- So is an input type. -/
theorem InputNode.runIn_lower_of_kept {n : InputNode} {fields : InputMap} (h : n.Kept w fields) :
    ((GraphNode.input n).lower host).runIn w = (.ok (some (.input n fields)), w) := by
  rw [GraphNode.lower, Compile.runIn_bind_of_ok (n.runIn_fields_of_kept h)]
  rfl

section Later

variable (hw : w.Sound d) (hf : w.Follows w')
include hw hf

/-- The fields that were kept for an object type still are, if they are given at all. -/
theorem ObjectNode.kept_of_follows {n : ObjectNode} (hn : w.Holds d (.object n))
    {fields fields' : FieldMap} (hk : n.Kept w fields)
    (h : ((n.fields host).runIn w').1 = .ok fields') : n.Kept w' fields := by
  rcases hk with ⟨s, role, key, cls, hid, hcls, hk⟩ | ⟨serial, operation, m, hid, hk⟩
  · rcases hn with ⟨b, other, hn⟩ | ⟨⟨serial, operation⟩, known, hn⟩
    · cases hid.symm.trans (hw.coherent.entries hn).1
      rcases hf.entries ⟨n, hn⟩ hk with hk | ⟨-, hnone, ho⟩
      · exact .inl ⟨_, _, _, cls, hid, hcls, hk⟩
      · rw [ObjectNode.fields, hid, hcls] at h
        dsimp only at h
        rw [Compile.runIn_remember_of_closed hnone (Workspace.isOpen_of_owners_eq_nil ho)] at h
        cases h
    · rw [(hw.coherent.roots hn).1] at hid
      cases hid
  · exact .inr ⟨serial, operation, m, hid, (hf.roots (hw.complete hk)).trans hk⟩

theorem InterfaceNode.kept_of_follows {n : InterfaceNode} (hn : w.Holds d (.interface n))
    {fields fields' : FieldMap} (hk : n.Kept w fields)
    (h : ((n.fields host).runIn w').1 = .ok fields') : n.Kept w' fields := by
  obtain ⟨s, role, key, hid, hk⟩ := hk
  obtain ⟨b, other, hn⟩ := hn
  cases hid.symm.trans (hw.coherent.entries hn).1
  rcases hf.entries ⟨n, hn⟩ hk with hk | ⟨-, hnone, ho⟩
  · exact ⟨_, _, _, hid, hk⟩
  · rw [InterfaceNode.fields, hid] at h
    dsimp only at h
    rw [Compile.runIn_remember_of_closed hnone (Workspace.isOpen_of_owners_eq_nil ho)] at h
    cases h

theorem InputNode.kept_of_follows {n : InputNode} (hn : w.Holds d (.input n))
    {fields fields' : InputMap} (hk : n.Kept w fields)
    (h : ((n.fields host).runIn w').1 = .ok fields') : n.Kept w' fields := by
  obtain ⟨s, role, key, hid, hk⟩ := hk
  obtain ⟨b, other, hn⟩ := hn
  cases hid.symm.trans (hw.coherent.entries hn).1
  rcases hf.entries ⟨n, hn⟩ hk with hk | ⟨-, hnone, ho⟩
  · exact ⟨_, _, _, hid, hk⟩
  · rw [InputNode.fields, hid] at h
    dsimp only at h
    rw [Compile.runIn_remember_of_closed hnone (Workspace.isOpen_of_owners_eq_nil ho)] at h
    cases h

/-- **A node is lowered later as it is now, or not at all.** -/
theorem GraphNode.Kept.lower_of_follows {n : GraphNode} (hn : w.Holds d n) (hk : n.Kept w)
    {t : Option EngineType} (h : ((n.lower host).runIn w').1 = .ok t) :
    (n.lower host).runIn w = (.ok t, w) := by
  obtain ⟨w₁, h⟩ : ∃ w₁, (n.lower host).runIn w' = (.ok t, w₁) := ⟨_, Prod.ext h rfl⟩
  cases n with
  | scalar n | enum n | union n =>
    cases h
    rfl
  | object n =>
    obtain ⟨fields, hk⟩ := hk
    obtain ⟨fields', w₂, hfields, -⟩ := Compile.runIn_bind_eq_ok h
    have hk' := n.kept_of_follows hw hf hn hk (congrArg Prod.fst hfields)
    rw [n.runIn_lower_of_kept hk'] at h
    cases h
    exact n.runIn_lower_of_kept hk
  | interface n =>
    obtain ⟨⟨fields, hk⟩, -⟩ := hk
    obtain ⟨fields', w₂, hfields, -⟩ := Compile.runIn_bind_eq_ok h
    have hk' := n.kept_of_follows hw hf hn hk (congrArg Prod.fst hfields)
    rw [n.runIn_lower_of_kept hk'] at h
    cases h
    exact n.runIn_lower_of_kept hk
  | input n =>
    obtain ⟨fields, hk⟩ := hk
    obtain ⟨fields', w₂, hfields, -⟩ := Compile.runIn_bind_eq_ok h
    have hk' := n.kept_of_follows hw hf hn hk (congrArg Prod.fst hfields)
    rw [n.runIn_lower_of_kept hk'] at h
    cases h
    exact n.runIn_lower_of_kept hk

omit hw hf in
/-- What is at hand can be lowered. -/
theorem GraphNode.Kept.runIn_lower {n : GraphNode} (hk : n.Kept w) :
    ∃ t, (n.lower host).runIn w = (.ok t, w) := by
  cases n with
  | scalar n | enum n | union n => exact ⟨_, rfl⟩
  | object n =>
    obtain ⟨fields, hk⟩ := hk
    exact ⟨_, n.runIn_lower_of_kept hk⟩
  | interface n =>
    obtain ⟨⟨fields, hk⟩, -⟩ := hk
    exact ⟨_, n.runIn_lower_of_kept hk⟩
  | input n =>
    obtain ⟨fields, hk⟩ := hk
    exact ⟨_, n.runIn_lower_of_kept hk⟩

end Later

end ApiGraph
