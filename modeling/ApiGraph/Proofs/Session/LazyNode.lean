import ApiGraph.Proofs.FieldMap.Inheritance
import ApiGraph.Proofs.Session.Steps

/-!
# Fields that are made late

Object types, interfaces and input types have in common that their fields are made when they are
first asked for, in an open session, and kept in a table of it.  What an access gives is therefore
what the table has, or else what an evaluation comes to.

## What is here

* `LazyNode`: a node whose fields are made late, with `LazyNode.fields`: an access to them, and
  `LazyNode.evaluate`: an evaluation of them.
* `LazyNode.KeptBy`: a session keeps the node; and what one access gives then, to begin with
  `LazyNode.KeptBy.fields_eq`.
-/

set_option autoImplicit false

namespace ApiGraph

variable {σ : Type} {d : Declarations} {host : Host σ} {w w' v : Workspace σ} {s : SessionId}
  {key : TypeKey}

/-- A node whose fields are made when they are first asked for. -/
inductive LazyNode where
  | object (n : ObjectNode)
  | interface (n : InterfaceNode)
  | input (n : InputNode)

namespace LazyNode

/-- The table that keeps the fields of a node. -/
def table : LazyNode → CacheTable
  | .object _ => .objectFields
  | .interface _ => .interfaceFields
  | .input _ => .inputFields

/-- A session keeps the node under a key. -/
def KeptBy (w : Workspace σ) (s : SessionId) (key : TypeKey) : LazyNode → Prop
  | .object n => w.entry s .objects key = some n
  | .interface n => w.entry s .interfaces key = some n
  | .input n => w.entry s .inputs key = some n

/-- An access to the fields of a node. -/
def fields (host : Host σ) : (x : LazyNode) → Compile σ x.table.Value
  | .object n => n.fields host
  | .interface n => n.fields host
  | .input n => n.fields host

/-- An evaluation of the fields of a node of a session. -/
def evaluate (host : Host σ) (s : SessionId) : (x : LazyNode) → Compile σ x.table.Value
  | .object n => n.cls.elim (throw .sessionDropped) fun c ↦ compileFields host s c n.walk
  | .interface n => compileFields host s n.cls n.cls.oldestFirst
  | .input n => compileInputFields host s n.cls

theorem evaluate_object (host : Host σ) (s : SessionId) {n : ObjectNode} {c : ClassRef}
    (hcls : n.cls = some c) :
    (evaluate host s (.object n) : Compile σ FieldMap) = compileFields host s c n.walk := by
  rw [evaluate, hcls]
  rfl

theorem ofNodes_table (x : LazyNode) : x.table.ofNodes = false := by
  cases x <;> rfl

section Kept

variable {x : LazyNode} (hx : x.KeptBy w s key)
include hx

theorem KeptBy.subject : ∃ n, w.entry s x.table.subject key = some n := by
  cases x with
  | object n | interface n | input n => exact ⟨n, hx⟩

theorem KeptBy.lt_length : s < w.sessions.length :=
  let ⟨_, h⟩ := hx.subject
  Workspace.lt_length_of_entry h

/-- A node is kept for good. -/
theorem KeptBy.of_follows (h : w.Follows v) : x.KeptBy v s key := by
  cases x with
  | object n => exact h.node (t := .objects) rfl hx
  | interface n => exact h.node (t := .interfaces) rfl hx
  | input n => exact h.node (t := .inputs) rfl hx

variable (hw : w.Coherent d)
include hw

/-- An access is answered from the table, or else by an evaluation in the open session. -/
theorem KeptBy.fields_eq : x.fields host =
    Compile.remember s x.table key (do Compile.requireOpen s; x.evaluate host s) := by
  cases x with
  | object n =>
    obtain ⟨hid, ⟨c, hcls, -⟩, -⟩ := hw.entries (t := .objects) hx
    rw [fields, evaluate, ObjectNode.fields, hid, hcls]
    rfl
  | interface n =>
    rw [fields, evaluate, InterfaceNode.fields, (hw.entries (t := .interfaces) hx).1]
    rfl
  | input n =>
    rw [fields, evaluate, InputNode.fields, (hw.entries (t := .inputs) hx).1]
    rfl

/-- An access may be made in a run. -/
theorem KeptBy.request : w.Request d host (x.fields host) := by
  cases x with
  | object n =>
    exact .objectFields (hw.offers_of_entry (t := .objects) hx _ (List.mem_singleton_self _))
  | interface n =>
    exact .interfaceFields (hw.offers_of_entry (t := .interfaces) hx _ (List.mem_singleton_self _))
  | input n =>
    exact .inputFields (hw.offers_of_entry (t := .inputs) hx _ (List.mem_singleton_self _))

/-- What the workspace answers for the fields is what an access gives. -/
theorem KeptBy.of_answers {map : x.table.Value} (h : w.Answers d host s x.table key map) :
    ((x.fields host).runIn w).1 = .ok map := by
  cases x with
  | object n =>
    obtain ⟨hid, ⟨c, hcls, hc, rfl⟩, -⟩ := hw.entries (t := .objects) hx
    exact h c n hc rfl hid hcls (congrArg Prod.fst (Compile.runIn_remember_of_entry hx))
  | interface n =>
    obtain ⟨hid, ⟨hc, rfl⟩, -⟩ := hw.entries (t := .interfaces) hx
    exact h n.cls n hc rfl hid rfl (congrArg Prod.fst (Compile.runIn_remember_of_entry hx))
  | input n =>
    obtain ⟨hid, ⟨hc, rfl⟩, -⟩ := hw.entries (t := .inputs) hx
    exact h n.cls n hc rfl hid rfl (congrArg Prod.fst (Compile.runIn_remember_of_entry hx))

/-! ## One access -/

theorem KeptBy.runIn_fields_of_entry {map : x.table.Value}
    (h : w.entry s x.table key = some map) : (x.fields host).runIn w = (.ok map, w) := by
  rw [hx.fields_eq hw, Compile.runIn_remember_of_entry h]

theorem KeptBy.runIn_fields_of_closed (hnone : w.entry s x.table key = none)
    (hs : w.isOpen s = false) : (x.fields host).runIn w = (.error .sessionDropped, w) := by
  rw [hx.fields_eq hw, Compile.runIn_remember_of_closed hnone hs]

theorem KeptBy.runIn_fields_of_none (hnone : w.entry s x.table key = none) :
    ((x.fields host).runIn w).1 =
      if w.isOpen s then ((x.evaluate host s).runIn w).1 else .error .sessionDropped := by
  split
  · rename_i hs
    rw [hx.fields_eq hw, Compile.runIn_remember_open hnone hs]
  · rename_i hs
    rw [hx.runIn_fields_of_closed hw hnone (Bool.eq_false_iff.2 hs)]

/-- Fields that are not there are given by an open session only. -/
theorem KeptBy.isOpen_of_ok (hnone : w.entry s x.table key = none) {map : x.table.Value}
    (h : ((x.fields host).runIn w).1 = .ok map) : w.isOpen s = true := by
  rw [hx.runIn_fields_of_none hw hnone] at h
  by_contra hs
  rw [if_neg hs] at h
  cases h

theorem KeptBy.filled : w.Filled d host ((x.fields host).runIn w).2 := by
  have hrequest : w.Request d host (x.fields host) := hx.request hw
  obtain ⟨nodes, hsettles⟩ := hrequest.settles hw
  exact hsettles.filled (.refl hw)

/-- What has been given is kept. -/
theorem KeptBy.entry_of_ok {map : x.table.Value} (h : (x.fields host).runIn w = (.ok map, w')) :
    w'.entry s x.table key = some map := by
  have hgrows : w.Grows ((x.fields host).runIn w).2 := (hx.filled hw).grows
  rw [h] at hgrows
  rw [hx.fields_eq hw] at h
  exact Compile.entry_of_runIn_remember h (hgrows.sessions_length ▸ hx.lt_length)

/-- **A failure is not kept.** -/
theorem KeptBy.entry_of_error {e : CompileError}
    (h : (x.fields host).runIn w = (.error e, w')) : w'.entry s x.table key = none := by
  by_contra hne
  obtain ⟨map, hmap⟩ := Option.ne_none_iff_exists'.1 hne
  have hfilled : w.Filled d host ((x.fields host).runIn w).2 := hx.filled hw
  rw [h] at hfilled
  have hok := hx.of_answers hw (hfilled.answered hmap)
  rw [h] at hok
  cases hok

end Kept

end LazyNode
end ApiGraph
