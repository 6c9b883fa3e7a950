import ApiGraph.Proofs.Compile.Aged
import ApiGraph.Proofs.Schema.Assembly

/-!
# The same schema once more

A schema that is compiled again has roots of its own, under a serial number of its own.  Everything
else in it is what it was: the walk visits the same nodes in the same order, since what it asks for
does not age.  So the walk that begins at the new roots is the walk that began at the old ones with
the serial number replaced.

The two walks are given different bounds, since there are more roots in the later workspace.  That
makes no difference because neither bound is ever met.

## What is here

* `NodeId.renumber`, `GraphNode.renumber` and their like: another serial number in place of one.
* `Counterpart`: a node of the first walk whose like in the second walk leads to the same nodes.
* `visit_renumber` and `collectTypes_renumber`: the second walk is the first one renumbered.
-/

set_option autoImplicit false

namespace ApiGraph

open OrderedMap (find find_mapValues mem_values_of_find put_mapValues values)

open Compile (Parallel)

variable {σ : Type} {d : Declarations} {host : Host σ} {w₀ w v : Workspace σ} {k k' : Nat}

/-! ## Another serial number -/

/-- The identity of a root under another serial number. -/
def NodeId.renumber (k k' : Nat) : NodeId → NodeId
  | .root serial operation => .root (if serial = k then k' else serial) operation
  | id => id

/-- An object type under another serial number, if it is a root. -/
def ObjectNode.renumber (k k' : Nat) (n : ObjectNode) : ObjectNode :=
  { n with id := n.id.renumber k k' }

/-- A node under another serial number, if it is a root. -/
def GraphNode.renumber (k k' : Nat) : GraphNode → GraphNode
  | .object n => .object (n.renumber k k')
  | n => n

@[simp] theorem GraphNode.name_renumber (n : GraphNode) : (n.renumber k k').name = n.name := by
  cases n <;> rfl

@[simp] theorem GraphNode.isComposite_renumber (n : GraphNode) :
    (n.renumber k k').isComposite = n.isComposite := by
  cases n <;> rfl

/-! ## Nodes and their counterparts -/

/-- A node of a walk in a workspace that has some roots, whose like under the serial number `k'` is
found in a workspace with other roots: it has been attained without them, or both are roots and
have the same fields. -/
inductive Counterpart (d : Declarations) (host : Host σ) (w₀ : Workspace σ)
    (a b : OrderedMap (Nat × Operation) (ObjectNode × FieldMap)) (k' : Nat) : GraphNode → Prop
  | attained {n : GraphNode} (hn : w₀.Attains d host n) : Counterpart d host w₀ a b k' n
  | root {operation : Operation} {name : String} {m m' : ObjectNode} {fields : FieldMap}
    (ha : find a (w₀.nextSchema, operation) = some (m, fields))
    (hb : find b (k', operation) = some (m', fields))
    (hf : ∀ n ∈ FieldMap.nodes fields, w₀.Attains d host n) :
    Counterpart d host w₀ a b k' (.object (rootNode w₀.nextSchema operation name))

theorem Workspace.Attains.renumber_eq {n : GraphNode} (hn : w₀.Attains d host n) :
    n.renumber w₀.nextSchema k' = n := by
  have hid : n.id.renumber w₀.nextSchema k' = n.id := by
    cases h : n.id with
    | native | custom | compiled => rfl
    | root serial operation =>
      rw [NodeId.renumber, if_neg (Nat.ne_of_lt (hn.root_lt h))]
  cases n with
  | object n =>
    rw [GraphNode.id] at hid
    rw [GraphNode.renumber, ObjectNode.renumber, hid]
  | scalar | input | enum | union | interface => rfl

/-- Nodes that have been attained stay as they are. -/
theorem map_renumber_eq_self {ns : List GraphNode} (hns : ∀ n ∈ ns, w₀.Attains d host n) :
    ns.map (·.renumber w₀.nextSchema k') = ns :=
  (List.map_congr_left fun n hn ↦ (hns n hn).renumber_eq).trans (List.map_id' ns)

/-- A counterpart has the name of its node, and so the place of its node among the visited ones. -/
theorem find_renumber (k k' : Nat) {seen : OrderedMap String GraphNode} {n : GraphNode}
    {known : Option GraphNode} (h : find seen n.name = known) :
    find (seen.mapValues (·.renumber k k')) (n.renumber k k').name =
      known.map (·.renumber k k') := by
  rw [GraphNode.name_renumber, find_mapValues, h]

theorem renumber_rootNode (operation : Operation) (name : String) :
    (rootNode k operation name).renumber k k' = rootNode k' operation name := by
  simp [ObjectNode.renumber, rootNode, NodeId.renumber]

namespace Counterpart

variable {a b : OrderedMap (Nat × Operation) (ObjectNode × FieldMap)} {n m : GraphNode}

/-- Two nodes are the same exactly if their counterparts are. -/
theorem same_renumber (hk : w₀.nextSchema ≤ k') (hn : Counterpart d host w₀ a b k' n)
    (hm : Counterpart d host w₀ a b k' m) :
    (n.renumber w₀.nextSchema k').same (m.renumber w₀.nextSchema k') = n.same m := by
  have hnew {n : GraphNode} (hn : w₀.Attains d host n) {j : Nat} (hj : w₀.nextSchema ≤ j)
      (operation : Operation) (name : String) :
      n.same (.object (rootNode j operation name)) = false ∧
        (GraphNode.object (rootNode j operation name)).same n = false := by
    have hne : n.id ≠ .root j operation := fun hid ↦ Nat.not_lt.2 hj (hn.root_lt hid)
    exact ⟨beq_eq_false_iff_ne.2 hne, beq_eq_false_iff_ne.2 hne.symm⟩
  cases hn with
  | attained hn =>
    cases hm with
    | attained hm => rw [hn.renumber_eq, hm.renumber_eq]
    | @root operation name =>
      rw [hn.renumber_eq, GraphNode.renumber, renumber_rootNode, (hnew hn hk operation name).1,
        (hnew hn (Nat.le_refl _) operation name).1]
  | @root operation name =>
    cases hm with
    | attained hm =>
      rw [hm.renumber_eq, GraphNode.renumber, renumber_rootNode, (hnew hm hk operation name).2,
        (hnew hm (Nat.le_refl _) operation name).2]
    | root =>
      rw [GraphNode.renumber, GraphNode.renumber, renumber_rootNode, renumber_rootNode]
      simp [GraphNode.same, GraphNode.id, rootNode]

/-- The same nodes are found from a node and from its counterpart. -/
theorem successors (hw₀ : w₀.Coherent d) (hw : w₀.Aged d host w) (hv : w₀.Aged d host v)
    (ha : w.roots = a) (hb : v.roots = b) (hn : Counterpart d host w₀ a b k' n) :
    Parallel d host w₀ w v id
      (fun ms w' v' ↦ w'.bare = w.bare ∧ v'.bare = v.bare ∧ ∀ m ∈ ms, w₀.Attains d host m)
      (n.successors host) ((n.renumber w₀.nextSchema k').successors host) := by
  cases hn with
  | attained hn =>
    rw [hn.renumber_eq]
    exact hn.successors hw₀ hw hv
  | @root operation name m m' fields hfa hfb hf =>
    have hkept : (rootNode w₀.nextSchema operation name).Kept w fields :=
      .inr ⟨_, _, m, rfl, ha ▸ hfa⟩
    have hkept' : (rootNode k' operation name).Kept v fields := .inr ⟨_, _, m', rfl, hb ▸ hfb⟩
    have hsuccessors {r : ObjectNode} {u : Workspace σ} (h : r.Kept u fields)
        (hr : r.interfaces = []) :
        ((GraphNode.object r).successors host).runIn u = (.ok (FieldMap.nodes fields), u) := by
      rw [GraphNode.successors, Compile.runIn_bind_of_ok (ObjectNode.runIn_fields_of_kept h), hr,
        List.map_nil, List.append_nil]
      rfl
    rw [GraphNode.renumber, renumber_rootNode]
    exact .of_ok (hsuccessors hkept rfl) (hsuccessors hkept' rfl) hw hv ⟨rfl, rfl, hf⟩

/-- A node that has been visited joins those visited before. -/
theorem put {seen : OrderedMap String GraphNode} (hn : Counterpart d host w₀ a b k' n)
    (hseen : ∀ m ∈ values seen, Counterpart d host w₀ a b k' m) :
    ∀ m ∈ values (OrderedMap.put seen n.name n), Counterpart d host w₀ a b k' m := by
  intro m hm
  rcases OrderedMap.mem_values_put hm with rfl | hm
  · exact hn
  · exact hseen m hm

/-- What a visited node leads to is put on the stack, in both walks alike. -/
theorem push {found rest : List GraphNode} (hfound : ∀ m ∈ found, w₀.Attains d host m)
    (hrest : ∀ m ∈ rest, Counterpart d host w₀ a b k' m) :
    found.reverse ++ rest.map (·.renumber w₀.nextSchema k') =
        (found.reverse ++ rest).map (·.renumber w₀.nextSchema k') ∧
      ∀ m ∈ found.reverse ++ rest, Counterpart d host w₀ a b k' m := by
  refine ⟨?_, fun m hm ↦ ?_⟩
  · rw [List.map_append, List.map_reverse, map_renumber_eq_self hfound]
  · rcases List.mem_append.1 hm with hm | hm
    · exact .attained (hfound m (List.mem_reverse.1 hm))
    · exact hrest m hm

end Counterpart

/-! ## Two walks side by side -/

section Walks

variable {a b : OrderedMap (Nat × Operation) (ObjectNode × FieldMap)} (hw₀ : w₀.Coherent d)
  (hk : w₀.nextSchema ≤ k')
include hw₀ hk

/-- **The second walk is the first one renumbered**, provided that neither runs out of visits. -/
theorem visit_renumber (left left' : Nat) (pending : List GraphNode)
    (seen : OrderedMap String GraphNode) {w v : Workspace σ} (hw : w₀.Aged d host w)
    (hv : w₀.Aged d host v) (ha : w.roots = a) (hb : v.roots = b)
    (hpending : ∀ n ∈ pending, Counterpart d host w₀ a b k' n)
    (hseen : ∀ n ∈ values seen, Counterpart d host w₀ a b k' n)
    (hne : ((visit host left pending seen).runIn w).1 ≠ .error (.assembly .unboundedGraph))
    (hne' : ((visit host left' (pending.map (·.renumber w₀.nextSchema k'))
      (seen.mapValues (·.renumber w₀.nextSchema k'))).runIn v).1 ≠
        .error (.assembly .unboundedGraph)) :
    Parallel d host w₀ w v (OrderedMap.mapValues (·.renumber w₀.nextSchema k'))
      (fun seen w' v' ↦ w'.roots = a ∧ v'.roots = b ∧
        ∀ n ∈ values seen, Counterpart d host w₀ a b k' n)
      (visit host left pending seen)
      (visit host left' (pending.map (·.renumber w₀.nextSchema k'))
        (seen.mapValues (·.renumber w₀.nextSchema k'))) := by
  -- on the recursion of the first walk; the second takes the same branch, on its own bound
  induction left, pending, seen using visit.induct generalizing left' w v with
  | case1 left seen =>
    rw [List.map_nil, visit, visit]
    exact .pure hw hv ⟨ha, hb, hseen⟩
  | case2 left seen node rest known hfind hsame ih =>
    have hfound := find_renumber w₀.nextSchema k' hfind
    have hsame' := (Counterpart.same_renumber hk (hseen known (mem_values_of_find hfind))
      (hpending node List.mem_cons_self)).trans hsame
    rw [visit_of_same hfind hsame] at hne ⊢
    rw [List.map_cons, visit_of_same hfound hsame'] at hne' ⊢
    exact ih left' hw hv ha hb (List.forall_mem_of_forall_mem_cons hpending) hseen hne hne'
  | case3 left seen node rest known hfind hsame =>
    have hfound := find_renumber w₀.nextSchema k' hfind
    have hsame' := (Counterpart.same_renumber hk (hseen known (mem_values_of_find hfind))
      (hpending node List.mem_cons_self)).trans (Bool.eq_false_iff.2 hsame)
    rw [visit_of_clash hfind hsame, List.map_cons,
      visit_of_clash hfound (Bool.eq_false_iff.1 hsame'), GraphNode.name_renumber]
    exact .throw hw hv _
  | case4 seen node rest hnew hc =>
    rw [visit_of_unbounded hnew hc] at hne
    exact absurd rfl hne
  | case5 seen node rest hnew _ hc left =>
    rename_i ih
    have hnew' := find_renumber w₀.nextSchema k' hnew
    have hc' : (node.renumber w₀.nextSchema k').isComposite = true :=
      node.isComposite_renumber.trans hc
    rw [visit_of_composite hnew hc] at hne ⊢
    cases left' with
    | zero =>
      rw [List.map_cons, visit_of_unbounded hnew' hc'] at hne'
      exact absurd rfl hne'
    | succ left' =>
      rw [List.map_cons, visit_of_composite hnew' hc'] at hne' ⊢
      obtain ⟨hnode, hrest⟩ := List.forall_mem_cons.1 hpending
      refine (hnode.successors hw₀ hw hv ha hb).bind fun found w' v' hx hy hw' hv' hgood ↦ ?_
      obtain ⟨hbw, hbv, hfound⟩ := hgood
      obtain ⟨hpush, hpushed⟩ := Counterpart.push hfound hrest
      rw [Compile.runIn_bind_of_ok hx] at hne
      rw [Compile.runIn_bind_of_ok hy] at hne'
      rw [id, hpush, GraphNode.name_renumber, put_mapValues] at hne' ⊢
      exact ih found left' hw' hv' ((Workspace.roots_of_bare hbw).trans ha)
        ((Workspace.roots_of_bare hbv).trans hb) hpushed (hnode.put hseen) hne hne'
  | case6 left seen node rest hnew _ hc =>
    rename_i ih
    have hnew' := find_renumber w₀.nextSchema k' hnew
    have hc' : ¬(node.renumber w₀.nextSchema k').isComposite = true := by
      rwa [node.isComposite_renumber]
    obtain ⟨hnode, hrest⟩ := List.forall_mem_cons.1 hpending
    rw [visit_of_leaf hnew hc] at hne ⊢
    rw [List.map_cons, visit_of_leaf hnew' hc', GraphNode.name_renumber, put_mapValues] at hne' ⊢
    exact ih left' hw hv ha hb hrest (hnode.put hseen) hne hne'

/-- The types that are found from other roots are those found before, renumbered. -/
theorem collectTypes_renumber {start : List GraphNode} (hw : w₀.Aged d host w)
    (hv : w₀.Aged d host v) (hcw : w.Coherent d) (hcv : v.Coherent d)
    (hstart : ∀ n ∈ start, Counterpart d host w₀ w.roots v.roots k' n)
    (hheld : ∀ n ∈ start, w.Holds d n)
    (hheld' : ∀ n ∈ start, v.Holds d (n.renumber w₀.nextSchema k')) :
    Parallel d host w₀ w v (List.map (·.renumber w₀.nextSchema k'))
      (fun types w' v' ↦ w'.roots = w.roots ∧ v'.roots = v.roots ∧
        ∀ n ∈ types, Counterpart d host w₀ w.roots v.roots k' n)
      (collectTypes host start) (collectTypes host (start.map (·.renumber w₀.nextSchema k'))) := by
  have hne {start : List GraphNode} {u : Workspace σ} (hu : u.Coherent d)
      (hheld : ∀ n ∈ start, u.Holds d n) :
      ((visit host u.typeCount start.reverse []).runIn u).1 ≠
        .error (.assembly .unboundedGraph) := by
    intro h
    have herr : ((collectTypes host start).runIn u).1 = .error (.assembly .unboundedGraph) := by
      rw [runIn_collectTypes, h]
      rfl
    exact ((collectTypes_spec hu hheld).2.2 _ herr).ne_unbounded rfl
  have hheld' : ∀ n ∈ start.map (·.renumber w₀.nextSchema k'), v.Holds d n := by
    simpa using hheld'
  refine .get ?_
  rw [← List.map_reverse]
  refine (visit_renumber hw₀ hk w.typeCount v.typeCount start.reverse [] hw hv rfl rfl
    (fun n hn ↦ hstart n (List.mem_reverse.1 hn)) (List.forall_mem_nil _) (hne hcw hheld) ?_).bind
      fun seen w' v' _ _ hw' hv' h ↦ ?_
  · rw [List.map_reverse]
    exact hne hcv hheld'
  · rw [OrderedMap.values_mapValues]
    exact .pure hw' hv' h

end Walks
end ApiGraph
