import ApiGraph.Proofs.Schema.Kept
import ApiGraph.Proofs.Schema.Reach

/-!
# The walk over the graph

The walk keeps a stack of nodes to visit and the visited ones by name.  The graph may be cyclic, so
what carries the argument is an invariant of these two (`Workspace.Walked`): everything in them is
reached, and whatever a visited node leads to is in one of them.  Once the stack is empty the
visited nodes are all there is.

The bound on the number of visits is never met.  Every visited node that leads to others has an
identity of its own, and there are only as many of these as the bound allows for.

## What is here

* `Workspace.Walked`: the invariant, with one lemma for each kind of visit.
* `Workspace.Blocked`: the reasons for which a walk fails.
* `visit_spec`: a walk keeps the invariant, or fails for one of these reasons.
* `collectTypes_spec`: the same for the whole walk.
-/

set_option autoImplicit false

namespace ApiGraph

open OrderedMap (values keys)

variable {σ : Type} {d : Declarations} {host : Host σ} {w₀ : Workspace σ} {start : List GraphNode}

namespace Workspace

/-- The invariant of a walk from some nodes: `w₀` is where it began, `w` is where it is. -/
structure Walked (d : Declarations) (host : Host σ) (w₀ : Workspace σ) (start : List GraphNode)
    (w : Workspace σ) (pending : List GraphNode) (seen : OrderedMap String GraphNode) : Prop where
  reached : ∀ n, n ∈ pending ∨ n ∈ values seen → w₀.Reaches host start n
  held : ∀ n, n ∈ pending ∨ n ∈ values seen → w.Holds d n
  started : ∀ n ∈ start, n ∈ pending ∨ n ∈ values seen
  named : ∀ e ∈ seen, e.1 = e.2.name
  distinct : (keys seen).Nodup
  expanded : ∀ n ∈ values seen, ∃ ms, ((n.successors host).runIn w₀).1 = .ok ms ∧
    ∀ m ∈ ms, m ∈ pending ∨ m ∈ values seen
  kept : ∀ n ∈ values seen, n.Kept w

/-- The reasons for which a walk from some nodes fails: two nodes of one name, or a node whose
successors cannot be told. -/
inductive Blocked (host : Host σ) (w₀ : Workspace σ) (start : List GraphNode) :
    CompileError → Prop
  | clash {a b : GraphNode} (ha : w₀.Reaches host start a) (hb : w₀.Reaches host start b)
    (hname : a.name = b.name) (hid : a.id ≠ b.id) :
    Blocked host w₀ start (.assembly (.duplicateTypeName b.name))
  | successors {n : GraphNode} {e : CompileError} (hn : w₀.Reaches host start n)
    (he : ((n.successors host).runIn w₀).1 = .error e) (hne : ∀ fault, e ≠ .assembly fault) :
    Blocked host w₀ start e

theorem Blocked.ne_unbounded {e : CompileError} (h : w₀.Blocked host start e) :
    e ≠ .assembly .unboundedGraph := by
  cases h with
  | clash => nofun
  | successors _ _ hne => exact hne _

namespace Walked

variable {w : Workspace σ} {node : GraphNode} {rest : List GraphNode}
  {seen : OrderedMap String GraphNode}

/-- A node that was visited before is passed over. -/
theorem pass (h : Walked d host w₀ start w (node :: rest) seen) (hnode : node ∈ values seen) :
    Walked d host w₀ start w rest seen where
  reached n hn := h.reached n (hn.imp_left (List.mem_cons_of_mem _))
  held n hn := h.held n (hn.imp_left (List.mem_cons_of_mem _))
  started n hn := by
    rcases h.started n hn with hn | hn
    · rcases List.mem_cons.1 hn with rfl | hn
      · exact .inr hnode
      · exact .inl hn
    · exact .inr hn
  named := h.named
  distinct := h.distinct
  expanded n hn := by
    obtain ⟨ms, hms, hm⟩ := h.expanded n hn
    refine ⟨ms, hms, fun m hm' ↦ ?_⟩
    rcases hm m hm' with hm | hm
    · rcases List.mem_cons.1 hm with rfl | hm
      · exact .inr hnode
      · exact .inl hm
    · exact .inr hm
  kept := h.kept

/-- A node of a new name is visited, and what it leads to is put on the stack. -/
theorem expand {w' : Workspace σ} {found : List GraphNode}
    (h : Walked d host w₀ start w (node :: rest) seen)
    (hnew : OrderedMap.find seen node.name = none) (hg : w.Grows w')
    (hfound : ((node.successors host).runIn w₀).1 = .ok found)
    (hreached : ∀ m ∈ found, w₀.Reaches host start m) (hheld : ∀ m ∈ found, w'.Holds d m)
    (hkept : node.Kept w') :
    Walked d host w₀ start w' (found.reverse ++ rest) (OrderedMap.put seen node.name node) := by
  have hput := OrderedMap.put_eq_append hnew node
  have hvalues : ∀ n, n ∈ values (OrderedMap.put seen node.name node) ↔
      n ∈ values seen ∨ n = node := by
    intro n
    simp only [hput, values, List.map_append, List.mem_append, List.map_cons, List.map_nil,
      List.mem_singleton]
  have hpending : ∀ n, n ∈ found.reverse ++ rest ↔ n ∈ found ∨ n ∈ rest := by
    intro n
    rw [List.mem_append, List.mem_reverse]
  have hmoved : ∀ n, n ∈ node :: rest ∨ n ∈ values seen →
      n ∈ found.reverse ++ rest ∨ n ∈ values (OrderedMap.put seen node.name node) := by
    intro n hn
    rw [hvalues, hpending]
    rcases hn with hn | hn
    · rcases List.mem_cons.1 hn with rfl | hn
      · exact .inr (.inr rfl)
      · exact .inl (.inr hn)
    · exact .inr (.inl hn)
  refine ⟨fun n hn ↦ ?_, fun n hn ↦ ?_, fun n hn ↦ hmoved n (h.started n hn), fun e he ↦ ?_,
    OrderedMap.nodup_keys_put h.distinct _ _, fun n hn ↦ ?_, fun n hn ↦ ?_⟩
  · rw [hvalues, hpending] at hn
    rcases hn with (hn | hn) | (hn | rfl)
    · exact hreached n hn
    · exact h.reached n (.inl (List.mem_cons_of_mem _ hn))
    · exact h.reached n (.inr hn)
    · exact h.reached n (.inl List.mem_cons_self)
  · rw [hvalues, hpending] at hn
    rcases hn with (hn | hn) | (hn | rfl)
    · exact hheld n hn
    · exact (h.held n (.inl (List.mem_cons_of_mem _ hn))).mono hg
    · exact (h.held n (.inr hn)).mono hg
    · exact (h.held n (.inl List.mem_cons_self)).mono hg
  · rcases OrderedMap.mem_put he with rfl | he
    · rfl
    · exact h.named e he
  · rcases (hvalues n).1 hn with hn | rfl
    · obtain ⟨ms, hms, hm⟩ := h.expanded n hn
      exact ⟨ms, hms, fun m hm' ↦ hmoved m (hm m hm')⟩
    · exact ⟨found, hfound, fun m hm ↦ .inl ((hpending m).2 (.inl hm))⟩
  · rcases (hvalues n).1 hn with hn | rfl
    · exact (h.kept n hn).mono hg
    · exact hkept

theorem map_name {pending : List GraphNode} (h : Walked d host w₀ start w pending seen) :
    (values seen).map GraphNode.name = keys seen := by
  rw [values, keys, List.map_map]
  exact List.map_congr_left fun e he ↦ (h.named e he).symm

/-- The visited nodes have names of their own, and so has a node of a new name. -/
theorem nodup_names (h : Walked d host w₀ start w (node :: rest) seen)
    (hnew : OrderedMap.find seen node.name = none) :
    ((node :: values seen).map GraphNode.name).Nodup := by
  rw [List.map_cons, h.map_name]
  exact List.nodup_cons.2 ⟨OrderedMap.find_eq_none_iff.1 hnew, h.distinct⟩

/-- As long as there is a node to visit that leads to others, there is room for it. -/
theorem room (h : Walked d host w₀ start w (node :: rest) seen) (hw : w.Coherent d)
    (hg : w₀.Grows w) (hnew : OrderedMap.find seen node.name = none)
    (hc : node.isComposite = true) :
    (values seen).countP GraphNode.isComposite < w₀.typeCount := by
  have hheld : ∀ n ∈ node :: values seen, w.Holds d n := by
    intro n hn
    rcases List.mem_cons.1 hn with rfl | hn
    · exact h.held n (.inl List.mem_cons_self)
    · exact h.held n (.inr hn)
  -- nodes of different names have different identities
  have hids : ((node :: values seen).map GraphNode.id).Nodup := by
    have hnames := h.nodup_names hnew
    rw [List.Nodup, List.pairwise_map] at hnames ⊢
    refine hnames.imp_of_mem fun ha hb hne hid ↦ hne ?_
    rw [hw.eq_of_id_eq (hheld _ ha) (hheld _ hb) hid]
  have hsub : ((node :: values seen).filter GraphNode.isComposite).map GraphNode.id ⊆
      w.compositeIds := by
    intro id hid
    obtain ⟨n, hn, rfl⟩ := List.mem_map.1 hid
    obtain ⟨hn, hcn⟩ := List.mem_filter.1 hn
    exact hw.mem_compositeIds (hheld n hn) hcn
  have hle := List.Nodup.length_le_of_subset
    (hids.sublist (List.filter_sublist.map GraphNode.id)) hsub
  rw [length_compositeIds, hg.typeCount, List.length_map, ← List.countP_eq_length_filter,
    List.countP_cons, if_pos hc] at hle
  exact hle

end Walked

end Workspace

/-! ## One visit -/

section Visit

variable {left : Nat} {node known : GraphNode} {rest : List GraphNode}
  {seen : OrderedMap String GraphNode}

theorem visit_of_same (hfind : OrderedMap.find seen node.name = some known)
    (hsame : known.same node = true) :
    visit host left (node :: rest) seen = visit host left rest seen := by
  rw [visit, hfind]
  exact if_pos hsame

theorem visit_of_clash (hfind : OrderedMap.find seen node.name = some known)
    (hsame : ¬known.same node = true) :
    visit host left (node :: rest) seen =
      throw (.assembly (.duplicateTypeName node.name)) := by
  rw [visit, hfind]
  exact if_neg hsame

theorem visit_of_unbounded (hnew : OrderedMap.find seen node.name = none)
    (hc : node.isComposite = true) :
    visit host 0 (node :: rest) seen = throw (.assembly .unboundedGraph) := by
  rw [visit, hnew]
  exact if_pos hc

theorem visit_of_composite (hnew : OrderedMap.find seen node.name = none)
    (hc : node.isComposite = true) :
    visit host (left + 1) (node :: rest) seen = (do
      let found ← node.successors host
      visit host left (found.reverse ++ rest) (OrderedMap.put seen node.name node)) := by
  rw [visit, hnew]
  exact if_pos hc

theorem visit_of_leaf (hnew : OrderedMap.find seen node.name = none)
    (hc : ¬node.isComposite = true) :
    visit host left (node :: rest) seen =
      visit host left rest (OrderedMap.put seen node.name node) := by
  rw [visit, hnew]
  exact if_neg hc

end Visit

/-- A node of a new name is one more of the visited nodes, and counts if it leads to others. -/
theorem countP_values_put {seen : OrderedMap String GraphNode} {node : GraphNode}
    (hnew : OrderedMap.find seen node.name = none) :
    (values (OrderedMap.put seen node.name node)).countP GraphNode.isComposite =
      (values seen).countP GraphNode.isComposite + if node.isComposite = true then 1 else 0 := by
  simp only [OrderedMap.put_eq_append hnew, values, List.map_append, List.countP_append,
    List.map_cons, List.map_nil, List.countP_cons, List.countP_nil, Nat.zero_add]

/-- A node of a new name whose successors are told is visited by that; if they cannot be told, that
is the reason for which the walk fails. -/
theorem Workspace.Walked.successors {w : Workspace σ} {node : GraphNode} {rest : List GraphNode}
    {seen : OrderedMap String GraphNode} (hw₀ : w₀.Coherent d) (hw : w₀.Filled d host w)
    (hI : w₀.Walked d host start w (node :: rest) seen)
    (hnew : OrderedMap.find seen node.name = none) :
    w₀.Filled d host ((node.successors host).runIn w).2 ∧
      (∀ found, ((node.successors host).runIn w).1 = .ok found →
        w₀.Walked d host start ((node.successors host).runIn w).2 (found.reverse ++ rest)
          (OrderedMap.put seen node.name node)) ∧
      ∀ e, ((node.successors host).runIn w).1 = .error e → w₀.Blocked host start e := by
  have hheld := hI.held node (.inl List.mem_cons_self)
  have hreached := hI.reached node (.inl List.mem_cons_self)
  have hsettles := GraphNode.successors_settles hw₀ hw hheld
  have hbase := hsettles.runIn_eq (.refl hw₀) hw
  refine ⟨hsettles.filled hw, fun found h ↦ ?_, fun e h ↦ ?_⟩
  · have hoffers := hsettles.offers hw (hw.coherent.offers_parts hheld) h
    have hfound := hbase.symm.trans h
    exact hI.expand hnew (hsettles.grows hw) hfound
      (fun m hm ↦ hreached.tail ((GraphNode.mem_successors_iff hw₀ hw hheld hfound).1 hm))
      (fun m hm ↦ (hoffers m hm).1)
      (GraphNode.kept_of_successors hw₀ hw hheld (Prod.ext h rfl))
  · exact .successors hreached (hbase.symm.trans h) (hsettles.error_ne hw h)

/-- **A walk keeps the invariant, or fails for a reason.**  The bound on its visits is never met. -/
theorem visit_spec (hw₀ : w₀.Coherent d) (left : Nat) (pending : List GraphNode)
    (seen : OrderedMap String GraphNode) {w : Workspace σ} (hw : w₀.Filled d host w)
    (hI : w₀.Walked d host start w pending seen)
    (hleft : w₀.typeCount ≤ left + (values seen).countP GraphNode.isComposite) :
    w₀.Filled d host ((visit host left pending seen).runIn w).2 ∧
      (∀ seen', ((visit host left pending seen).runIn w).1 = .ok seen' →
        w₀.Walked d host start ((visit host left pending seen).runIn w).2 [] seen') ∧
      ∀ e, ((visit host left pending seen).runIn w).1 = .error e → w₀.Blocked host start e := by
  induction left, pending, seen using visit.induct generalizing w with
  | case1 left seen =>
    rw [visit]
    exact ⟨hw, fun seen' h ↦ Except.ok.inj h ▸ hI, by rintro e ⟨⟩⟩
  | case2 left seen node rest known hfind hsame ih =>
    have hknown := OrderedMap.mem_values_of_find hfind
    have hnode : known = node := hw.coherent.eq_of_id_eq (hI.held known (.inr hknown))
      (hI.held node (.inl List.mem_cons_self)) (beq_iff_eq.1 hsame)
    rw [visit_of_same hfind hsame]
    exact ih hw (hI.pass (hnode ▸ hknown)) hleft
  | case3 left seen node rest known hfind hsame =>
    have hname : node.name = known.name := hI.named _ (OrderedMap.mem_of_find hfind)
    rw [visit_of_clash hfind hsame]
    refine ⟨hw, by rintro seen' ⟨⟩, fun e he ↦ ?_⟩
    cases he
    exact .clash (hI.reached known (.inr (OrderedMap.mem_values_of_find hfind)))
      (hI.reached node (.inl List.mem_cons_self)) hname.symm fun hid ↦ hsame (beq_iff_eq.2 hid)
  | case4 seen node rest hnew hc =>
    have hroom := hI.room hw.coherent hw.grows hnew hc
    omega
  | case5 seen node rest hnew _ hc left =>
    rename_i ih
    obtain ⟨hfilled, hnext, hblocked⟩ := hI.successors hw₀ hw hnew
    rw [visit_of_composite hnew hc]
    rcases hrun : (node.successors host).runIn w with ⟨e | found, w₁⟩
    · rw [Compile.runIn_bind_of_error hrun]
      rw [hrun] at hfilled hblocked
      refine ⟨hfilled, by rintro seen' ⟨⟩, fun e' he ↦ ?_⟩
      cases he
      exact hblocked e rfl
    · rw [Compile.runIn_bind_of_ok hrun]
      rw [hrun] at hfilled hnext
      refine ih found hfilled (hnext found rfl) ?_
      rw [countP_values_put hnew, if_pos hc]
      omega
  | case6 left seen node rest hnew _ hc =>
    rename_i ih
    have hsuccessors : node.successors host = pure [] := by
      cases node with
      | enum n | scalar n => rfl
      | object n | input n | union n | interface n => exact absurd rfl hc
    obtain ⟨-, hnext, -⟩ := hI.successors hw₀ hw hnew
    rw [hsuccessors] at hnext
    rw [visit_of_leaf hnew hc]
    refine ih hw (hnext [] rfl) ?_
    rw [countP_values_put hnew, if_neg hc]
    exact hleft

/-! ## The whole walk -/

/-- Once the stack is empty, the visited nodes are all that is reached. -/
theorem Workspace.Walked.complete {w : Workspace σ} {seen : OrderedMap String GraphNode}
    (hw₀ : w₀.Coherent d) (hw : w₀.Filled d host w) (h : w₀.Walked d host start w [] seen)
    {n : GraphNode} : n ∈ values seen ↔ w₀.Reaches host start n := by
  refine ⟨fun hn ↦ h.reached n (.inr hn), ?_⟩
  rintro ⟨r, hr, hn⟩
  induction hn with
  | refl => exact (h.started r hr).resolve_left List.not_mem_nil
  | tail _ hleads ih =>
    obtain ⟨ms, hms, hm⟩ := h.expanded _ ih
    have hmem := (GraphNode.mem_successors_iff hw₀ hw (h.held _ (.inr ih)) hms).2 hleads
    exact (hm _ hmem).resolve_left List.not_mem_nil

/-- What the walk from some nodes finds are the nodes that it has visited. -/
theorem runIn_collectTypes (start : List GraphNode) (w : Workspace σ) :
    (collectTypes host start).runIn w =
      (((visit host w.typeCount start.reverse []).runIn w).1.map values,
        ((visit host w.typeCount start.reverse []).runIn w).2) := by
  rw [← Compile.runIn_map, collectTypes, Compile.runIn_get_bind, ← bind_pure_comp]

/-- What the walk from some nodes finds is what they reach, each node once and no two of one name;
and if it fails, it is for a reason. -/
theorem collectTypes_spec (hw₀ : w₀.Coherent d) (hstart : ∀ n ∈ start, w₀.Holds d n) :
    w₀.Filled d host ((collectTypes host start).runIn w₀).2 ∧
      (∀ types, ((collectTypes host start).runIn w₀).1 = .ok types →
        (∀ n, n ∈ types ↔ w₀.Reaches host start n) ∧ (types.map GraphNode.name).Nodup ∧
          ∀ n ∈ types, ((collectTypes host start).runIn w₀).2.Holds d n ∧
            n.Kept ((collectTypes host start).runIn w₀).2) ∧
      ∀ e, ((collectTypes host start).runIn w₀).1 = .error e → w₀.Blocked host start e := by
  have hI : w₀.Walked d host start w₀ start.reverse [] :=
    { reached := fun n hn ↦ .of_mem (by simpa [values] using hn)
      held := fun n hn ↦ hstart n (by simpa [values] using hn)
      started := fun n hn ↦ .inl (List.mem_reverse.2 hn)
      named := List.forall_mem_nil _
      distinct := List.nodup_nil
      expanded := List.forall_mem_nil _
      kept := List.forall_mem_nil _ }
  obtain ⟨hfilled, hok, herr⟩ :=
    visit_spec hw₀ w₀.typeCount start.reverse [] (.refl hw₀) hI (Nat.le_add_right _ _)
  rw [runIn_collectTypes]
  refine ⟨hfilled, fun types h ↦ ?_, fun e h ↦ herr e ?_⟩
  · cases hv : ((visit host w₀.typeCount start.reverse []).runIn w₀).1 with
    | error e => rw [hv] at h; cases h
    | ok seen =>
      rw [hv] at h
      cases h
      have hI := hok seen hv
      exact ⟨fun n ↦ hI.complete hw₀ hfilled, hI.map_name ▸ hI.distinct, fun n hn ↦
        ⟨hI.held n (.inr hn), hI.kept n hn⟩⟩
  · cases hv : ((visit host w₀.typeCount start.reverse []).runIn w₀).1 with
    | error e' => rw [hv] at h; cases h; rfl
    | ok seen => rw [hv] at h; cases h

end ApiGraph
