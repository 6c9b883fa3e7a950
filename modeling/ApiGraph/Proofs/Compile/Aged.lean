import ApiGraph.Proofs.Compile.Respects

/-!
# What has become of a workspace

A workspace that has been filled with its own answers has all its schemas still to come.  Once a
schema has been compiled there are roots and owners that were not there before, but compiling does
not look at these.  So a workspace that has been asked for nodes, fields and schemas, with whatever
success, still comes to the same outcomes as the one that it has come of.

## What is here

* `Workspace.Kin`: two workspaces that agree in all that compiling looks at, tables aside.
* `Workspace.Aged`: a workspace with the tables of one that is filled.
* `Workspace.Attains`: a node that is offered once it has been asked for.
* `Compile.Settles.aged`: what settles comes to the same in an aged workspace, and leaves one.
* `Compile.Parallel`: two computations side by side, in two aged workspaces.
* `ObjectNode.fields_aged` and its like for interfaces and inputs, and
  `Workspace.Attains.successors`: what is asked of a node does not age.
-/

set_option autoImplicit false

namespace ApiGraph

open Compile (Respects Settles)

variable {σ : Type} {d : Declarations} {host : Host σ} {w₀ w v : Workspace σ}

namespace Workspace

/-! ## Workspaces that agree, tables aside -/

/-- Two workspaces agree in all that compiling looks at, except that the second may have filled its
tables and completed more schemas. -/
structure Kin (w v : Workspace σ) : Prop where
  sessions : v.sessions.length = w.sessions.length
  registries : ∀ s, v.registries s = w.registries s
  isOpen : ∀ s, v.isOpen s = w.isOpen s
  config : ∀ s, (v.session s).config = (w.session s).config
  roots : ∀ {serial : Nat} {operation : Operation}, serial < w.nextSchema →
    OrderedMap.find v.roots (serial, operation) = OrderedMap.find w.roots (serial, operation)
  nextSchema : w.nextSchema ≤ v.nextSchema

theorem Kin.refl (w : Workspace σ) : w.Kin w :=
  ⟨rfl, fun _ ↦ rfl, fun _ ↦ rfl, fun _ ↦ rfl, fun _ ↦ rfl, Nat.le_refl _⟩

theorem Kin.of_bare {u : Workspace σ} (h : w.Kin v) (hu : u.bare = v.bare) : w.Kin u where
  sessions := (length_of_bare hu).trans h.sessions
  registries s := (registries_of_bare hu s).trans (h.registries s)
  isOpen s := (isOpen_of_bare hu s).trans (h.isOpen s)
  config s := (config_of_bare hu s).trans (h.config s)
  roots hs := (roots_of_bare hu).symm ▸ h.roots hs
  nextSchema := (nextSchema_of_bare hu).symm ▸ h.nextSchema

/-- One run beside another: each keeps everything but its tables, and the tables are the same. -/
structure Beside (w₀ w v u : Workspace σ) : Prop where
  left : v.bare = w₀.bare
  right : u.bare = w.bare
  cache : ∀ s, u.cache s = v.cache s

theorem Kin.congruence (h : w₀.Kin w) (s : SessionId) : Congruence s (w₀.Beside w) where
  registries hu := (registries_of_bare hu.right s).trans (h.registries s)
    |>.trans (registries_of_bare hu.left s).symm
  cache hu := hu.cache s
  isOpen hu := (isOpen_of_bare hu.right s).trans (h.isOpen s)
    |>.trans (isOpen_of_bare hu.left s).symm
  modifyCache {v u} hu f := by
    have hlength : u.sessions.length = v.sessions.length :=
      (length_of_bare hu.right).trans (h.sessions.trans (length_of_bare hu.left).symm)
    refine ⟨(bare_modifyCache v s f).trans hu.left, (bare_modifyCache u s f).trans hu.right,
      fun b ↦ ?_⟩
    rw [cache_modifyCache, cache_modifyCache, hlength, hu.cache]
  ofHost hu _ _ := ⟨hu.left, hu.right, hu.cache⟩

/-! ## Aged workspaces -/

/-- A workspace that has come of another one: its tables are those of a workspace that is filled
with the other's answers. -/
structure Aged (d : Declarations) (host : Host σ) (w₀ w : Workspace σ) : Prop where
  kin : w₀.Kin w
  tables : ∃ v, w₀.Filled d host v ∧ ∀ s, w.cache s = v.cache s

/-- A node that some filled workspace offers. -/
def Attains (d : Declarations) (host : Host σ) (w₀ : Workspace σ) (n : GraphNode) : Prop :=
  ∃ v, w₀.Filled d host v ∧ v.Offers d n

theorem Aged.refl (hw₀ : w₀.Coherent d) : w₀.Aged d host w₀ :=
  ⟨.refl w₀, w₀, .refl hw₀, fun _ ↦ rfl⟩

/-- Compiling looks at nothing in which aged workspaces may differ, tables aside. -/
theorem Aged.of_same (h : w₀.Aged d host w) (hkin : w₀.Kin v)
    (hcache : ∀ s, v.cache s = w.cache s) : w₀.Aged d host v := by
  obtain ⟨u, hu, htables⟩ := h.tables
  exact ⟨hkin, u, hu, fun s ↦ (hcache s).trans (htables s)⟩

theorem Aged.ofHost (h : w₀.Aged d host w) (state : σ) :
    w₀.Aged d host { w with host := state } :=
  h.of_same (h.kin.of_bare rfl) fun _ ↦ rfl

/-- What a table of an aged workspace keeps, the first one attains. -/
theorem Aged.attains_of_entry (h : w₀.Aged d host w) {s : SessionId} {t : CacheTable}
    {key : TypeKey} {x : t.Value} (hx : w.entry s t key = some x) :
    ∀ n ∈ t.nodes x, w₀.Attains d host n := by
  obtain ⟨v, hv, hcache⟩ := h.tables
  rw [entry, hcache] at hx
  exact fun n hn ↦ ⟨v, hv, hv.coherent.offers_of_entry hx n hn⟩

theorem Attains.root_lt {n : GraphNode} (h : w₀.Attains d host n) {serial : Nat}
    {operation : Operation} (hid : n.id = .root serial operation) : serial < w₀.nextSchema := by
  obtain ⟨v, hv, hn⟩ := h
  exact hv.grows.nextSchema ▸ hn.2 serial operation hid

/-- The roots of the schemas that were complete are still found. -/
theorem Aged.roots_beside (h : w₀.Aged d host w) {serial : Nat} {operation : Operation}
    (hs : serial < w₀.nextSchema) {v u : Workspace σ} (hu : w₀.Beside w v u) :
    OrderedMap.find u.roots (serial, operation) = OrderedMap.find v.roots (serial, operation) := by
  rw [roots_of_bare hu.right, roots_of_bare hu.left, h.kin.roots hs]

end Workspace

/-- **What settles does not age.**  In an aged workspace it comes to what it came to at first, and
it leaves an aged workspace. -/
theorem Compile.Settles.aged {α : Type} {x : Compile σ α} {given : List GraphNode}
    {nodes : α → List GraphNode} {good : α → Prop} (hx : Settles d host w₀ given x nodes good)
    (hw₀ : w₀.Coherent d) (hw : w₀.Aged d host w) (hr : Respects (w₀.Beside w) x) :
    (x.runIn w).1 = (x.runIn w₀).1 ∧ (x.runIn w).2.bare = w.bare ∧
      w₀.Aged d host (x.runIn w).2 := by
  obtain ⟨v, hv, hcache⟩ := hw.tables
  obtain ⟨hout, hbeside⟩ := hr v w ⟨hv.grows.bare, rfl, hcache⟩
  refine ⟨hout.trans (hx.runIn_eq (.refl hw₀) hv), hbeside.right, hw.kin.of_bare hbeside.right, ?_⟩
  exact ⟨_, hx.filled hv, hbeside.cache⟩

/-! ## Side by side -/

namespace Compile

variable {α β α' β' : Type}

/-- Two computations side by side, each in an aged workspace of its own.  The second comes to what
the first comes to, with a function applied to it; the workspaces are aged afterwards; and if both
have succeeded something more is known. -/
structure Parallel (d : Declarations) (host : Host σ) (w₀ w v : Workspace σ) (f : α → β)
    (good : α → Workspace σ → Workspace σ → Prop) (x : Compile σ α) (y : Compile σ β) : Prop where
  outcome : (y.runIn v).1 = (x.runIn w).1.map f
  left : w₀.Aged d host (x.runIn w).2
  right : w₀.Aged d host (y.runIn v).2
  good : ∀ a, (x.runIn w).1 = .ok a → good a (x.runIn w).2 (y.runIn v).2

namespace Parallel

variable {f : α → β} {f' : α' → β'} {good : α → Workspace σ → Workspace σ → Prop}
  {good' : α' → Workspace σ → Workspace σ → Prop}

variable {x : Compile σ α} {y : Compile σ β} {w' v' : Workspace σ}

theorem of_error {e : CompileError} (hx : x.runIn w = (.error e, w'))
    (hy : y.runIn v = (.error e, v')) (hw : w₀.Aged d host w') (hv : w₀.Aged d host v') :
    Parallel d host w₀ w v f good x y := by
  refine ⟨?_, hx ▸ hw, hy ▸ hv, fun a h ↦ ?_⟩
  · rw [hx, hy]
    rfl
  · rw [hx] at h
    cases h

theorem of_ok {a : α} (hx : x.runIn w = (.ok a, w')) (hy : y.runIn v = (.ok (f a), v'))
    (hw : w₀.Aged d host w') (hv : w₀.Aged d host v') (ha : good a w' v') :
    Parallel d host w₀ w v f good x y := by
  refine ⟨?_, hx ▸ hw, hy ▸ hv, fun b h ↦ ?_⟩
  · rw [hx, hy]
    rfl
  · rw [hx] at h
    cases h
    rwa [hx, hy]

/-- Both fail with the same error, or both succeed. -/
theorem error_or_ok (h : Parallel d host w₀ w v f good x y) :
    (∃ e w' v', x.runIn w = (.error e, w') ∧ y.runIn v = (.error e, v') ∧
      w₀.Aged d host w' ∧ w₀.Aged d host v') ∨
    ∃ a w' v', x.runIn w = (.ok a, w') ∧ y.runIn v = (.ok (f a), v') ∧
      w₀.Aged d host w' ∧ w₀.Aged d host v' ∧ good a w' v' := by
  obtain ⟨hout, hw, hv, hgood⟩ := h
  rcases hx : x.runIn w with ⟨e | a, w'⟩ <;> rcases hy : y.runIn v with ⟨r, v'⟩ <;>
    rw [hx, hy] at hgood hout <;> rw [hx] at hw <;> rw [hy] at hv <;> cases hout
  · exact .inl ⟨e, w', v', rfl, rfl, hw, hv⟩
  · exact .inr ⟨a, w', v', rfl, rfl, hw, hv, hgood a rfl⟩

theorem pure (hw : w₀.Aged d host w) (hv : w₀.Aged d host v) {a : α} (ha : good a w v) :
    Parallel d host w₀ w v f good (pure a) (pure (f a)) :=
  .of_ok rfl rfl hw hv ha

theorem throw (hw : w₀.Aged d host w) (hv : w₀.Aged d host v) (e : CompileError) :
    Parallel d host w₀ w v f good (throw e) (throw e) :=
  .of_error rfl rfl hw hv

theorem get {x : Workspace σ → Compile σ α} {y : Workspace σ → Compile σ β}
    (h : Parallel d host w₀ w v f good (x w) (y v)) :
    Parallel d host w₀ w v f good (get >>= x) (get >>= y) :=
  ⟨h.outcome, h.left, h.right, h.good⟩

theorem bind {g : α → Compile σ α'} {g' : β → Compile σ β'}
    (h : Parallel d host w₀ w v f good x y)
    (hg : ∀ a w' v', x.runIn w = (.ok a, w') → y.runIn v = (.ok (f a), v') →
      w₀.Aged d host w' → w₀.Aged d host v' → good a w' v' →
      Parallel d host w₀ w' v' f' good' (g a) (g' (f a))) :
    Parallel d host w₀ w v f' good' (x >>= g) (y >>= g') := by
  rcases h.error_or_ok with ⟨e, w', v', hx, hy, hw, hv⟩ | ⟨a, w', v', hx, hy, hw, hv, ha⟩
  · exact .of_error (runIn_bind_of_error hx) (runIn_bind_of_error hy) hw hv
  · obtain ⟨hout, hw, hv, hgood⟩ := hg a w' v' hx hy hw hv ha
    rw [← runIn_bind_of_ok (f := g) hx] at hout hw hgood
    rw [← runIn_bind_of_ok (f := g') hy] at hout hv hgood
    exact ⟨hout, hw, hv, hgood⟩

end Parallel

/-- What settles comes to the same in two aged workspaces, and what it refers to is attained. -/
theorem Settles.parallel {x : Compile σ α} {given : List GraphNode} {nodes : α → List GraphNode}
    {good : α → Prop} (hx : Settles d host w₀ given x nodes good) (hw₀ : w₀.Coherent d)
    {u : Workspace σ} (hu : w₀.Filled d host u) (hg : ∀ n ∈ given, u.Offers d n)
    (hw : w₀.Aged d host w) (hv : w₀.Aged d host v) (hr : Respects (w₀.Beside w) x)
    (hr' : Respects (w₀.Beside v) x) :
    Parallel d host w₀ w v id
      (fun a w' v' ↦ w'.bare = w.bare ∧ v'.bare = v.bare ∧ ∀ n ∈ nodes a, w₀.Attains d host n)
      x x := by
  obtain ⟨hout, hbare, haged⟩ := hx.aged hw₀ hw hr
  obtain ⟨hout', hbare', haged'⟩ := hx.aged hw₀ hv hr'
  refine ⟨?_, haged, haged', fun a ha ↦ ⟨hbare, hbare', fun n hn ↦ ?_⟩⟩
  · rw [hout', hout]
    cases (x.runIn w₀).1 <;> rfl
  · have hau : (x.runIn u).1 = .ok a := by rw [hx.runIn_eq (.refl hw₀) hu, ← hout, ha]
    exact ⟨_, hx.filled hu, hx.offers hu hg hau n hn⟩

end Compile

/-! ## The fields of a node -/

open Compile (Parallel)

section Graph

variable (hw₀ : w₀.Coherent d) (hw : w₀.Aged d host w)
include hw₀ hw

theorem ObjectNode.fields_aged {n : ObjectNode} (hn : w₀.Attains d host (.object n)) :
    ((n.fields host).runIn w).1 = ((n.fields host).runIn w₀).1 ∧
      w₀.Aged d host ((n.fields host).runIn w).2 := by
  have hrespects : Respects (w₀.Beside w) (n.fields host) :=
    ObjectNode.fields_respects hw.kin.congruence host fun hid _ _ ↦
      hw.roots_beside (hn.root_lt hid)
  obtain ⟨v, hv, hn⟩ := hn
  have hsettles : Settles d host w₀ [] _ _ := ObjectNode.fields_settles hw₀ hv hn.1
  exact (hsettles.aged hw₀ hw hrespects).imp_right And.right

theorem InterfaceNode.fields_aged {n : InterfaceNode} (hn : w₀.Attains d host (.interface n)) :
    ((n.fields host).runIn w).1 = ((n.fields host).runIn w₀).1 ∧
      w₀.Aged d host ((n.fields host).runIn w).2 := by
  obtain ⟨v, hv, hn⟩ := hn
  have hsettles : Settles d host w₀ [] _ _ := InterfaceNode.fields_settles hw₀ hv hn.1
  exact (hsettles.aged hw₀ hw (n.fields_respects hw.kin.congruence host)).imp_right And.right

theorem InterfaceNode.implementations_aged {n : InterfaceNode}
    (hn : w₀.Attains d host (.interface n)) :
    (n.implementations.runIn w).1 = (n.implementations.runIn w₀).1 ∧
      w₀.Aged d host (n.implementations.runIn w).2 := by
  obtain ⟨v, hv, hn⟩ := hn
  have hsettles : Settles d host w₀ [] _ _ := InterfaceNode.implementations_settles hw₀ hv hn.1
  exact (hsettles.aged hw₀ hw (n.implementations_respects hw.kin.congruence)).imp_right And.right

theorem InputNode.fields_aged {n : InputNode} (hn : w₀.Attains d host (.input n)) :
    ((n.fields host).runIn w).1 = ((n.fields host).runIn w₀).1 ∧
      w₀.Aged d host ((n.fields host).runIn w).2 := by
  obtain ⟨v, hv, hn⟩ := hn
  have hsettles : Settles d host w₀ [] _ _ := InputNode.fields_settles hw₀ hv hn.1
  exact (hsettles.aged hw₀ hw (n.fields_respects hw.kin.congruence host)).imp_right And.right

omit hw in
/-- The successors of a node do not age, and they are attained. -/
theorem Workspace.Attains.successors {n : GraphNode} (hn : w₀.Attains d host n)
    (hw : w₀.Aged d host w) (hv : w₀.Aged d host v) :
    Parallel d host w₀ w v id
      (fun ms w' v' ↦ w'.bare = w.bare ∧ v'.bare = v.bare ∧ ∀ m ∈ ms, w₀.Attains d host m)
      (n.successors host) (n.successors host) := by
  have hrespects {w : Workspace σ} (hw : w₀.Aged d host w) :
      Respects (w₀.Beside w) (n.successors host) :=
    GraphNode.successors_respects hw.kin.congruence host fun hid _ _ ↦
      hw.roots_beside (hn.root_lt hid)
  obtain ⟨u, hu, hn⟩ := hn
  exact (GraphNode.successors_settles hw₀ hu hn.1).parallel hw₀ hu
    (hu.coherent.offers_parts hn.1) hw hv (hrespects hw) (hrespects hv)

end Graph
end ApiGraph
