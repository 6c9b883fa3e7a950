import ApiGraph.Proofs.Compile.Respects
import ApiGraph.Proofs.Session.LazyNode

/-!
# A session in which nothing more is registered

Nodes are kept for good, and field maps until they are released, so a session can hand out what it
made of registries that have changed since.  As long as nothing is registered in it, this cannot be
seen: whatever happens in the rest of the program, the session makes of its declarations what it
made of them before, and what it keeps is what it would make now.

## What is here

* `Workspace.Quiet`: a step that registers nothing in a session.
* `Workspace.StaysIn`: what such steps leave as it is, with `StaysIn.step` for one step and
  `StaysIn.steps` for many.
* `Workspace.runIn_eq_of_quiet`: what is made of declarations is the same all along.
* `Workspace.Current`: the fields of a type are those that would be made now.
* `Workspace.evaluate_of_quiet`: they are those that would have been made at any time before.
-/

set_option autoImplicit false

namespace ApiGraph

open Compile (Respects Settles)

variable {σ α : Type} {d : Declarations} {host : Host σ} {s : SessionId}

namespace Workspace

variable {w w' v : Workspace σ} {p : Workspace σ → Prop}

/-- A step that registers nothing in a session. -/
structure Quiet (d : Declarations) (host : Host σ) (s : SessionId) (w w' : Workspace σ) :
    Prop where
  step : Step d host w w'
  registries : w'.registries s = w.registries s

theorem Quiet.sound_follows (h : Relation.ReflTransGen (Quiet d host s) w v) (hw : w.Sound d) :
    v.Sound d ∧ w.Follows v :=
  follows_of_steps (Relation.ReflTransGen.mono (fun _ _ ↦ Quiet.step) _ _ h) hw

/-- Two workspaces have the same registries and the same nodes for a session that is there. -/
structure SameNodes (s : SessionId) (w w' : Workspace σ) : Prop where
  opened : s < w.sessions.length
  opened' : s < w'.sessions.length
  registries : w'.registries s = w.registries s
  nodes : ∀ {t : CacheTable}, t.ofNodes = true → ∀ key, w'.entry s t key = w.entry s t key

/-- Making nodes and fields looks at nothing else. -/
theorem concord_sameNodes (s : SessionId) : Concord s (SameNodes (σ := σ) s) where
  registries := SameNodes.registries
  nodes := SameNodes.nodes
  ofHost h _ _ := ⟨h.opened, h.opened', h.registries, h.nodes⟩
  keep {w w'} h t ht key x := by
    refine ⟨(w.length_modifySession s _).symm ▸ h.opened,
      (w'.length_modifySession s _).symm ▸ h.opened', ?_, fun hu other ↦
        entry_keep_congr h.opened h.opened' key x (h.nodes hu other)⟩
    rw [registries_of_bare (bare_modifyCache w' s _), h.registries,
      registries_of_bare (bare_modifyCache w s _)]

/-- In a session nothing is registered, and field maps are dropped at most. -/
structure DropsIn (s : SessionId) (w w' : Workspace σ) : Prop extends SameNodes s w w' where
  entries : ∀ {t : CacheTable} {key : TypeKey} {x : t.Value},
    w'.entry s t key = some x → w.entry s t key = some x

theorem Drops.within (h : w.Drops w') (hs : s < w.sessions.length) : w.DropsIn s w' where
  opened := hs
  opened' := Nat.lt_of_lt_of_le hs h.sessions
  registries := h.registries s
  nodes ht := h.nodes ht s
  entries := h.entries

/-! ## Steps -/

/-- Filling tables leaves something as it is, and so does dropping field maps of a session. -/
structure StaysIn (d : Declarations) (host : Host σ) (s : SessionId) (p : Workspace σ → Prop) :
    Prop where
  filled : ∀ {w w' : Workspace σ}, w.Coherent d → s < w.sessions.length → w.Filled d host w' →
    p w → p w'
  dropped : ∀ {w w' : Workspace σ}, w.Coherent d → w'.Coherent d → w.DropsIn s w' → p w → p w'

namespace StaysIn

/-- A quiet step leaves it as it is. -/
theorem step (hp : StaysIn d host s p) (h : Quiet d host s w w') (hw : w.Sound d)
    (hs : s < w.sessions.length) (hpw : p w) : s < w'.sessions.length ∧ p w' := by
  have hstays : Stays d host fun v : Workspace σ ↦ s < v.sessions.length ∧ p v :=
    ⟨fun hw hf h ↦ ⟨hf.grows.sessions_length ▸ h.1, hp.filled hw h.1 hf h.2⟩,
      fun hw hw' hd h ↦ ⟨(hd.within h.1).opened', hp.dropped hw hw' (hd.within h.1) h.2⟩⟩
  have hsound := h.step.sound hw
  refine hstays.step h.step hw (fun b f hf heq ↦ ?_) ⟨hs, hpw⟩
  have hr := h.registries
  subst heq
  have hdrops : w.DropsIn s (w.modifyRegistries b f) :=
    { opened := hs
      opened' := (w.length_modifySession b _).symm ▸ hs
      registries := hr
      nodes := fun _ key ↦ entry_modifyRegistries w b f s _ key
      entries := fun h ↦ entry_modifyRegistries w b f s _ _ ▸ h }
  exact ⟨hdrops.opened', hp.dropped hw.coherent hsound.coherent hdrops hpw⟩

/-- So do many. -/
theorem steps (hp : StaysIn d host s p) (h : Relation.ReflTransGen (Quiet d host s) w v)
    (hw : w.Sound d) (hs : s < w.sessions.length) (hpw : p w) : p v := by
  suffices h : v.Sound d ∧ s < v.sessions.length ∧ p v from h.2.2
  induction h with
  | refl => exact ⟨hw, hs, hpw⟩
  | tail _ hstep ih => exact ⟨hstep.step.sound ih.1, hp.step hstep ih.1 ih.2.1 ih.2.2⟩

end StaysIn

/-! ## What is made -/

/-- What is made in a session comes to the same all along, if it looks at nodes and registries
only. -/
theorem runIn_eq_of_quiet {x : Compile σ α} (h : Relation.ReflTransGen (Quiet d host s) w v)
    (hw : w.Sound d) (hs : s < w.sessions.length)
    (hsettles : ∀ u : Workspace σ, u.Coherent d → s < u.sessions.length →
      ∃ nodes, Settles d host u [] x nodes)
    (hrespects : Respects (SameNodes s) x) : (x.runIn v).1 = (x.runIn w).1 := by
  have hstays : StaysIn d host s fun u ↦ (x.runIn u).1 = (x.runIn w).1 := by
    refine ⟨fun {u u'} hu hs hf h ↦ ?_, fun _ _ hd h ↦ ?_⟩
    · obtain ⟨nodes, hx⟩ := hsettles u hu hs
      exact (hx.runIn_eq (.refl hu) hf).trans h
    · exact (hrespects _ _ hd.toSameNodes).1.trans h
  exact hstays.steps h hw hs rfl

end Workspace

/-! ## What is kept -/

namespace LazyNode

open Workspace (concord_sameNodes)

variable {w w' u : Workspace σ} {c : ClassRef} {key : TypeKey} {x : LazyNode}

/-- A session gives a node for a class: it is kept already, or made now. -/
def GivenFor (w : Workspace σ) (s : SessionId) (c : ClassRef) : LazyNode → Prop
  | .object n => ((compileObject s c).runIn w).1 = .ok n
  | .interface n => ((compileInterface s c).runIn w).1 = .ok n
  | .input n => ((compileInput s c).runIn w).1 = .ok n

/-- A node that is kept is given for its class. -/
theorem KeptBy.givenFor (hx : x.KeptBy w s key) (hw : w.Coherent d) :
    ∃ c, d.classes c ∧ c.key = key ∧ x.GivenFor w s c := by
  cases x with
  | object n =>
    obtain ⟨-, ⟨c, -, hc, rfl⟩, -⟩ := hw.entries (t := .objects) hx
    exact ⟨c, hc, rfl, congrArg Prod.fst (Compile.runIn_remember_of_entry hx)⟩
  | interface n =>
    obtain ⟨-, ⟨hc, rfl⟩, -⟩ := hw.entries (t := .interfaces) hx
    exact ⟨n.cls, hc, rfl, congrArg Prod.fst (Compile.runIn_remember_of_entry hx)⟩
  | input n =>
    obtain ⟨-, ⟨hc, rfl⟩, -⟩ := hw.entries (t := .inputs) hx
    exact ⟨n.cls, hc, rfl, congrArg Prod.fst (Compile.runIn_remember_of_entry hx)⟩

theorem GivenFor.iff_of_sameNodes (h : w.SameNodes s w') :
    x.GivenFor w' s c ↔ x.GivenFor w s c := by
  cases x with
  | object n =>
    rw [GivenFor, GivenFor, (compileObject_respects (concord_sameNodes s).accord c w w' h).1]
  | interface n =>
    rw [GivenFor, GivenFor, (compileInterface_respects (concord_sameNodes s).accord c w w' h).1]
  | input n =>
    rw [GivenFor, GivenFor, (compileInput_respects (concord_sameNodes s).accord c w w' h).1]

theorem evaluate_respects (x : LazyNode) :
    Respects (Workspace.SameNodes s) (x.evaluate host s : Compile σ x.table.Value) := by
  cases x with
  | object n =>
    rw [evaluate]
    cases n.cls with
    | none => exact .throw _
    | some c => exact compileFields_respects (concord_sameNodes s) host c n.walk
  | interface n => exact compileFields_respects (concord_sameNodes s) host n.cls n.cls.oldestFirst
  | input n => exact compileInputFields_respects (concord_sameNodes s) host n.cls

section Settled

variable (hw : w.Coherent d)
include hw

theorem fields_settles (hu : w.Filled d host u) (hx : x.KeptBy u s key) :
    ∃ nodes, Settles d host w [] (x.fields host) nodes := by
  cases x with
  | object n => exact ⟨_, ObjectNode.fields_settles hw hu (.inl ⟨s, key, hx⟩)⟩
  | interface n => exact ⟨_, InterfaceNode.fields_settles hw hu ⟨s, key, hx⟩⟩
  | input n => exact ⟨_, InputNode.fields_settles hw hu ⟨s, key, hx⟩⟩

variable (hs : s < w.sessions.length)
include hs

theorem evaluate_settles (x : LazyNode) :
    ∃ nodes, Settles d host w [] (x.evaluate host s) nodes := by
  cases x with
  | object n =>
    refine ⟨FieldMap.nodes, ?_⟩
    rw [evaluate]
    cases n.cls with
    | none => exact .throw fun _ h ↦ by cases h
    | some c => exact compileFields_settles hw hs c n.walk
  | interface n => exact ⟨_, compileFields_settles hw hs n.cls n.cls.oldestFirst⟩
  | input n =>
    exact ⟨_, (compileInputFields_settles hw hs n.cls).weaken (fun _ ↦ id) (fun _ _ ↦ id)
      fun _ _ ↦ trivial⟩

theorem GivenFor.iff_of_filled (hc : d.classes c) (hf : w.Filled d host w') :
    x.GivenFor w' s c ↔ x.GivenFor w s c := by
  cases x with
  | object n =>
    have hsettles : Settles d host w [] (compileObject s c) _ := compileObject_settles hw hs hc
    rw [GivenFor, GivenFor, hsettles.runIn_eq (.refl hw) hf]
  | interface n =>
    have hsettles : Settles d host w [] (compileInterface s c) _ :=
      compileInterface_settles hw hs hc
    rw [GivenFor, GivenFor, hsettles.runIn_eq (.refl hw) hf]
  | input n =>
    have hsettles : Settles d host w [] (compileInput s c) _ := compileInput_settles hw hs hc
    rw [GivenFor, GivenFor, hsettles.runIn_eq (.refl hw) hf]

/-- A node that is given is kept from then on. -/
theorem GivenFor.exists_keptBy (host : Host σ) (hc : d.classes c) (h : x.GivenFor w s c) :
    ∃ u, w.Filled d host u ∧ x.KeptBy u s c.key := by
  have hkept {t : CacheTable} {make : Compile σ t.Value} {v : t.Value}
      (hf : w.Filled d host ((Compile.remember s t c.key make).runIn w).2)
      (hv : ((Compile.remember s t c.key make).runIn w).1 = .ok v) :
      ((Compile.remember s t c.key make).runIn w).2.entry s t c.key = some v :=
    Compile.entry_of_runIn_remember (Prod.ext hv rfl) (hf.grows.sessions_length ▸ hs)
  cases x with
  | object n =>
    have hsettles : Settles d host w [] (compileObject s c) _ := compileObject_settles hw hs hc
    have hf := hsettles.filled (.refl hw)
    exact ⟨_, hf, hkept (t := .objects) hf h⟩
  | interface n =>
    have hsettles : Settles d host w [] (compileInterface s c) _ :=
      compileInterface_settles hw hs hc
    have hf := hsettles.filled (.refl hw)
    exact ⟨_, hf, hkept (t := .interfaces) hf h⟩
  | input n =>
    have hsettles : Settles d host w [] (compileInput s c) _ := compileInput_settles hw hs hc
    have hf := hsettles.filled (.refl hw)
    exact ⟨_, hf, hkept (t := .inputs) hf h⟩

end Settled

/-- Fields that an access gives are kept, or an evaluation gives them now. -/
theorem fields_ok (hx : x.KeptBy u s key) (hu : u.Coherent d) {map : x.table.Value}
    (h : ((x.fields host).runIn w).1 = .ok map) :
    w.entry s x.table key = some map ∨ ((x.evaluate host s).runIn w).1 = .ok map := by
  rw [hx.fields_eq hu] at h
  cases hentry : w.entry s x.table key with
  | some known =>
    rw [Compile.runIn_remember_of_entry hentry] at h
    exact .inl (congrArg some (Except.ok.inj h))
  | none =>
    cases hopen : w.isOpen s with
    | true => exact .inr (Compile.runIn_remember_open hentry hopen ▸ h)
    | false =>
      rw [Compile.runIn_remember_of_closed hentry hopen] at h
      cases h

end LazyNode

namespace Workspace

/-- If a session gives a node for a class, the fields that an access to the node gives are those
that an evaluation gives now. -/
def Current (host : Host σ) (s : SessionId) (c : ClassRef) (x : LazyNode) (w : Workspace σ) :
    Prop :=
  x.GivenFor w s c → ∀ map, ((x.fields host).runIn w).1 = .ok map →
    ((x.evaluate host s).runIn w).1 = .ok map

variable {w w' v : Workspace σ} {c : ClassRef} {x : LazyNode}

theorem current_of_none (hw : w.Coherent d) (hs : s < w.sessions.length) (hc : d.classes c)
    (hnone : w.entry s x.table c.key = none) : w.Current host s c x := by
  intro hx map h
  obtain ⟨u, hu, hkept⟩ := hx.exists_keptBy hw hs host hc
  rcases x.fields_ok hkept hu.coherent h with hentry | h
  · rw [hnone] at hentry
    cases hentry
  · exact h

/-- It stays so as long as nothing is registered. -/
theorem current_stays (hc : d.classes c) : StaysIn d host s (Current host s c x) where
  filled {w w'} hw hs hf hcurrent hx map h := by
    have hx := (LazyNode.GivenFor.iff_of_filled hw hs hc hf).1 hx
    obtain ⟨u, hu, hkept⟩ := hx.exists_keptBy hw hs host hc
    obtain ⟨_, hfields⟩ := x.fields_settles hw hu hkept
    obtain ⟨_, hevaluate⟩ : ∃ nodes, Settles d host w [] (x.evaluate host s) nodes :=
      x.evaluate_settles hw hs
    rw [hevaluate.runIn_eq (.refl hw) hf]
    exact hcurrent hx map (hfields.runIn_eq (.refl hw) hf ▸ h)
  dropped {w w'} hw hw' hd hcurrent hx map h := by
    have hx := (LazyNode.GivenFor.iff_of_sameNodes hd.toSameNodes).1 hx
    obtain ⟨u, hu, hkept⟩ := hx.exists_keptBy hw hd.opened host hc
    rcases x.fields_ok hkept hu.coherent h with hentry | h
    · rw [(x.evaluate_respects w w' hd.toSameNodes).1]
      refine hcurrent hx map ?_
      rw [hkept.fields_eq hu.coherent, Compile.runIn_remember_of_entry (hd.entries hentry)]
    · exact h

theorem given_of_quiet (h : Relation.ReflTransGen (Quiet d host s) w v) (hw : w.Sound d)
    (hs : s < w.sessions.length) (hc : d.classes c) : x.GivenFor v s c ↔ x.GivenFor w s c := by
  have hstays : StaysIn d host s fun u ↦ (x.GivenFor u s c ↔ x.GivenFor w s c) :=
    ⟨fun hu hs hf ↦ (LazyNode.GivenFor.iff_of_filled hu hs hc hf).trans,
      fun _ _ hd ↦ (LazyNode.GivenFor.iff_of_sameNodes hd.toSameNodes).trans⟩
  exact hstays.steps h hw hs Iff.rfl

/-- **A session does not change its mind.**  Let the fields of a node not be there yet in a session,
and from then on nothing be registered in it.  Then the node, if it is kept ever after, is the one
that would have been given for its class at once, and its fields, if they are ever given, are those
that would have been made at once. -/
theorem evaluate_of_quiet (h : Relation.ReflTransGen (Quiet d host s) w v) (hw : w.Sound d)
    (hs : s < w.sessions.length) {key : TypeKey} (hnone : w.entry s x.table key = none)
    (hx : x.KeptBy v s key) :
    (∃ c, d.classes c ∧ c.key = key ∧ x.GivenFor w s c) ∧
      ∀ map, ((x.fields host).runIn v).1 = .ok map →
        ((x.evaluate host s).runIn w).1 = .ok map := by
  obtain ⟨c, hc, rfl, hgiven⟩ := hx.givenFor (Quiet.sound_follows h hw).1.coherent
  refine ⟨⟨c, hc, rfl, (given_of_quiet h hw hs hc).1 hgiven⟩, fun map hmap ↦ ?_⟩
  have hcurrent : v.Current host s c x :=
    (current_stays hc).steps h hw hs (current_of_none hw.coherent hs hc hnone)
  rw [← runIn_eq_of_quiet h hw hs (fun u hu hs ↦ x.evaluate_settles hu hs) x.evaluate_respects]
  exact hcurrent hgiven map hmap

end Workspace
end ApiGraph
