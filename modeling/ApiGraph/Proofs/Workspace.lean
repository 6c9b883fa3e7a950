import ApiGraph.Proofs.OrderedMap
import ApiGraph.Schema.Reachable

/-!
# What a compilation may change

A compilation adds entries to the tables of sessions and runs steps of the program.  It never takes
an entry back or replaces it, and it leaves everything else in the workspace as it is: the
registries, the owners, the roots of the schemas.

## What is here

* `Workspace.entry`: what a session keeps in a table for a key.
* `Workspace.bare`: a workspace without its tables and without the state of the program.
* `Workspace.Grows`: a workspace has become another by entries alone.
-/

set_option autoImplicit false

namespace ApiGraph

/-! ## Tables -/

namespace NodeCache

@[simp] theorem table_setTable_self (c : NodeCache) (t : CacheTable)
    (m : OrderedMap TypeKey t.Value) : (c.setTable t m).table t = m := by
  cases t <;> rfl

theorem table_setTable_of_ne (c : NodeCache) {t u : CacheTable} (h : t ≠ u)
    (m : OrderedMap TypeKey t.Value) : (c.setTable t m).table u = c.table u := by
  cases t <;> cases u <;> first | rfl | exact absurd rfl h

end NodeCache

namespace Workspace

variable {σ : Type}

/-- What a session keeps in a table for a key. -/
def entry (w : Workspace σ) (s : SessionId) (t : CacheTable) (key : TypeKey) : Option t.Value :=
  OrderedMap.find ((w.cache s).table t) key

/-- Only a session that has been opened is changed. -/
theorem session_modifySession (w : Workspace σ) (s b : SessionId) (f : Session → Session) :
    (w.modifySession s f).session b =
      if s = b ∧ b < w.sessions.length then f (w.session b) else w.session b := by
  rw [session, session, modifySession, List.getElem?_modify]
  by_cases hb : b < w.sessions.length
  · by_cases hs : s = b <;> simp [hs, hb]
  · simp [hb]

theorem session_modifySession_self (w : Workspace σ) {s : SessionId} (f : Session → Session)
    (hs : s < w.sessions.length) : (w.modifySession s f).session s = f (w.session s) := by
  rw [session_modifySession, if_pos ⟨rfl, hs⟩]

theorem session_modifySession_of_ne (w : Workspace σ) {s b : SessionId} (f : Session → Session)
    (h : s ≠ b) : (w.modifySession s f).session b = w.session b := by
  rw [session_modifySession, if_neg fun hb ↦ h hb.1]

@[simp] theorem length_modifySession (w : Workspace σ) (s : SessionId) (f : Session → Session) :
    (w.modifySession s f).sessions.length = w.sessions.length :=
  List.length_modify ..

/-- A change of a session that leaves its registries alone. -/
theorem registries_modifySession (w : Workspace σ) (s : SessionId) {f : Session → Session}
    (hf : ∀ x, (f x).registries = x.registries) (b : SessionId) :
    (w.modifySession s f).registries b = w.registries b := by
  rw [registries, registries, session_modifySession]
  split
  · exact hf _
  · rfl

/-- A change of a session that leaves its tables alone. -/
theorem entry_modifySession (w : Workspace σ) (s : SessionId) {f : Session → Session}
    (hf : ∀ x, (f x).cache = x.cache) (b : SessionId) (t : CacheTable) (key : TypeKey) :
    (w.modifySession s f).entry b t key = w.entry b t key := by
  rw [entry, entry, cache, cache, session_modifySession]
  split
  · rw [hf]
  · rfl

theorem entry_modifyRegistries (w : Workspace σ) (s : SessionId) (f : Registries → Registries)
    (b : SessionId) (t : CacheTable) (key : TypeKey) :
    (w.modifyRegistries s f).entry b t key = w.entry b t key := by
  rw [entry, entry, cache, cache, modifyRegistries, session_modifySession]
  split <;> rfl

/-- A session that can be used has been opened. -/
theorem lt_length_of_isOpen {w : Workspace σ} {s : SessionId} (h : w.isOpen s = true) :
    s < w.sessions.length := by
  by_contra hs
  rw [isOpen, session, List.getElem?_eq_none (Nat.le_of_not_lt hs)] at h
  cases h

/-- A session that keeps something has been opened. -/
theorem lt_length_of_entry {w : Workspace σ} {s : SessionId} {t : CacheTable} {key : TypeKey}
    {v : t.Value} (h : w.entry s t key = some v) : s < w.sessions.length := by
  by_contra hs
  rw [entry, cache, session, List.getElem?_eq_none (Nat.le_of_not_lt hs)] at h
  cases t <;> cases h

/-! ## One more entry -/

/-- A workspace with one more entry in a table of a session. -/
abbrev keep (w : Workspace σ) (s : SessionId) (t : CacheTable) (key : TypeKey) (v : t.Value) :
    Workspace σ :=
  w.modifyCache s (·.enter t key v)

theorem entry_keep_self (w : Workspace σ) {s : SessionId} (hs : s < w.sessions.length)
    (t : CacheTable) (key : TypeKey) (v : t.Value) : (w.keep s t key v).entry s t key = some v := by
  rw [entry, cache, keep, modifyCache, session_modifySession_self w _ hs]
  simp only [NodeCache.enter, NodeCache.table_setTable_self, OrderedMap.find_put, if_true]

theorem entry_keep_of_ne (w : Workspace σ) {s b : SessionId} {t u : CacheTable}
    {key other : TypeKey} (h : ¬(s = b ∧ t = u ∧ key = other)) (v : t.Value) :
    (w.keep s t key v).entry b u other = w.entry b u other := by
  rw [entry, entry, cache, cache, keep, modifyCache, session_modifySession]
  split
  · rename_i hs
    by_cases ht : t = u
    · subst ht
      have hk : key ≠ other := fun hk ↦ h ⟨hs.1, rfl, hk⟩
      simp only [NodeCache.enter, NodeCache.table_setTable_self, OrderedMap.find_put, if_neg hk]
    · simp only [NodeCache.enter, NodeCache.table_setTable_of_ne _ ht]
  · rfl

/-- Two workspaces with the same under a key still have the same after an entry in both. -/
theorem entry_keep_congr {w w' : Workspace σ} {s : SessionId} (hs : s < w.sessions.length)
    (hs' : s < w'.sessions.length) {t u : CacheTable} (key : TypeKey) {other : TypeKey}
    (v : t.Value) (h : w'.entry s u other = w.entry s u other) :
    (w'.keep s t key v).entry s u other = (w.keep s t key v).entry s u other := by
  by_cases heq : s = s ∧ t = u ∧ key = other
  · obtain ⟨-, rfl, rfl⟩ := heq
    rw [entry_keep_self _ hs, entry_keep_self _ hs']
  · rw [entry_keep_of_ne _ heq, entry_keep_of_ne _ heq, h]

/-! ## Everything else -/

/-- A workspace without its tables, the state of the program and the count of its calls. -/
def bare (w : Workspace σ) : Workspace Unit where
  sessions := w.sessions.map fun s ↦ { s with cache := {} }
  roots := w.roots
  nextSchema := w.nextSchema
  nextExecutable := w.nextExecutable
  host := ()

/-- What is in a table is no part of a bare workspace. -/
theorem bare_modifyCache (w : Workspace σ) (s : SessionId) (f : NodeCache → NodeCache) :
    (w.modifyCache s f).bare = w.bare := by
  rw [bare, bare]
  congr 1
  refine List.ext_getElem? fun i ↦ ?_
  simp only [modifyCache, modifySession, List.getElem?_map, List.getElem?_modify]
  cases w.sessions[i]? with
  | none => rfl
  | some x => by_cases hs : s = i <;> simp [hs]

theorem cache_modifyCache (w : Workspace σ) (s b : SessionId) (f : NodeCache → NodeCache) :
    (w.modifyCache s f).cache b =
      if s = b ∧ b < w.sessions.length then f (w.cache b) else w.cache b := by
  rw [cache, modifyCache, session_modifySession]
  split <;> rfl

/-- A bare workspace has all of a session but its tables. -/
theorem session_bare (w : Workspace σ) (s : SessionId) :
    w.bare.session s = { w.session s with cache := {} } := by
  rw [session, session, bare, List.getElem?_map]
  cases w.sessions[s]? <;> rfl

section OfBare

variable {w v : Workspace σ} (h : v.bare = w.bare)
include h

theorem session_of_bare (s : SessionId) :
    { v.session s with cache := {} } = { w.session s with cache := {} } := by
  rw [← session_bare, ← session_bare, h]

theorem registries_of_bare (s : SessionId) : v.registries s = w.registries s :=
  (congrArg Session.registries (session_of_bare h s) :)

theorem config_of_bare (s : SessionId) : (v.session s).config = (w.session s).config :=
  (congrArg Session.config (session_of_bare h s) :)

theorem owners_of_bare (s : SessionId) : (v.session s).owners = (w.session s).owners :=
  (congrArg Session.owners (session_of_bare h s) :)

theorem isOpen_of_bare (s : SessionId) : v.isOpen s = w.isOpen s :=
  (congrArg Session.isOpen (session_of_bare h s) :)

theorem length_of_bare : v.sessions.length = w.sessions.length := by
  simpa [bare] using congrArg (List.length ∘ Workspace.sessions) h

theorem roots_of_bare : v.roots = w.roots :=
  congrArg (fun b : Workspace Unit ↦ b.roots) h

theorem nextSchema_of_bare : v.nextSchema = w.nextSchema :=
  congrArg (fun b : Workspace Unit ↦ b.nextSchema) h

theorem typeCount_of_bare : v.typeCount = w.typeCount := by
  have hb : ∀ w : Workspace σ, w.bare.typeCount = w.typeCount := by
    intro w
    simp only [typeCount, bare, List.foldr_map]
  rw [← hb, h, hb]

end OfBare

/-- A workspace has become another by more entries in its tables, and by steps of the program. -/
structure Grows (w w' : Workspace σ) : Prop where
  bare : w'.bare = w.bare
  kept : ∀ {s : SessionId} {t : CacheTable} {key : TypeKey} {v : t.Value},
    w.entry s t key = some v → w'.entry s t key = some v

namespace Grows

variable {w w' w'' : Workspace σ}

theorem refl (w : Workspace σ) : w.Grows w := ⟨rfl, id⟩

theorem trans (h : w.Grows w') (h' : w'.Grows w'') : w.Grows w'' :=
  ⟨h'.bare.trans h.bare, fun he ↦ h'.kept (h.kept he)⟩

theorem sessions_length (h : w.Grows w') : w'.sessions.length = w.sessions.length :=
  length_of_bare h.bare

theorem roots (h : w.Grows w') : w'.roots = w.roots := roots_of_bare h.bare

theorem nextSchema (h : w.Grows w') : w'.nextSchema = w.nextSchema := nextSchema_of_bare h.bare

theorem registries (h : w.Grows w') (s : SessionId) : w'.registries s = w.registries s :=
  registries_of_bare h.bare s

theorem owners (h : w.Grows w') (s : SessionId) :
    (w'.session s).owners = (w.session s).owners :=
  owners_of_bare h.bare s

theorem typeCount (h : w.Grows w') : w'.typeCount = w.typeCount := typeCount_of_bare h.bare

theorem isOpen (h : w.Grows w') (s : SessionId) : w'.isOpen s = w.isOpen s :=
  isOpen_of_bare h.bare s

/-- A step of the program changes nothing else. -/
theorem ofHost (w : Workspace σ) (host : σ) : w.Grows { w with host } := ⟨rfl, id⟩

/-- Nor does the count of the calls. -/
theorem ofCall (w : Workspace σ) (nextCall : Nat) : w.Grows { w with nextCall } := ⟨rfl, id⟩

/-- An entry under a key that had none, or had the same, is more. -/
theorem keep {s : SessionId} {t : CacheTable} {key : TypeKey} {v : t.Value}
    (h : ∀ u, w.entry s t key = some u → u = v) : w.Grows (w.keep s t key v) where
  bare := bare_modifyCache w s _
  kept := by
    intro b u other x hx
    by_cases heq : s = b ∧ t = u ∧ key = other
    · obtain ⟨rfl, rfl, rfl⟩ := heq
      rw [entry_keep_self w (lt_length_of_entry hx), h x hx]
    · rw [entry_keep_of_ne w heq, hx]

end Grows

end Workspace
end ApiGraph
