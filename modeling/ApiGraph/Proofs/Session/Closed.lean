import ApiGraph.Proofs.Compile.Ensures
import ApiGraph.Proofs.Session.Apart
import ApiGraph.Proofs.Session.Ownership

/-!
# Closed sessions

Nothing is compiled in a session that is closed.  Its nodes still lead to others and may be asked
for their fields, but what is not there already is refused.  So the tables of a closed session stay
as they are, until they are released.

## What is here

* `Workspace.Rests`: a closed session is as it was; an invariant of everything that the compiler
  does.
* `Workspace.Step.cache_of_closed`: what a step does to the tables of a closed session.
* `Workspace.Bared` and `Workspace.Reachable.bared`: a session without owners keeps no field maps.
-/

set_option autoImplicit false

namespace ApiGraph

open Compile (Ensures Respects)

variable {σ α : Type} {d : Declarations} {host : Host σ} {w w' : Workspace σ} {s b : SessionId}
  {x : Session}

namespace Workspace

/-- A session has been opened and is as it was. -/
def Rests (s : SessionId) (x : Session) (w : Workspace σ) : Prop :=
  s < w.sessions.length ∧ w.session s = x

theorem Rests.of_sessions (hw : w.Rests s x) (h : w'.sessions = w.sessions) : w'.Rests s x := by
  rw [Rests, session, h]
  exact hw

theorem Rests.modifySession (hw : w.Rests s x) (h : b ≠ s) (f : Session → Session) :
    (w.modifySession b f).Rests s x :=
  ⟨(w.length_modifySession b f).symm ▸ hw.1, (w.session_modifySession_of_ne f h).trans hw.2⟩

/-- A change of an opened session, as a congruence for compiling in another one. -/
theorem congruence_modifySession_opened (h : s ≠ b) (f : Session → Session) :
    Congruence b fun w v : Workspace σ ↦ s < w.sessions.length ∧ v = w.modifySession s f where
  registries hv := (congruence_modifySession h f).registries hv.2
  cache hv := (congruence_modifySession h f).cache hv.2
  isOpen hv := (congruence_modifySession h f).isOpen hv.2
  modifyCache {w _} hv g :=
    ⟨(w.length_modifySession b _).symm ▸ hv.1, (congruence_modifySession h f).modifyCache hv.2 g⟩
  ofHost hv _ step := ⟨hv.1, (congruence_modifySession h f).ofHost hv.2 step⟩

theorem modifySession_session (w : Workspace σ) (s : SessionId) :
    w.modifySession s (fun _ ↦ w.session s) = w := by
  have hsessions : w.sessions.modify s (fun _ ↦ w.session s) = w.sessions := by
    refine List.ext_getElem? fun i ↦ ?_
    rw [List.getElem?_modify]
    split
    · rename_i hs
      subst hs
      rw [session]
      cases w.sessions[s]? <;> rfl
    · exact id_map _
  rw [modifySession, hsessions]

/-- What looks at one session only leaves any other as it is. -/
theorem Rests.of_ne {c : Compile σ α} (hb : s ≠ b)
    (hc : ∀ R : Workspace σ → Workspace σ → Prop, Congruence b R → Respects R c) :
    Ensures (Rests s x) c := by
  rintro w ⟨hs, rfl⟩
  refine ⟨?_, fun _ _ ↦ trivial⟩
  -- the session may as well be set to what it is, before and after
  obtain ⟨-, hlt, heq⟩ := hc _ (congruence_modifySession_opened hb fun _ ↦ w.session s) w w
    ⟨hs, (w.modifySession_session s).symm⟩
  have hsession : (c.runIn w).2.session s =
      ((c.runIn w).2.modifySession s fun _ ↦ w.session s).session s :=
    congrArg (fun w ↦ w.session s) heq
  rw [session_modifySession_self _ _ hlt] at hsession
  exact ⟨hlt, hsession⟩

theorem Rests.isOpen_eq (hw : w.Rests s x) : w.isOpen s = x.isOpen := by
  rw [isOpen, hw.2]

theorem Rests.ne_of_isOpen (hw : w.Rests s x) (hx : x.isOpen = false) (hb : w.isOpen b = true) :
    s ≠ b := by
  rintro rfl
  rw [hw.isOpen_eq, hx] at hb
  cases hb

theorem makeRoots_rests (hb : s ≠ b) (fields : RootFields) :
    Ensures (Rests s x) (makeRoots host b fields) := by
  have hcompile (fields) : Ensures (Rests s x) (compileRootFields host b fields) :=
    Rests.of_ne hb fun _ hR ↦ compileRootFields_respects hR.concord host fields
  refine .get fun w _ ↦ ?_
  refine (hcompile fields.query).bind fun queryMap _ ↦ ?_
  refine (hcompile fields.mutation).bind fun mutationMap _ ↦ ?_
  refine .get fun w₁ _ ↦ ?_
  refine (Ensures.modify fun w₂ hw₂ ↦ ?_).bind fun _ _ ↦ .pure trivial
  split <;> exact hw₂.of_sessions rfl

section Closed

variable (hx : x.isOpen = false)
include hx

/-- A table whose entries are made for an open session. -/
theorem Rests.remember (b : SessionId) (t : CacheTable) (key : TypeKey)
    {make : Compile σ t.Value} (hmake : s ≠ b → Ensures (Rests s x) make) :
    Ensures (Rests s x) (Compile.remember b t key (do Compile.requireOpen b; make)) := by
  by_cases hb : s = b
  · subst hb
    intro w hw
    refine ⟨?_, fun _ _ ↦ trivial⟩
    cases hentry : w.entry s t key with
    | some v => rwa [Compile.runIn_remember_of_entry hentry]
    | none => rwa [Compile.runIn_remember_of_closed hentry (hw.isOpen_eq.trans hx)]
  · refine .remember (fun _ _ _ _ ↦ trivial) (fun w v hw _ ↦ ?_)
      ((Ensures.requireOpen b).bind fun _ _ ↦ hmake hb)
    exact hw.modifySession (Ne.symm hb) _

theorem objectFields_rests (n : ObjectNode) : Ensures (Rests s x) (n.fields host) := by
  rw [ObjectNode.fields]
  split
  · exact Rests.remember hx _ .objectFields _ fun hb ↦
      Rests.of_ne hb fun _ hR ↦ compileFields_respects hR.concord host _ _
  · refine .get fun w _ ↦ ?_
    split
    · exact .pure trivial
    · exact .throw _
  · exact .throw _

theorem interfaceFields_rests (n : InterfaceNode) : Ensures (Rests s x) (n.fields host) := by
  rw [InterfaceNode.fields]
  split
  · exact Rests.remember hx _ .interfaceFields _ fun hb ↦
      Rests.of_ne hb fun _ hR ↦ compileFields_respects hR.concord host _ _
  · exact .throw _

theorem inputFields_rests (n : InputNode) : Ensures (Rests s x) (n.fields host) := by
  rw [InputNode.fields]
  split
  · exact Rests.remember hx _ .inputFields _ fun hb ↦
      Rests.of_ne hb fun _ hR ↦ compileInputFields_respects hR.concord host _
  · exact .throw _

theorem implementations_rests (n : InterfaceNode) :
    Ensures (Rests s x) (n.implementations : Compile σ _) := by
  cases hid : n.id with
  | compiled b role key =>
    rw [InterfaceNode.implementations, hid]
    by_cases hb : s = b
    · subst hb
      intro w hw
      have hrequire : (Compile.requireOpen s : Compile σ Unit).runIn w =
          (.error .sessionDropped, w) := by
        rw [Compile.runIn_requireOpen, if_neg (Bool.eq_false_iff.1 (hw.isOpen_eq.trans hx))]
      dsimp only
      rw [Compile.runIn_bind_of_error hrequire]
      exact ⟨hw, fun _ _ ↦ trivial⟩
    · refine (Ensures.requireOpen b).bind fun _ _ ↦ .get fun w _ ↦ ?_
      exact Rests.of_ne hb fun _ hR ↦ .mapM (compileObject_respects hR.accord) _
  | native | custom | root =>
    rw [InterfaceNode.implementations, hid]
    exact .throw _

theorem successors_rests (n : GraphNode) : Ensures (Rests s x) (n.successors host) := by
  cases n with
  | object n => exact (objectFields_rests hx n).bind fun _ _ ↦ .pure trivial
  | interface n =>
    exact (interfaceFields_rests hx n).bind fun _ _ ↦ (implementations_rests hx n).bind fun _ _ ↦
      .pure trivial
  | input n => exact (inputFields_rests hx n).bind fun _ _ ↦ .pure trivial
  | union n | enum n | scalar n => exact .pure trivial

theorem lower_rests (n : GraphNode) : Ensures (Rests s x) (n.lower host) := by
  cases n with
  | object n =>
    rw [GraphNode.lower]
    exact (objectFields_rests hx n).bind fun _ _ ↦ .pure trivial
  | interface n =>
    rw [GraphNode.lower]
    exact (interfaceFields_rests hx n).bind fun _ _ ↦ .pure trivial
  | input n =>
    rw [GraphNode.lower]
    exact (inputFields_rests hx n).bind fun _ _ ↦ .pure trivial
  | union n | enum n | scalar n =>
    rw [GraphNode.lower]
    exact .pure trivial

/-! ## Steps -/

theorem Request.rests {c : Compile σ α} (h : w.Request d host c) (hw : w.Rests s x) :
    (c.runIn w).2.Rests s x := by
  -- what is compiled anew is compiled in an open session
  have hother {b : SessionId} (hb : w.isOpen b = true) {α : Type} {c : Compile σ α}
      (hc : ∀ R, Congruence b R → Respects R c) : (c.runIn w).2.Rests s x :=
    (Rests.of_ne (hw.ne_of_isOpen hx hb) hc w hw).1
  cases h with
  | object hs _ => exact hother hs fun _ hR ↦ compileObject_respects hR.accord _
  | input hs _ => exact hother hs fun _ hR ↦ compileInput_respects hR.accord _
  | enum hs _ => exact hother hs fun _ hR ↦ compileEnum_respects hR.accord _
  | union hs _ => exact hother hs fun _ hR ↦
      compileUnion_respects hR.accord hR.concord.unions _
  | interface hs _ => exact hother hs fun _ hR ↦ compileInterface_respects hR.accord _
  | reference hs _ o => exact hother hs fun _ hR ↦ resolveType_respects hR.concord host _ o
  | @objectFields n _ => exact (objectFields_rests hx n w hw).1
  | @interfaceFields n _ => exact (interfaceFields_rests hx n w hw).1
  | @inputFields n _ => exact (inputFields_rests hx n w hw).1
  | @implementations n _ => exact (implementations_rests hx n w hw).1

theorem compileSchema_rests (hb : s ≠ b) (roots : List ClassRef) :
    Ensures (Rests s x) (compileSchema host b roots) := by
  have hroots : Ensures (Rests s x) (compileRoots host b roots) := by
    refine (gatherRoots_ensures host (fun w state hw ↦ hw.of_sessions rfl) b roots).bind
      fun fields _ ↦ ?_
    split
    · exact .throw _
    · exact makeRoots_rests hb fields
  refine .get fun w _ ↦ hroots.bind fun made _ ↦ ?_
  have hcollect : Ensures (Rests s x) (collectTypes host made.nodes) :=
    collectTypes_ensures host (successors_rests hx) made.nodes
  refine (hcollect.tryCatch fun e ↦ ?_).bind fun types _ ↦ ?_
  · exact Ensures.bind (Ensures.modify fun w' hw' ↦ hw'.of_sessions rfl) fun _ _ ↦ .throw e
  · refine (Ensures.modify fun w' hw' ↦ ?_).bind fun _ _ ↦ .pure trivial
    exact (hw'.modifySession (Ne.symm hb) _).of_sessions rfl

end Closed

/-- **What becomes of the tables of a closed session.**  They stay as they are, unless an owner of
the session is dropped. -/
theorem Step.cache_of_closed (h : Step d host w w') (hs : s < w.sessions.length)
    (hclosed : w.isOpen s = false) : w'.cache s = w.cache s ∨ ∃ o, w' = w.release s o := by
  have hw : w.Rests s (w.session s) := ⟨hs, rfl⟩
  have hrests {w' : Workspace σ} (h : w'.Rests s (w.session s)) : w'.cache s = w.cache s :=
    congrArg Session.cache h.2
  cases h with
  | opened config =>
    refine .inl (congrArg Session.cache ?_)
    rw [session_openSession, if_neg (Nat.ne_of_lt hs)]
  | registered hb _ =>
    exact .inl (hrests (hw.modifySession (hw.ne_of_isOpen hclosed hb).symm _))
  | asked h => exact .inl (hrests (h.rests hclosed hw))
  | assembled hb roots =>
    exact .inl (hrests (compileSchema_rests hclosed (hw.ne_of_isOpen hclosed hb) roots w hw).1)
  | @lowered schema =>
    have hlower : Ensures (Rests s (w.session s)) (schema.types.mapM (GraphNode.lower host))
        fun bs ↦ ∀ b ∈ bs, True := Ensures.mapM fun n _ ↦ lower_rests hclosed n
    have hlowered := hrests (hlower w hw).1
    rw [runIn_executable]
    rcases hrun : (schema.types.mapM (GraphNode.lower host)).runIn w with ⟨e | types, w₁⟩ <;>
      rw [hrun] at hlowered
    · exact .inl hlowered
    · dsimp only
      split
      · exact .inl hlowered
      · refine .inl (Eq.trans ?_ hlowered)
        show ((w₁.modifySession _ _).session s).cache = _
        rw [session_modifySession]
        split <;> rfl
  | released b o =>
    by_cases hb : b = s
    · exact .inr ⟨o, hb ▸ rfl⟩
    · exact .inl (hrests (hw.modifySession hb _))
  | moved | called => exact .inl rfl

/-! ## Sessions without owners -/

/-- Releasing the last owner of a session drops its field maps. -/
theorem entry_release_of_owners_eq_nil (hs : s < w.sessions.length) {o : Owner}
    (ho : ((w.release s o).session s).owners = []) {t : CacheTable} (ht : t.ofNodes = false)
    (key : TypeKey) : (w.release s o).entry s t key = none := by
  rw [owners_release_self hs] at ho
  have hcache : (w.release s o).cache s = (w.cache s).released := by
    rw [cache, release, session_modifySession_self w _ hs, Session.release, ho]
    rfl
  rw [entry, hcache]
  cases t with
  | objects | inputs | enums | unions | interfaces => cases ht
  | objectFields | interfaceFields | inputFields => rfl

/-- Without owners a session keeps no field maps. -/
def Bared (w : Workspace σ) : Prop :=
  ∀ s, (w.session s).owners = [] → ∀ t : CacheTable, t.ofNodes = false → ∀ key,
    w.entry s t key = none

theorem Step.bared (h : Step d host w w') (hsound : w.Sound d) (hw : w.Bared) : w'.Bared := by
  intro s ho t ht key
  by_contra hne
  obtain ⟨v, hv⟩ := Option.ne_none_iff_exists'.1 hne
  have hlt' := lt_length_of_entry hv
  cases (h.transfers hsound).owners s with
  | kept hs hkept =>
    have hlt := hs hlt'
    have hnil : (w.session s).owners = [] := hkept ▸ ho
    rcases h.cache_of_closed hlt (isOpen_of_owners_eq_nil hnil) with hcache | ⟨o, rfl⟩
    · rw [entry, hcache, ← entry, hw s hnil t ht] at hv
      cases hv
    · rw [entry_release_of_owners_eq_nil hlt ho ht] at hv
      cases hv
  | joined _ _ _ hjoined =>
    rw [hjoined] at ho
    exact List.append_ne_nil_of_right_ne_nil _ (List.cons_ne_nil _ _) ho
  | dropped hs heq =>
    subst heq
    rw [entry_release_of_owners_eq_nil hs ho ht] at hv
    cases hv

/-- **Without owners a session keeps no field maps**, in any workspace of a run. -/
theorem Reachable.bared (h : w.Reachable d host) : w.Bared := by
  obtain ⟨state, h⟩ := h
  induction h with
  | refl =>
    intro s _ t _ key
    cases t <;> rfl
  | tail hsteps hstep ih => exact hstep.bared (Reachable.sound ⟨state, hsteps⟩) ih

end Workspace
end ApiGraph
