import ApiGraph.Proofs.Session.Steps

/-!
# Who owns a session

A session is an owner of itself until it is dropped.  The schemas compiled from it and their
executables are owners in their own right, under serial numbers that are given out once.  So a
session is owned by those, and no others, that have joined its owners in the run and have not been
dropped since.

## What is here

* `Workspace.Joins`: the three ways to become an owner.
* `Owner.IssuedIn`: the owners that have been given their numbers.
* `Workspace.Transfers`: what a step does to the owners of all sessions, with
  `Workspace.Step.transfers`.
* `Workspace.Enlisted`: every owner is listed once, under a number that has been given out;
  `Workspace.Reachable.enlisted`: this holds throughout a run.
* `Workspace.mem_owners_iff_of_steps`: who owns a session.
* `Workspace.Reachable.isOpen_release`: a session that is dropped is closed.
-/

set_option autoImplicit false

namespace ApiGraph

open Relation (ReflTransGen)

variable {σ : Type} {d : Declarations} {host : Host σ} {w w₁ w' v : Workspace σ} {s : SessionId}
  {o : Owner}

/-- The possible owners of a session that have been there: a session has been opened, the others
have been given their numbers. -/
def Owner.IssuedIn (w : Workspace σ) (s : SessionId) : Owner → Prop
  | .session => s < w.sessions.length
  | .schema serial => serial < w.nextSchema
  | .executable serial => serial < w.nextExecutable

namespace Workspace

/-- An owner joins the owners of a session. -/
inductive Joins (d : Declarations) (host : Host σ) (w : Workspace σ) (s : SessionId) :
    Owner → Workspace σ → Prop
  /-- The session is opened. -/
  | session (config : Config) (hs : s = w.sessions.length) :
    Joins d host w s .session (w.openSession config).2
  /-- A schema is compiled from the session. -/
  | schema {roots : List ClassRef} {schema : Schema} {w' : Workspace σ} (hs : w.isOpen s = true)
    (h : (compileSchema host s roots).runIn w = (.ok schema, w')) :
    Joins d host w s (.schema schema.serial) w'
  /-- An executable is built of a schema of the session. -/
  | executable {verdict : EngineVerdict} {schema : Schema} {x : Executable} {w' : Workspace σ}
    (hkept : .schema schema.serial ∈ (w.session schema.session).owners)
    (htypes : ∀ n ∈ schema.types, w.Offers d n) (hs : schema.session = s)
    (h : (schema.executable verdict host).runIn w = (.ok x, w')) :
    Joins d host w s (.executable x.serial) w'

theorem Joins.step (h : w.Joins d host s o w') : Step d host w w' := by
  cases h with
  | session config hs => exact .opened w config
  | @schema roots _ _ hs h =>
    have hstep : Step d host w _ := .assembled hs roots
    rwa [h] at hstep
  | @executable verdict _ _ _ hkept htypes hs h =>
    have hstep : Step d host w _ := .lowered verdict hkept htypes
    rwa [h] at hstep

/-- A session that has an owner has been opened. -/
theorem lt_length_of_mem_owners (h : o ∈ (w.session s).owners) : s < w.sessions.length := by
  by_contra hs
  rw [Workspace.session, List.getElem?_eq_none (Nat.le_of_not_lt hs)] at h
  exact List.not_mem_nil h

/-! ## What a step does to owners -/

/-- What a step does to the owners of a session. -/
inductive OwnersStep (d : Declarations) (host : Host σ) (w w' : Workspace σ) (s : SessionId) : Prop
  | kept (hs : s < w'.sessions.length → s < w.sessions.length)
    (h : (w'.session s).owners = (w.session s).owners)
  | joined {o : Owner} (hjoins : w.Joins d host s o w') (hnew : ¬o.IssuedIn w s)
    (hissued : o.IssuedIn w' s) (h : (w'.session s).owners = (w.session s).owners ++ [o])
  | dropped {o : Owner} (hs : s < w.sessions.length) (h : w' = w.release s o)

/-- What a step does to owners: numbers that have been given out stay so. -/
structure Transfers (d : Declarations) (host : Host σ) (w w' : Workspace σ) : Prop where
  sessions : w.sessions.length ≤ w'.sessions.length
  schemas : w.nextSchema ≤ w'.nextSchema
  executables : w.nextExecutable ≤ w'.nextExecutable
  owners : ∀ s, OwnersStep d host w w' s

theorem Transfers.issued (h : w.Transfers d host w') (ho : o.IssuedIn w s) : o.IssuedIn w' s := by
  cases o with
  | session => exact Nat.lt_of_lt_of_le ho h.sessions
  | schema serial => exact Nat.lt_of_lt_of_le ho h.schemas
  | executable serial => exact Nat.lt_of_lt_of_le ho h.executables

theorem Grows.nextExecutable (h : w.Grows w') : w'.nextExecutable = w.nextExecutable :=
  congrArg (fun b : Workspace Unit ↦ b.nextExecutable) h.bare

theorem Grows.transfers (h : w.Grows w') : w.Transfers d host w' where
  sessions := Nat.le_of_eq h.sessions_length.symm
  schemas := Nat.le_of_eq h.nextSchema.symm
  executables := Nat.le_of_eq h.nextExecutable.symm
  owners s := .kept (h.sessions_length ▸ id) (h.owners s)

/-- An owner that has just got its number joins the owners of a session. -/
theorem Transfers.of_joins (hsame : w.Grows w₁) (hjoins : w.Joins d host s o w')
    (hw' : w'.sessions =
      (w₁.modifySession s fun x ↦ { x with owners := x.owners ++ [o] }).sessions)
    (hschema : w.nextSchema ≤ w'.nextSchema) (hexecutable : w.nextExecutable ≤ w'.nextExecutable)
    (hnew : ¬o.IssuedIn w s) (hissued : o.IssuedIn w' s) : w.Transfers d host w' := by
  have hlength : w'.sessions.length = w.sessions.length := by
    rw [hw', length_modifySession, hsame.sessions_length]
  refine ⟨Nat.le_of_eq hlength.symm, hschema, hexecutable, fun b ↦ ?_⟩
  have hsession : w'.session b =
      (w₁.modifySession s fun x ↦ { x with owners := x.owners ++ [o] }).session b := by
    rw [session, hw', session]
  rw [session_modifySession] at hsession
  split at hsession
  · rename_i hb
    obtain ⟨rfl, -⟩ := hb
    refine .joined hjoins hnew hissued ?_
    rw [hsession, ← hsame.owners s]
  · refine .kept (hlength ▸ id) ?_
    rw [hsession, hsame.owners b]

theorem transfers_openSession (w : Workspace σ) (config : Config) :
    w.Transfers d host (w.openSession config).2 := by
  have hlength : (w.openSession config).2.sessions.length = w.sessions.length + 1 :=
    List.length_append
  refine ⟨hlength ▸ Nat.le_succ _, Nat.le_refl _, Nat.le_refl _, fun b ↦ ?_⟩
  have hsession := session_openSession w config b
  split at hsession
  · rename_i hb
    refine .joined (.session config hb) ?_ ?_ ?_
    · exact Nat.not_lt_of_le (Nat.le_of_eq hb.symm)
    · exact Nat.lt_of_lt_of_eq (hb ▸ Nat.lt_succ_self _) hlength.symm
    · rw [hsession, hb, session_length]
      rfl
  · rename_i hb
    refine .kept (fun hlt ↦ ?_) (congrArg Session.owners hsession)
    rw [hlength] at hlt
    exact Nat.lt_of_le_of_ne (Nat.le_of_lt_succ hlt) hb

theorem owners_release_self (hs : s < w.sessions.length) (o : Owner) :
    ((w.release s o).session s).owners = (w.session s).owners.erase o := by
  rw [release, session_modifySession_self w _ hs]
  rfl

theorem transfers_release (w : Workspace σ) (s : SessionId) (o : Owner) :
    w.Transfers d host (w.release s o) := by
  have hlength : (w.release s o).sessions.length = w.sessions.length := length_modifySession ..
  refine ⟨Nat.le_of_eq hlength.symm, Nat.le_refl _, Nat.le_refl _, fun b ↦ ?_⟩
  by_cases hb : s = b ∧ b < w.sessions.length
  · obtain ⟨rfl, hs⟩ := hb
    exact .dropped hs rfl
  · refine .kept (hlength ▸ id) ?_
    rw [release, session_modifySession, if_neg hb]

theorem transfers_compileSchema (hw : w.Sound d) (hs : w.isOpen s = true)
    (roots : List ClassRef) :
    w.Transfers d host ((compileSchema host s roots).runIn w).2 := by
  have hlt := lt_length_of_isOpen hs
  have hspec : ((compileSchema host s roots).runIn w).2.Sound d ∧ ∀ e,
      ((compileSchema host s roots).runIn w).1 = .error e →
        w.Grows ((compileSchema host s roots).runIn w).2 := compileSchema_spec hw hlt roots
  rcases hrun : (compileSchema host s roots).runIn w with ⟨e | schema, w'⟩ <;> rw [hrun] at hspec
  · exact (hspec.2 e rfl).transfers
  · obtain ⟨-, hserial, w₂, hgrows, rfl⟩ := compileSchema_publishes hw hlt hrun
    refine .of_joins hgrows (.schema hs hrun) rfl ?_ (Nat.le_of_eq hgrows.nextExecutable.symm) ?_
      (Nat.lt_succ_self _)
    · exact Nat.le_trans (Nat.le_of_eq hserial.symm) (Nat.le_succ _)
    · exact Nat.not_lt_of_le (Nat.le_of_eq hserial.symm)

/-- An executable that has been built has the next serial number, and owns the session of its
schema. -/
theorem runIn_executable_ok (hw : w.Sound d) {verdict : EngineVerdict} {schema : Schema}
    (htypes : ∀ n ∈ schema.types, w.Offers d n) {x : Executable}
    (h : (schema.executable verdict host).runIn w = (.ok x, w')) :
    x.serial = w.nextExecutable ∧
      ∃ w₁, w.Grows w₁ ∧ w' = { w₁.modifySession schema.session fun s ↦
        { s with owners := s.owners ++ [.executable x.serial] } with
          nextExecutable := x.serial + 1 } := by
  have hfilled : w.Filled d host _ := filled_mapM_lower hw.coherent htypes
  have hgrows := hfilled.grows
  rw [runIn_executable] at h
  rcases hrun : (schema.types.mapM (GraphNode.lower host)).runIn w with ⟨e | types, w₁⟩ <;>
    rw [hrun] at h hgrows
  · cases h
  · dsimp only at h
    split at h
    · cases h
    · cases h
      exact ⟨hgrows.nextExecutable, w₁, hgrows, rfl⟩

theorem transfers_executable (hw : w.Sound d) {schema : Schema}
    (hkept : .schema schema.serial ∈ (w.session schema.session).owners)
    (htypes : ∀ n ∈ schema.types, w.Offers d n) (verdict : EngineVerdict) :
    w.Transfers d host ((schema.executable verdict host).runIn w).2 := by
  rcases hrun : (schema.executable verdict host).runIn w with ⟨e | x, w'⟩
  · have hfilled : w.Filled d host _ := filled_mapM_lower hw.coherent htypes
    have hgrows := hfilled.grows
    rw [runIn_executable] at hrun
    rcases hlowered : (schema.types.mapM (GraphNode.lower host)).runIn w with ⟨e | types, w₁⟩ <;>
      rw [hlowered] at hrun hgrows
    · cases hrun
      exact hgrows.transfers
    · dsimp only at hrun
      split at hrun
      · cases hrun
        exact hgrows.transfers
      · cases hrun
  · obtain ⟨hserial, w₁, hgrows, rfl⟩ := runIn_executable_ok hw htypes hrun
    refine .of_joins hgrows (.executable hkept htypes rfl hrun) rfl
      (Nat.le_of_eq hgrows.nextSchema.symm) ?_ ?_ (Nat.lt_succ_self _)
    · exact Nat.le_trans (Nat.le_of_eq hserial.symm) (Nat.le_succ _)
    · exact Nat.not_lt_of_le (Nat.le_of_eq hserial.symm)

theorem Step.transfers (h : Step d host w w') (hw : w.Sound d) : w.Transfers d host w' := by
  cases h with
  | opened config => exact transfers_openSession w config
  | @registered s f _ _ =>
    have hlength : (w.modifyRegistries s f).sessions.length = w.sessions.length :=
      length_modifySession ..
    refine ⟨Nat.le_of_eq hlength.symm, Nat.le_refl _, Nat.le_refl _, fun b ↦ ?_⟩
    refine .kept (hlength ▸ id) ?_
    rw [modifyRegistries, session_modifySession]
    split <;> rfl
  | asked hx =>
    obtain ⟨nodes, hsettles⟩ := hx.settles hw.coherent
    exact (hsettles.grows (.refl hw.coherent)).transfers
  | assembled hs roots => exact transfers_compileSchema hw hs roots
  | lowered verdict hkept htypes => exact transfers_executable hw hkept htypes verdict
  | released s o => exact transfers_release w s o
  | moved state => exact (Grows.ofHost w state).transfers
  | called => exact (Grows.ofCall w _).transfers

/-! ## Every owner is listed once -/

/-- Every owner is listed once, and has been given its number. -/
structure Enlisted (w : Workspace σ) : Prop where
  nodup : ∀ s, (w.session s).owners.Nodup
  issued : ∀ s, ∀ o ∈ (w.session s).owners, o.IssuedIn w s

theorem Transfers.enlisted (h : w.Transfers d host w') (hw : w.Enlisted) : w'.Enlisted := by
  refine ⟨fun s ↦ ?_, fun s o ho ↦ ?_⟩
  · cases h.owners s with
    | kept _ h =>
      rw [h]
      exact hw.nodup s
    | @joined o _ hnew _ h =>
      rw [h]
      refine List.nodup_append'.2 ⟨hw.nodup s, List.nodup_singleton o, fun x hx hxo ↦ ?_⟩
      rw [List.mem_singleton.1 hxo] at hx
      exact hnew (hw.issued s o hx)
    | dropped hs h =>
      rw [h, owners_release_self hs]
      exact (hw.nodup s).erase _
  · cases h.owners s with
    | kept _ hs => exact h.issued (hw.issued s o (hs ▸ ho))
    | joined _ _ hissued hs =>
      rcases List.mem_append.1 (hs ▸ ho) with ho | ho
      · exact h.issued (hw.issued s o ho)
      · exact List.mem_singleton.1 ho ▸ hissued
    | dropped hlt hs =>
      rw [hs, owners_release_self hlt] at ho
      exact h.issued (hw.issued s o (List.mem_of_mem_erase ho))

theorem Reachable.enlisted (h : w.Reachable d host) : w.Enlisted := by
  obtain ⟨state, h⟩ := h
  induction h with
  | refl => exact ⟨fun s ↦ List.nodup_nil, fun s o ho ↦ absurd ho List.not_mem_nil⟩
  | tail hsteps hstep ih => exact (hstep.transfers (Reachable.sound ⟨state, hsteps⟩)).enlisted ih

/-- Dropping an owner takes it off the list. -/
theorem Reachable.not_mem_owners_release (h : w.Reachable d host) (hs : s < w.sessions.length)
    (o : Owner) : o ∉ ((w.release s o).session s).owners := by
  rw [owners_release_self hs]
  exact (h.enlisted.nodup s).not_mem_erase

/-- **A session that is dropped is closed.** -/
theorem Reachable.isOpen_release (h : w.Reachable d host) (hs : s < w.sessions.length) :
    (w.release s .session).isOpen s = false := by
  rw [isOpen, Session.isOpen, List.contains_eq_mem]
  exact decide_eq_false (h.not_mem_owners_release hs .session)

/-! ## Owners come and go -/

/-- Whoever joins the owners is one of them. -/
theorem Joins.mem_owners (h : w.Joins d host s o w') (hw : w.Sound d) :
    o ∈ (w'.session s).owners := by
  cases h with
  | session config hs =>
    rw [session_openSession, if_pos hs]
    exact List.mem_singleton_self _
  | @schema roots schema _ hs h =>
    have hlt := lt_length_of_isOpen hs
    obtain ⟨-, -, w₂, hgrows, rfl⟩ := compileSchema_publishes hw hlt h
    have hlength : w₂.sessions.length = w.sessions.length := hgrows.sessions_length
    rw [session_publish, if_pos ⟨rfl, hlength ▸ hlt⟩]
    exact List.mem_append_right _ (List.mem_singleton_self _)
  | @executable _ schema x _ hkept htypes hs h =>
    obtain ⟨-, w₁, hgrows, rfl⟩ := runIn_executable_ok hw htypes h
    subst hs
    have hlt : schema.session < w₁.sessions.length :=
      hgrows.sessions_length ▸ lt_length_of_mem_owners hkept
    have hsession := session_modifySession_self w₁
      (fun s ↦ { s with owners := s.owners ++ [.executable x.serial] }) hlt
    rw [Workspace.session] at hsession
    rw [Workspace.session, hsession]
    exact List.mem_append_right _ (List.mem_singleton_self _)

/-- An owner goes by being dropped. -/
theorem mem_owners_of_steps (h : ReflTransGen (Step d host) w v) (hw : w.Sound d)
    (ho : o ∈ (w.session s).owners) :
    o ∈ (v.session s).owners ∨ ∃ u, ReflTransGen (Step d host) w u ∧
      o ∈ (u.session s).owners ∧ ReflTransGen (Step d host) (u.release s o) v := by
  induction h with
  | refl => exact .inl ho
  | @tail u u' hsteps hstep ih =>
    rcases ih with ih | ⟨x, hx, hmem, hx'⟩
    · cases (hstep.transfers (follows_of_steps hsteps hw).1).owners s with
      | kept _ h => exact .inl (h ▸ ih)
      | joined _ _ _ h => exact .inl (h ▸ List.mem_append_left _ ih)
      | @dropped o' hs h =>
        by_cases heq : o = o'
        · subst heq
          exact .inr ⟨u, hsteps, ih, h ▸ .refl⟩
        · refine .inl ?_
          rw [h, owners_release_self hs]
          exact (List.mem_erase_of_ne heq).2 ih
    · exact .inr ⟨x, hx, hmem, hx'.tail hstep⟩

/-- An owner that is gone is gone for good. -/
theorem not_mem_owners_of_steps (h : ReflTransGen (Step d host) w v) (hw : w.Sound d)
    (hissued : o.IssuedIn w s) (ho : o ∉ (w.session s).owners) : o ∉ (v.session s).owners := by
  suffices h : o.IssuedIn v s ∧ o ∉ (v.session s).owners from h.2
  induction h with
  | refl => exact ⟨hissued, ho⟩
  | @tail u u' hsteps hstep ih =>
    have htransfers := hstep.transfers (follows_of_steps hsteps hw).1
    refine ⟨htransfers.issued ih.1, fun hmem ↦ ih.2 ?_⟩
    cases htransfers.owners s with
    | kept _ h => exact h ▸ hmem
    | joined _ hnew _ h =>
      rcases List.mem_append.1 (h ▸ hmem) with hmem | hmem
      · exact hmem
      · exact absurd (List.mem_singleton.1 hmem ▸ ih.1) hnew
    | dropped hs h =>
      rw [h, owners_release_self hs] at hmem
      exact List.mem_of_mem_erase hmem

/-- An owner has joined the owners. -/
theorem joined_of_mem_owners (h : ReflTransGen (Step d host) w v) (hw : w.Sound d)
    (ho : o ∈ (v.session s).owners) :
    o ∈ (w.session s).owners ∨ ∃ u u', ReflTransGen (Step d host) w u ∧
      u.Joins d host s o u' ∧ ReflTransGen (Step d host) u' v := by
  induction h with
  | refl => exact .inl ho
  | @tail u u' hsteps hstep ih =>
    have hlater (hmem : o ∈ (u.session s).owners) := (ih hmem).imp_right
      fun ⟨x, x', hx, hjoins, hx'⟩ ↦
        (⟨x, x', hx, hjoins, hx'.tail hstep⟩ : ∃ x x', ReflTransGen (Step d host) w x ∧
          x.Joins d host s o x' ∧ ReflTransGen (Step d host) x' u')
    cases (hstep.transfers (follows_of_steps hsteps hw).1).owners s with
    | kept _ h => exact hlater (h ▸ ho)
    | joined hjoins _ _ h =>
      rcases List.mem_append.1 (h ▸ ho) with ho | ho
      · exact hlater ho
      · cases List.mem_singleton.1 ho
        exact .inr ⟨u, u', hsteps, hjoins, .refl⟩
    | dropped hs h =>
      rw [h, owners_release_self hs] at ho
      exact hlater (List.mem_of_mem_erase ho)

/-- **Who owns a session.**  In every run, a session is owned by those who have joined its owners
and have not been dropped: by itself once it has been opened, by the schemas compiled from it, by
the executables built of these, and by nobody else. -/
theorem mem_owners_iff_of_steps {state : σ}
    (h : ReflTransGen (Step d host) { host := state } v) (s : SessionId) (o : Owner) :
    o ∈ (v.session s).owners ↔
      (∃ u u', ReflTransGen (Step d host) { host := state } u ∧ u.Joins d host s o u' ∧
        ReflTransGen (Step d host) u' v) ∧
      ¬∃ u, ReflTransGen (Step d host) { host := state } u ∧ o ∈ (u.session s).owners ∧
        ReflTransGen (Step d host) (u.release s o) v := by
  constructor
  · intro ho
    refine ⟨(joined_of_mem_owners h (.initial state) ho).resolve_left List.not_mem_nil, ?_⟩
    rintro ⟨u, hu, hmem, hv⟩
    have hreachable : u.Reachable d host := ⟨state, hu⟩
    have hissued := hreachable.enlisted.issued s o hmem
    have htransfers : u.Transfers d host (u.release s o) := transfers_release u s o
    exact not_mem_owners_of_steps hv (hreachable.sound.release s o) (htransfers.issued hissued)
      (hreachable.not_mem_owners_release (lt_length_of_mem_owners hmem) o) ho
  · rintro ⟨⟨u, u', hu, hjoins, hu'⟩, hnot⟩
    have hreachable : u.Reachable d host := ⟨state, hu⟩
    have hsound := hjoins.step.sound hreachable.sound
    refine (mem_owners_of_steps hu' hsound (hjoins.mem_owners hreachable.sound)).resolve_right ?_
    rintro ⟨x, hx, hmem, hv⟩
    exact hnot ⟨x, (hu.tail hjoins.step).trans hx, hmem, hv⟩

end Workspace
end ApiGraph
