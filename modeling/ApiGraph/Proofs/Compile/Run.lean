import ApiGraph.Proofs.Workspace

/-!
# Running a compilation

A computation over a workspace is a function: it takes a workspace to an outcome and to the
workspace that it leaves.  The lemmas here say what this function is for each of the ways in which
computations are put together, so that nothing later has to look inside the monad.

## What is here

* `Compile.runIn`: a computation as a function, with an equation for each primitive.
* `Compile.runIn_bind_eq_ok`, `Compile.runIn_bind_eq_error`: a sequence that succeeds, or fails,
  taken apart.
* `Compile.runIn_mapM_of_forall₂`: a list of computations that change nothing.
-/

set_option autoImplicit false

namespace ApiGraph
namespace Compile

variable {σ α β : Type}

/-- The outcome of a computation, and the workspace that it leaves. -/
def runIn (c : Compile σ α) (w : Workspace σ) : Except CompileError α × Workspace σ := c.outcome w

@[simp] theorem runIn_pure (a : α) (w : Workspace σ) :
    (pure a : Compile σ α).runIn w = (.ok a, w) := rfl

@[simp] theorem runIn_throw (e : CompileError) (w : Workspace σ) :
    (throw e : Compile σ α).runIn w = (.error e, w) := rfl

@[simp] theorem runIn_get (w : Workspace σ) :
    (get : Compile σ (Workspace σ)).runIn w = (.ok w, w) := rfl

@[simp] theorem runIn_modify (f : Workspace σ → Workspace σ) (w : Workspace σ) :
    (modify f : Compile σ Unit).runIn w = (.ok (), f w) := rfl

@[simp] theorem runIn_mk_pure (r : Except CompileError α) (w : Workspace σ) :
    runIn (ExceptT.mk (pure r)) w = (r, w) := rfl

@[simp] theorem runIn_ofHost (step : StateM σ α) (w : Workspace σ) :
    (ofHost step).runIn w = (.ok (step w.host).1, { w with host := (step w.host).2 }) := rfl

theorem runIn_bind (x : Compile σ α) (f : α → Compile σ β) (w : Workspace σ) :
    (x >>= f).runIn w =
      match x.runIn w with
      | (.ok a, w') => (f a).runIn w'
      | (.error e, w') => (.error e, w') := by
  show (ExceptT.bindCont f (x.outcome w).1) (x.outcome w).2 = _
  rw [runIn]
  rcases x.outcome w with ⟨r, w'⟩
  cases r <;> rfl

theorem runIn_bind_of_ok {x : Compile σ α} {f : α → Compile σ β} {w w' : Workspace σ} {a : α}
    (h : x.runIn w = (.ok a, w')) : (x >>= f).runIn w = (f a).runIn w' := by
  rw [runIn_bind, h]

theorem runIn_bind_of_error {x : Compile σ α} {f : α → Compile σ β} {w w' : Workspace σ}
    {e : CompileError} (h : x.runIn w = (.error e, w')) : (x >>= f).runIn w = (.error e, w') := by
  rw [runIn_bind, h]

@[simp] theorem runIn_get_bind (f : Workspace σ → Compile σ β) (w : Workspace σ) :
    (get >>= f).runIn w = (f w).runIn w := rfl

theorem runIn_map (f : α → β) (x : Compile σ α) (w : Workspace σ) :
    (f <$> x).runIn w = ((x.runIn w).1.map f, (x.runIn w).2) := by
  rw [← bind_pure_comp, runIn_bind]
  rcases x.runIn w with ⟨r, w'⟩
  cases r <;> rfl

theorem runIn_tryCatch (x : Compile σ α) (f : CompileError → Compile σ α) (w : Workspace σ) :
    (tryCatch x f).runIn w =
      match x.runIn w with
      | (.ok a, w') => (.ok a, w')
      | (.error e, w') => (f e).runIn w' := by
  rcases hx : x.runIn w with ⟨r, w'⟩
  simp only [runIn, outcome, ExceptT.run] at hx ⊢
  simp only [tryCatch, tryCatchThe, MonadExceptOf.tryCatch, ExceptT.tryCatch, ExceptT.mk, bind,
    StateT.bind, hx]
  cases r <;> rfl

theorem runIn_tryCatch_of_ok {x : Compile σ α} {f : CompileError → Compile σ α}
    {w w' : Workspace σ} {a : α} (h : x.runIn w = (.ok a, w')) :
    (tryCatch x f).runIn w = (.ok a, w') := by
  rw [runIn_tryCatch, h]

theorem runIn_tryCatch_of_error {x : Compile σ α} {f : CompileError → Compile σ α}
    {w w' : Workspace σ} {e : CompileError} (h : x.runIn w = (.error e, w')) :
    (tryCatch x f).runIn w = (f e).runIn w' := by
  rw [runIn_tryCatch, h]

/-- If a failure is only replaced by another one, a success is no recovery. -/
theorem runIn_eq_ok_of_tryCatch {x : Compile σ α} {g : CompileError → CompileError}
    {w w' : Workspace σ} {a : α}
    (h : (tryCatch x fun e ↦ throw (g e)).runIn w = (.ok a, w')) : x.runIn w = (.ok a, w') := by
  rw [runIn_tryCatch] at h
  split at h
  · rename_i hx
    rw [hx, h]
  · cases h

theorem runIn_requireOpen (s : SessionId) (w : Workspace σ) :
    (requireOpen s : Compile σ Unit).runIn w =
      (if w.isOpen s then .ok () else .error .sessionDropped, w) := by
  rw [requireOpen, runIn_get_bind]
  split <;> rfl

/-- What is there already is given back. -/
theorem runIn_remember_of_entry {s : SessionId} {t : CacheTable} {key : TypeKey}
    {make : Compile σ t.Value} {w : Workspace σ} {v : t.Value} (h : w.entry s t key = some v) :
    (remember s t key make).runIn w = (.ok v, w) := by
  rw [Workspace.entry] at h
  rw [remember, runIn_get_bind, h]
  rfl

/-- What is not there is made; what has been made is kept. -/
theorem runIn_remember_of_none {s : SessionId} {t : CacheTable} {key : TypeKey}
    {make : Compile σ t.Value} {w : Workspace σ} (h : w.entry s t key = none) :
    (remember s t key make).runIn w =
      match make.runIn w with
      | (.ok v, w') => (.ok v, w'.keep s t key v)
      | (.error e, w') => (.error e, w') := by
  rw [Workspace.entry] at h
  rw [remember, runIn_get_bind, h]
  simp only [runIn_bind, runIn_modify, runIn_pure]
  rcases make.runIn w with ⟨_ | v, w'⟩ <;> rfl

theorem fst_runIn_remember_of_none {s : SessionId} {t : CacheTable} {key : TypeKey}
    {make : Compile σ t.Value} {w : Workspace σ} (h : w.entry s t key = none) :
    ((remember s t key make).runIn w).1 = (make.runIn w).1 := by
  rw [runIn_remember_of_none h]
  rcases make.runIn w with ⟨_ | v, w'⟩ <;> rfl

/-- What is not there and would need an open session is not given once the session is closed. -/
theorem runIn_remember_of_closed {s : SessionId} {t : CacheTable} {key : TypeKey}
    {make : Compile σ t.Value} {w : Workspace σ} (h : w.entry s t key = none)
    (hs : w.isOpen s = false) :
    (remember s t key (do requireOpen s; make)).runIn w = (.error .sessionDropped, w) := by
  have hrequire : (requireOpen s : Compile σ Unit).runIn w = (.error .sessionDropped, w) := by
    rw [runIn_requireOpen, if_neg (Bool.eq_false_iff.1 hs)]
  rw [runIn_remember_of_none h, runIn_bind_of_error hrequire]

/-- What has been given is there from then on. -/
theorem entry_of_runIn_remember {s : SessionId} {t : CacheTable} {key : TypeKey}
    {make : Compile σ t.Value} {w w' : Workspace σ} {v : t.Value}
    (h : (remember s t key make).runIn w = (.ok v, w')) (hs : s < w'.sessions.length) :
    w'.entry s t key = some v := by
  cases hentry : w.entry s t key with
  | some u =>
    rw [runIn_remember_of_entry hentry] at h
    cases h
    exact hentry
  | none =>
    rw [runIn_remember_of_none hentry] at h
    rcases hm : make.runIn w with ⟨_ | u, w₁⟩ <;> rw [hm] at h <;> cases h
    exact w₁.entry_keep_self ((w₁.length_modifySession s _).symm ▸ hs) t key v

/-! ## Sequences that succeed, and sequences that fail -/

theorem runIn_bind_eq_ok {x : Compile σ α} {f : α → Compile σ β} {w w' : Workspace σ} {b : β}
    (h : (x >>= f).runIn w = (.ok b, w')) :
    ∃ a w₁, x.runIn w = (.ok a, w₁) ∧ (f a).runIn w₁ = (.ok b, w') := by
  rw [runIn_bind] at h
  rcases hx : x.runIn w with ⟨_ | a, w₁⟩ <;> rw [hx] at h
  · cases h
  · exact ⟨a, w₁, rfl, h⟩

/-- A sequence that fails, taken apart: its beginning fails, or what comes next. -/
theorem runIn_bind_eq_error {x : Compile σ α} {f : α → Compile σ β} {w : Workspace σ}
    {e : CompileError} (h : ((x >>= f).runIn w).1 = .error e) :
    (x.runIn w).1 = .error e ∨
      ∃ a w₁, x.runIn w = (.ok a, w₁) ∧ ((f a).runIn w₁).1 = .error e := by
  rw [runIn_bind] at h
  rcases hx : x.runIn w with ⟨e' | a, w₁⟩ <;> rw [hx] at h
  · cases h
    exact .inl rfl
  · exact .inr ⟨a, w₁, rfl, h⟩

/-- Computations that all succeed and change nothing do so one after the other. -/
theorem runIn_mapM_of_forall₂ {f : α → Compile σ β} {w : Workspace σ} {l : List α} {bs : List β}
    (h : List.Forall₂ (fun a b ↦ (f a).runIn w = (.ok b, w)) l bs) :
    (l.mapM f).runIn w = (.ok bs, w) := by
  induction h with
  | nil => rfl
  | cons ha _ ih => rw [List.mapM_cons, runIn_bind_of_ok ha, runIn_bind_of_ok ih, runIn_pure]

end Compile

theorem except_bind_eq_ok {ε α β : Type} {x : Except ε α} {f : α → Except ε β} {b : β}
    (h : x >>= f = .ok b) : ∃ a, x = .ok a ∧ f a = .ok b := by
  cases x with
  | error e => cases h
  | ok a => exact ⟨a, rfl, h⟩

/-- What each step of a fold that can fail preserves holds at the end, and what each failure of a
step is, a failure of the fold is. -/
theorem foldlM_invariant {ε α β : Type} {f : β → α → Except ε β} {p : β → Prop} {q : ε → Prop}
    {l : List α} (hok : ∀ b, ∀ a ∈ l, p b → ∀ b', f b a = .ok b' → p b')
    (herr : ∀ b, ∀ a ∈ l, ∀ e, f b a = .error e → q e) {b : β} (hb : p b) :
    (∀ b', l.foldlM f b = .ok b' → p b') ∧ ∀ e, l.foldlM f b = .error e → q e := by
  induction l generalizing b with
  | nil => exact ⟨fun b' h ↦ Except.ok.inj h ▸ hb, nofun⟩
  | cons a rest ih =>
    rw [List.foldlM_cons]
    cases hf : f b a with
    | error e =>
      exact ⟨nofun, fun e' h ↦ Except.error.inj h ▸ herr b a List.mem_cons_self e hf⟩
    | ok b' =>
      exact ih (fun b x hx ↦ hok b x (List.mem_cons_of_mem _ hx))
        (fun b x hx ↦ herr b x (List.mem_cons_of_mem _ hx))
        (hok b a List.mem_cons_self hb b' hf)

end ApiGraph
