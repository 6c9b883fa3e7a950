import ApiGraph.Proofs.Compile.Coherent
import ApiGraph.Proofs.Compile.Run

/-!
# Answers that do not depend on what was asked before

Compiling fills tables, and what it finds in a table it does not make again.  The order of requests
would show if an answer made late differed from one made early.  It does not.  Fix a coherent
workspace and let it be asked anything: whatever has been entered in the meantime is what the fixed
workspace would answer itself (`Workspace.Filled`), so every computation gives the outcome that it
would have given there (`Compile.Settles`).

## What is here

* `Workspace.Answers`: what a workspace gives for an entry of a table, if asked for it now.
* `Workspace.Filled`: a coherent workspace with more of its own answers in its tables.
* `Compile.Settles`: a computation has one outcome in every filled workspace, fills it further, and
  refers to nodes that are offered; with a rule for each way of putting computations together.
* `Compile.Settles.remember`: the rule for tables.
-/

set_option autoImplicit false

namespace ApiGraph

variable {σ : Type}

namespace Workspace

/-- What a workspace gives for an entry of a table, if asked for it now. -/
def Answers (d : Declarations) (host : Host σ) (w : Workspace σ) (s : SessionId) :
    (t : CacheTable) → TypeKey → t.Value → Prop
  | .objects, key, n => ∃ c, d.classes c ∧ c.key = key ∧ ((compileObject s c).runIn w).1 = .ok n
  | .inputs, key, n => ∃ c, d.classes c ∧ c.key = key ∧ ((compileInput s c).runIn w).1 = .ok n
  | .enums, key, n => ∃ e, d.enums e ∧ e.key = key ∧ ((compileEnum s e).runIn w).1 = .ok n
  | .unions, key, n => ∃ c, d.classes c ∧ c.key = key ∧ ((compileUnion s c).runIn w).1 = .ok n
  | .interfaces, key, n =>
    ∃ c, d.classes c ∧ c.key = key ∧ ((compileInterface s c).runIn w).1 = .ok n
  | .objectFields, key, fields => ∀ c n, d.classes c → c.key = key →
    n.id = .compiled s .object key → n.cls = some c →
    ((compileObject s c).runIn w).1 = .ok n → ((n.fields host).runIn w).1 = .ok fields
  | .interfaceFields, key, fields => ∀ c n, d.classes c → c.key = key →
    n.id = .compiled s .interface key → n.cls = c →
    ((compileInterface s c).runIn w).1 = .ok n → ((n.fields host).runIn w).1 = .ok fields
  | .inputFields, key, fields => ∀ c n, d.classes c → c.key = key →
    n.id = .compiled s .input key → n.cls = c →
    ((compileInput s c).runIn w).1 = .ok n → ((n.fields host).runIn w).1 = .ok fields

/-- A coherent workspace that has become of another by entering what the other would answer. -/
structure Filled (d : Declarations) (host : Host σ) (w₀ w : Workspace σ) : Prop where
  grows : w₀.Grows w
  coherent : w.Coherent d
  answered : ∀ {s : SessionId} {t : CacheTable} {key : TypeKey} {v : t.Value},
    w.entry s t key = some v → w₀.Answers d host s t key v

/-- Entering an answer fills a workspace further. -/
theorem Filled.keep {d : Declarations} {host : Host σ} {w₀ w : Workspace σ}
    (hw : w₀.Filled d host w) {s : SessionId} {t : CacheTable} {key : TypeKey} {v : t.Value}
    (hs : s < w₀.sessions.length) (hans : w₀.Answers d host s t key v)
    (hu : ∀ u, w.entry s t key = some u → u = v) (hv : w.Proper d s t key v) :
    w₀.Filled d host (w.keep s t key v) where
  grows := hw.grows.trans (.keep hu)
  coherent := hw.coherent.keep hu hv
  answered {b u other x} hx := by
    by_cases heq : s = b ∧ t = u ∧ key = other
    · obtain ⟨rfl, rfl, rfl⟩ := heq
      rw [w.entry_keep_self (hw.grows.sessions_length ▸ hs)] at hx
      exact Option.some.inj hx ▸ hans
    · exact hw.answered (w.entry_keep_of_ne heq v ▸ hx)

end Workspace

namespace Compile

/-- A computation has one outcome in all filled workspaces.  It leaves a filled workspace; what it
succeeds with is good and refers to nodes that are offered, if those of a list were offered to it;
and it does not fail as only the assembly of a schema does. -/
def Settles {α : Type} (d : Declarations) (host : Host σ) (w₀ : Workspace σ)
    (given : List GraphNode) (x : Compile σ α) (nodes : α → List GraphNode)
    (good : α → Prop := fun _ ↦ True) : Prop :=
  ∃ r : Except CompileError α,
    (∀ e, r = .error e → ∀ fault, e ≠ .assembly fault) ∧
    (∀ a, r = .ok a → good a) ∧
    ∀ w, w₀.Filled d host w →
      (x.runIn w).1 = r ∧ w₀.Filled d host (x.runIn w).2 ∧ w.Grows (x.runIn w).2 ∧
        ((∀ n ∈ given, w.Offers d n) → ∀ a, r = .ok a → ∀ n ∈ nodes a, (x.runIn w).2.Offers d n)

namespace Settles

variable {α β : Type} {d : Declarations} {host : Host σ} {w₀ : Workspace σ}
  {given : List GraphNode} {nodes : α → List GraphNode} {good : α → Prop}

protected theorem pure {a : α} (hn : ∀ n ∈ nodes a, n ∈ given ∨ w₀.Offers d n) (ha : good a) :
    Settles d host w₀ given (pure a : Compile σ α) nodes good := by
  refine ⟨.ok a, nofun, fun b hb ↦ Except.ok.inj hb ▸ ha, fun w hw ↦ ⟨rfl, hw, .refl w, ?_⟩⟩
  intro hg b hb n hb'
  cases hb
  exact (hn n hb').elim (hg n) (Workspace.Offers.mono hw.grows)

/-- A value that refers to no node. -/
protected theorem value {a : α} (hn : nodes a = []) (ha : good a) :
    Settles d host w₀ given (pure a : Compile σ α) nodes good :=
  .pure (fun _ h ↦ absurd (hn ▸ h) List.not_mem_nil) ha

protected theorem throw {e : CompileError} (he : ∀ fault, e ≠ .assembly fault) :
    Settles d host w₀ given (throw e : Compile σ α) nodes good :=
  ⟨.error e, fun _ h ↦ Except.error.inj h ▸ he, nofun, fun w hw ↦ ⟨rfl, hw, .refl w, nofun⟩⟩

/-- What is known of the outcome may be forgotten, and more may be given. -/
theorem weaken {x : Compile σ α} {given' : List GraphNode} {nodes' : α → List GraphNode}
    {good' : α → Prop} (h : Settles d host w₀ given x nodes good)
    (hgiven : ∀ n ∈ given, n ∈ given') (hnodes : ∀ a, ∀ n ∈ nodes' a, n ∈ nodes a)
    (hgood : ∀ a, good a → good' a) : Settles d host w₀ given' x nodes' good' := by
  obtain ⟨r, he, ha, hr⟩ := h
  refine ⟨r, he, fun a h ↦ hgood a (ha a h), fun w hw ↦ ?_⟩
  obtain ⟨h1, h2, h3, h4⟩ := hr w hw
  exact ⟨h1, h2, h3, fun hg a h n hn ↦ h4 (fun m hm ↦ hg m (hgiven m hm)) a h n (hnodes a n hn)⟩

theorem bind {x : Compile σ α} {f : α → Compile σ β} {nodes' : β → List GraphNode}
    {good' : β → Prop} (hx : Settles d host w₀ given x nodes good)
    (hf : ∀ a, good a → Settles d host w₀ (nodes a ++ given) (f a) nodes' good') :
    Settles d host w₀ given (x >>= f) nodes' good' := by
  obtain ⟨r, he, ha, hr⟩ := hx
  cases r with
  | error e =>
    refine ⟨.error e, fun _ h ↦ Except.error.inj h ▸ he e rfl, nofun, fun w hw ↦ ?_⟩
    obtain ⟨h1, h2, h3, -⟩ := hr w hw
    rw [runIn_bind_of_error (Prod.ext h1 rfl)]
    exact ⟨rfl, h2, h3, nofun⟩
  | ok a =>
    obtain ⟨r', he', ha', hr'⟩ := hf a (ha a rfl)
    refine ⟨r', he', ha', fun w hw ↦ ?_⟩
    obtain ⟨h1, h2, h3, h4⟩ := hr w hw
    rw [runIn_bind_of_ok (Prod.ext h1 rfl)]
    obtain ⟨h1', h2', h3', h4'⟩ := hr' _ h2
    refine ⟨h1', h2', h3.trans h3', fun hg ↦ h4' fun n hn ↦ ?_⟩
    rcases List.mem_append.1 hn with hn | hn
    · exact h4 hg a rfl n hn
    · exact (hg n hn).mono h3

theorem map {x : Compile σ α} {f : α → β} {nodes' : β → List GraphNode} {good' : β → Prop}
    (hx : Settles d host w₀ given x nodes good) (hnodes : ∀ a, ∀ n ∈ nodes' (f a), n ∈ nodes a)
    (hgood : ∀ a, good a → good' (f a)) : Settles d host w₀ given (f <$> x) nodes' good' := by
  rw [← bind_pure_comp]
  exact hx.bind fun a ha ↦
    .pure (fun n hn ↦ .inl (List.mem_append_left _ (hnodes a n hn))) (hgood a ha)

/-- Whatever is read of the workspace is the same in all filled ones. -/
theorem get {f : Workspace σ → Compile σ α} (hf : ∀ w, w₀.Grows w → f w = f w₀)
    (h : Settles d host w₀ given (f w₀) nodes good) :
    Settles d host w₀ given (get >>= f) nodes good := by
  obtain ⟨r, he, ha, hr⟩ := h
  refine ⟨r, he, ha, fun w hw ↦ ?_⟩
  rw [runIn_get_bind, hf w hw.grows]
  exact hr w hw

theorem mk_pure {r : Except CompileError α} (he : ∀ e, r = .error e → ∀ fault, e ≠ .assembly fault)
    (hn : ∀ a, r = .ok a → ∀ n ∈ nodes a, n ∈ given ∨ w₀.Offers d n)
    (ha : ∀ a, r = .ok a → good a) :
    Settles d host w₀ given (ExceptT.mk (pure r)) nodes good := by
  cases r with
  | ok a => exact .pure (hn a rfl) (ha a rfl)
  | error e => exact .throw (he e rfl)

/-- A step of the program whose outcome does not depend on the state of the program. -/
theorem ofHost {step : StateM σ α} (h : ∃ a, ∀ s, (step s).1 = a) :
    Settles d host w₀ given (Compile.ofHost step) fun _ ↦ [] := by
  obtain ⟨a, h⟩ := h
  refine ⟨.ok a, nofun, fun _ _ ↦ trivial, fun w hw ↦ ?_⟩
  have hg : w.Grows { w with host := (step w.host).2 } := .ofHost w _
  rw [runIn_ofHost, h]
  exact ⟨rfl, ⟨hw.grows.trans hg, hw.coherent.ofHost _, hw.answered⟩, hg, fun _ _ _ _ hn ↦
    absurd hn List.not_mem_nil⟩

/-- A failure may be replaced by another one. -/
theorem tryCatch_throw {x : Compile σ α} {g : CompileError → CompileError}
    (hx : Settles d host w₀ given x nodes good)
    (hg : ∀ e, (∀ fault, e ≠ .assembly fault) → ∀ fault, g e ≠ .assembly fault) :
    Settles d host w₀ given (tryCatch x fun e ↦ throw (g e)) nodes good := by
  obtain ⟨r, he, ha, hr⟩ := hx
  cases r with
  | ok a =>
    refine ⟨.ok a, nofun, ha, fun w hw ↦ ?_⟩
    obtain ⟨h1, h⟩ := hr w hw
    rw [runIn_tryCatch_of_ok (Prod.ext h1 rfl)]
    exact ⟨rfl, h⟩
  | error e =>
    refine ⟨.error (g e), fun _ h ↦ Except.error.inj h ▸ hg e (he e rfl), nofun, fun w hw ↦ ?_⟩
    obtain ⟨h1, h2, h3, -⟩ := hr w hw
    rw [runIn_tryCatch_of_error (Prod.ext h1 rfl)]
    exact ⟨rfl, h2, h3, nofun⟩

theorem mapM {f : α → Compile σ β} {nodes' : β → List GraphNode} {good' : β → Prop} {l : List α}
    (h : ∀ a ∈ l, Settles d host w₀ [] (f a) nodes' good') :
    Settles d host w₀ given (l.mapM f) (fun bs ↦ bs.flatMap nodes')
      (fun bs ↦ bs.length = l.length ∧ ∀ b ∈ bs, good' b) := by
  induction l generalizing given with
  | nil => exact .pure (fun n hn ↦ absurd hn List.not_mem_nil) ⟨rfl, nofun⟩
  | cons a rest ih =>
    rw [List.mapM_cons]
    have ha : Settles d host w₀ given (f a) nodes' good' :=
      (h a List.mem_cons_self).weaken (List.forall_mem_nil _) (fun _ _ ↦ id) (fun _ ↦ id)
    refine ha.bind fun b hb ↦ ?_
    refine (ih fun a ha ↦ h a (List.mem_cons_of_mem _ ha)).bind fun bs hbs ↦ ?_
    refine .pure (fun n hn ↦ .inl ?_) ⟨congrArg (· + 1) hbs.1, ?_⟩
    · rcases List.mem_append.1 (List.flatMap_cons ▸ hn) with hn | hn
      · exact List.mem_append_right _ (List.mem_append_left _ hn)
      · exact List.mem_append_left _ hn
    · intro c hc
      rcases List.mem_cons.1 hc with rfl | hc
      · exact hb
      · exact hbs.2 c hc

/-- What is known of each computation of a list when it has succeeded, and does not get lost, is
known of all of them in the end. -/
theorem forall₂_of_runIn_mapM {f : α → Compile σ β} {nodes' : β → List GraphNode}
    {good' : β → Prop} {p : α → β → Workspace σ → Prop} {l : List α}
    (h : ∀ a ∈ l, Settles d host w₀ [] (f a) nodes' good')
    (hp : ∀ a ∈ l, ∀ w b w', w₀.Filled d host w → (f a).runIn w = (.ok b, w') → p a b w')
    (hg : ∀ a b w w', w.Grows w' → p a b w → p a b w') {bs : List β} {w w' : Workspace σ}
    (hw : w₀.Filled d host w) (hrun : (l.mapM f).runIn w = (.ok bs, w')) :
    w.Grows w' ∧ List.Forall₂ (fun a b ↦ p a b w') l bs := by
  induction l generalizing bs w with
  | nil =>
    cases hrun
    exact ⟨.refl _, .nil⟩
  | cons a rest ih =>
    rw [List.mapM_cons] at hrun
    obtain ⟨b, w₁, hb, hrun⟩ := runIn_bind_eq_ok hrun
    obtain ⟨bs', w₂, hbs, hrun⟩ := runIn_bind_eq_ok hrun
    cases hrun
    obtain ⟨r, -, -, hr⟩ := h a List.mem_cons_self
    obtain ⟨-, hfilled, hgrows, -⟩ := hr w hw
    rw [hb] at hfilled hgrows
    obtain ⟨hgrows', hrest⟩ := ih (fun x hx ↦ h x (List.mem_cons_of_mem _ hx))
      (fun x hx ↦ hp x (List.mem_cons_of_mem _ hx)) hfilled hbs
    exact ⟨hgrows.trans hgrows',
      .cons (hg a b _ _ hgrows' (hp a List.mem_cons_self w b _ hw hb)) hrest⟩

theorem requireOpen (s : SessionId) :
    Settles d host w₀ given (Compile.requireOpen s) (fun _ ↦ []) := by
  refine .get (fun w hw ↦ by rw [hw.isOpen]) ?_
  split
  · exact .value rfl trivial
  · exact .throw nofun

/-- **Tables do not show.**  An entry is made where it is missing and found where it is not, with
the same outcome, as long as what is found is what a filled workspace answers. -/
theorem remember {s : SessionId} {t : CacheTable} {key : TypeKey} {make : Compile σ t.Value}
    (inner : t.Value → List GraphNode) (good : t.Value → Prop)
    (hs : s < w₀.sessions.length)
    (hans : ∀ v, w₀.Answers d host s t key v ↔
      ((Compile.remember s t key make).runIn w₀).1 = .ok v)
    (hmake : Settles d host w₀ [] make inner good)
    (hproper : ∀ (v : t.Value) (w : Workspace σ), good v → w₀.Grows w →
      (∀ n ∈ inner v, w.Offers d n) → w.Proper d s t key v)
    (hw₀ : w₀.Filled d host w₀) :
    Settles d host w₀ given (Compile.remember s t key make) t.nodes := by
  obtain ⟨r, he, ha, hr⟩ := hmake
  have hmiss : ∀ w, w₀.Filled d host w → w.entry s t key = none →
      ((Compile.remember s t key make).runIn w).1 = r := by
    intro w hw hentry
    rw [runIn_remember_of_none hentry, (Prod.ext (hr w hw).1 rfl : make.runIn w = (r, _))]
    cases r <;> rfl
  refine ⟨((Compile.remember s t key make).runIn w₀).1, fun e h ↦ he e ?_, fun _ _ ↦ trivial,
    fun w hw ↦ ?_⟩
  · cases hentry : w₀.entry s t key with
    | some v =>
      rw [runIn_remember_of_entry hentry] at h
      cases h
    | none => exact hmiss w₀ hw₀ hentry ▸ h
  cases hentry : w.entry s t key with
  | some v =>
    have hv := (hans v).1 (hw.answered hentry)
    rw [runIn_remember_of_entry hentry, hv]
    refine ⟨rfl, hw, .refl w, fun _ a h n hn ↦ ?_⟩
    cases h
    exact hw.coherent.offers_of_entry hentry n hn
  | none =>
    have hentry₀ : w₀.entry s t key = none := by
      by_contra h
      obtain ⟨v, hv⟩ := Option.ne_none_iff_exists'.1 h
      rw [hw.grows.kept hv] at hentry
      cases hentry
    have hbase := hmiss w₀ hw₀ hentry₀
    obtain ⟨w₁, hx⟩ : ∃ w₁, make.runIn w = (r, w₁) := ⟨_, Prod.ext (hr w hw).1 rfl⟩
    obtain ⟨-, h2, h3, h4⟩ := hr w hw
    rw [hx] at h2 h3 h4
    rw [hbase, runIn_remember_of_none hentry, hx]
    cases r with
    | error e => exact ⟨rfl, h2, h3, nofun⟩
    | ok v =>
      -- making the entry may have entered it already, but then it is the same
      have hu : ∀ u, w₁.entry s t key = some u → u = v := fun u hu ↦
        Except.ok.inj (((hans u).1 (h2.answered hu)).symm.trans hbase)
      have hv : w₁.Proper d s t key v :=
        hproper v w₁ (ha v rfl) h2.grows (h4 (List.forall_mem_nil _) v rfl)
      have hself : (w₁.keep s t key v).entry s t key = some v :=
        w₁.entry_keep_self (h2.grows.sessions_length ▸ hs) t key v
      have hfilled := h2.keep hs ((hans v).2 hbase) hu hv
      refine ⟨rfl, hfilled, h3.trans (.keep hu), fun _ a h n hn ↦ ?_⟩
      cases h
      exact hfilled.coherent.offers_of_entry hself n hn

/-! ## What a settled computation gives -/

section Outcome

variable {x : Compile σ α} {w : Workspace σ} (h : Settles d host w₀ given x nodes good)
include h

/-- **The order of requests does not show.** -/
theorem runIn_eq (hw₀ : w₀.Filled d host w₀) (hw : w₀.Filled d host w) :
    (x.runIn w).1 = (x.runIn w₀).1 := by
  obtain ⟨r, -, -, hr⟩ := h
  exact (hr w hw).1.trans (hr w₀ hw₀).1.symm

theorem filled (hw : w₀.Filled d host w) : w₀.Filled d host (x.runIn w).2 := by
  obtain ⟨r, -, -, hr⟩ := h
  exact (hr w hw).2.1

theorem grows (hw : w₀.Filled d host w) : w.Grows (x.runIn w).2 := by
  obtain ⟨r, -, -, hr⟩ := h
  exact (hr w hw).2.2.1

theorem filled_of_run (hw : w₀.Filled d host w) {r : Except CompileError α} {w' : Workspace σ}
    (hrun : x.runIn w = (r, w')) : w₀.Filled d host w' := by
  have hfilled := h.filled hw
  rwa [hrun] at hfilled

theorem grows_of_run (hw : w₀.Filled d host w) {r : Except CompileError α} {w' : Workspace σ}
    (hrun : x.runIn w = (r, w')) : w.Grows w' := by
  have hgrows := h.grows hw
  rwa [hrun] at hgrows

theorem offers (hw : w₀.Filled d host w) (hg : ∀ n ∈ given, w.Offers d n) {a : α}
    (ha : (x.runIn w).1 = .ok a) : ∀ n ∈ nodes a, (x.runIn w).2.Offers d n := by
  obtain ⟨r, -, -, hr⟩ := h
  exact (hr w hw).2.2.2 hg a ((hr w hw).1.symm.trans ha)

theorem error_ne (hw : w₀.Filled d host w) {e : CompileError} (he : (x.runIn w).1 = .error e)
    (fault : AssemblyError) : e ≠ .assembly fault := by
  obtain ⟨r, hr', -, hr⟩ := h
  exact hr' e ((hr w hw).1.symm.trans he) fault

end Outcome

/-- What has been given of a table is in it from then on. -/
theorem kept {s : SessionId} {t : CacheTable} {key : TypeKey} {make : Compile σ t.Value}
    {nodes : t.Value → List GraphNode} {good : t.Value → Prop}
    (h : Settles d host w₀ given (Compile.remember s t key make) nodes good)
    (hs : s < w₀.sessions.length) {w w' : Workspace σ} (hw : w₀.Filled d host w) {v : t.Value}
    (hrun : (Compile.remember s t key make).runIn w = (.ok v, w')) :
    w'.Coherent d ∧ w'.entry s t key = some v := by
  have hfilled := h.filled_of_run hw hrun
  exact ⟨hfilled.coherent,
    entry_of_runIn_remember hrun (hfilled.grows.sessions_length ▸ hs)⟩

/-- Computations that each succeed at first succeed one after the other. -/
theorem exists_runIn_mapM {f : α → Compile σ β} {nodes' : β → List GraphNode}
    {good' : β → Prop} {l : List α} (hw₀ : w₀.Filled d host w₀)
    (h : ∀ a ∈ l, Settles d host w₀ [] (f a) nodes' good')
    (hok : ∀ a ∈ l, ∃ b, ((f a).runIn w₀).1 = .ok b) {w : Workspace σ}
    (hw : w₀.Filled d host w) : ∃ bs w', (l.mapM f).runIn w = (.ok bs, w') := by
  induction l generalizing w with
  | nil => exact ⟨[], w, rfl⟩
  | cons a rest ih =>
    have ha := h a List.mem_cons_self
    obtain ⟨b, hb⟩ := hok a List.mem_cons_self
    have hrun : (f a).runIn w = (.ok b, ((f a).runIn w).2) :=
      Prod.ext ((ha.runIn_eq hw₀ hw).trans hb) rfl
    obtain ⟨bs, w', hbs⟩ := ih (fun x hx ↦ h x (List.mem_cons_of_mem _ hx))
      (fun x hx ↦ hok x (List.mem_cons_of_mem _ hx)) (ha.filled hw)
    refine ⟨b :: bs, w', ?_⟩
    rw [List.mapM_cons, runIn_bind_of_ok hrun, runIn_bind_of_ok hbs, runIn_pure]

end Settles
end Compile
end ApiGraph
