import ApiGraph.Proofs.Field.Discipline

/-!
# The phases of a field

Every run of a field is followed phase by phase: what holds of the account when a phase begins,
while it pauses and when it has ended.  How the hooks of a phase take turns is left open: whatever
joins them will do.

## What is here

* `joinHooks_meets`: a phase of hooks.
* `before_meets`, `produce_meets` and `after_meets`: the phases of a field, from the hooks before it
  to the hooks after it.
* `FieldResolver.call_disciplined`: every run of a field obeys the phases, and without the account
  it is the same.
-/

set_option autoImplicit false

namespace ApiGraph

variable {σ α β : Type}

/-! ## A phase of hooks -/

/-- What a process does that is noted at its end only. -/
theorem Account.untilEnd_meets {ended : α → Event} {during : Account → Prop}
    {post : α → Account → Prop} (p : Process σ α) (s : σ × Account) (hduring : during s.2)
    (hpost : ∀ a, post a (s.2 ++ [ended a])) : (untilEnd ended p s).Meets during post := by
  have hwithin : (p.within Prod.fst (fun t (s : σ × Account) ↦ (t, s.2)) s).Meets during
      fun _ account ↦ account = s.2 := by
    rw [Process.within]
    generalize p s.1 = r
    induction r generalizing s with
    | done a t => rfl
    | paused t resume ih =>
      refine ⟨hduring, fun s' hs ↦ ?_⟩
      have hsame : s'.2 = s.2 := hs
      have hrest := ih s'.1 s' (hsame ▸ hduring) (hsame ▸ hpost)
      exact hrest.imp (fun _ h ↦ h) fun _ _ h ↦ h.trans hsame
  refine hwithin.andThen fun a s' hs' ↦ ?_
  show post a (s'.2 ++ [ended a])
  rw [hs']
  exact hpost a

/-- The hooks of a phase are called in order; what is left of each notes its end. -/
theorem Account.mapM_hook (called : Hook → Event) (ended : Nat → Except FieldError Unit → Event)
    (call : Hook → StateM σ (Process σ (Except FieldError Unit))) (hooks : List Hook)
    (s : σ × Account) :
    ∃ ps t, (hooks.mapM fun h ↦ hook (called h) ended (call h)) s =
        (ps, (t, s.2 ++ hooks.map called)) ∧
      List.Forall₂ (fun i p ↦ ∃ q : Process σ (Except FieldError Unit), p = untilEnd (ended i) q)
        (List.range' s.2.length hooks.length) ps := by
  induction hooks generalizing s with
  | nil => exact ⟨[], s.1, by simp; rfl, .nil⟩
  | cons h rest ih =>
    let s₁ : σ × Account := ((call h s.1).2, s.2 ++ [called h])
    obtain ⟨ps, t, hps, hall⟩ := ih s₁
    refine ⟨untilEnd (ended s.2.length) (call h s.1).1 :: ps, t, ?_, ?_⟩
    · have hcons : ((h :: rest).mapM fun h ↦ hook (called h) ended (call h)) s =
          (untilEnd (ended s.2.length) (call h s.1).1 ::
            ((rest.mapM fun h ↦ hook (called h) ended (call h)) s₁).1,
            ((rest.mapM fun h ↦ hook (called h) ended (call h)) s₁).2) := by
        rw [List.mapM_cons]
        rfl
      rw [hcons, hps]
      simp [s₁]
    · have hlength : s₁.2.length = s.2.length + 1 := by simp [s₁]
      rw [hlength] at hall
      exact .cons ⟨_, rfl⟩ hall

namespace FieldResolver

variable {f : FieldResolver} {data : ResolverData} {account past : Account}

/-- The notes of the ends of some calls are those of the calls that have an outcome. -/
def EndsAs (ended : Nat → Except FieldError Unit → Event) (is : List Nat)
    (o : Nat → Option (Except FieldError Unit)) (ends : Account) : Prop :=
  ∀ e, e ∈ ends ↔ ∃ i ∈ is, ∃ r, o i = some r ∧ e = ended i r

/-- What the processes of a phase keep of the account: it is orderly, and since the phase has begun
only ends of its calls have been noted. -/
def PhaseInv (f : FieldResolver) (data : ResolverData)
    (ended : Nat → Except FieldError Unit → Event) (is : List Nat) (start : Account)
    (o : Nat → Option (Except FieldError Unit)) (account : Account) : Prop :=
  f.Orderly data account ∧ ∃ ends, account = start ++ ends ∧ EndsAs ended is o ends

section Phase

variable {ended : Nat → Except FieldError Unit → Event} {is : List Nat} {start : Account}
  (hinj : ∀ i r j r', ended i r = ended j r' → i = j ∧ r = r')
  (hallow : ∀ i ∈ is, ∀ ends r, (∀ e ∈ ends, ∃ j r', e = ended j r') → (∀ r', ended i r' ∉ ends) →
    f.Allows data (start ++ ends) (ended i r))

include hinj in
/-- A call without an outcome has not been noted to have ended. -/
theorem EndsAs.not_mem {o : Nat → Option (Except FieldError Unit)} {ends : Account}
    (h : EndsAs ended is o ends) {i : Nat} (ho : o i = none) (r : Except FieldError Unit) :
    ended i r ∉ ends := by
  intro hr
  obtain ⟨j, _, r', hj, heq⟩ := (h _).1 hr
  obtain ⟨rfl, rfl⟩ := hinj _ _ _ _ heq
  exact nomatch ho.symm.trans hj

/-- One call more has ended. -/
theorem EndsAs.concat {o : Nat → Option (Except FieldError Unit)} {ends : Account}
    (h : EndsAs ended is o ends) {i : Nat} (hi : i ∈ is) (ho : o i = none)
    (r : Except FieldError Unit) :
    EndsAs ended is (Function.update o i (some r)) (ends ++ [ended i r]) := by
  intro e
  rw [List.mem_append, List.mem_singleton, h e]
  constructor
  · rintro (⟨j, hj, r', hr', rfl⟩ | rfl)
    · have hne : j ≠ i := by
        rintro rfl
        exact nomatch ho.symm.trans hr'
      exact ⟨j, hj, r', (Function.update_of_ne hne ..).trans hr', rfl⟩
    · exact ⟨i, hi, r, Function.update_self .., rfl⟩
  · rintro ⟨j, hj, r', hr', rfl⟩
    by_cases hji : j = i
    · subst hji
      rw [Function.update_self] at hr'
      cases hr'
      exact .inr rfl
    · rw [Function.update_of_ne hji] at hr'
      exact .inl ⟨j, hj, r', hr', rfl⟩

include hinj hallow in
/-- The process that a call has left notes its end, and nothing else. -/
theorem untilEnd_serves {i : Nat} (hi : i ∈ is) {o : Nat → Option (Except FieldError Unit)}
    (ho : o i = none) (p : Process σ (Except FieldError Unit)) :
    Process.Serves (fun o (s : σ × Account) ↦ PhaseInv f data ended is start o s.2) i
      (Account.untilEnd (ended i) p) o := by
  suffices h : ∀ o₁ s, PhaseInv f data ended is start o₁ s.2 → o₁ i = none →
      (Account.untilEnd (ended i) p s).Owns
        (fun o (s : σ × Account) ↦ PhaseInv f data ended is start o s.2) {i} (Ended i) o₁ from
    fun o₁ s ho₁ hinv ↦ h o₁ s hinv ((ho₁ rfl).trans ho)
  intro o₁ s hinv ho₁
  rw [show Account.untilEnd (ended i) p s = ((p s.1).within Prod.fst _ s).andThen _ from rfl]
  generalize p s.1 = run
  induction run generalizing s o₁ with
  | done r t =>
    obtain ⟨horderly, ends, hends, hmem⟩ := hinv
    refine ⟨Function.update o₁ i (some r), ?_, ?_, Function.update_self ..⟩
    · exact fun j hj ↦ Function.update_of_ne hj ..
    · have hkind : ∀ e ∈ ends, ∃ j r', e = ended j r' := by
        intro e he
        obtain ⟨j, -, r', -, heq⟩ := (hmem e).1 he
        exact ⟨j, r', heq⟩
      have hallows := hallow i hi ends r hkind (hmem.not_mem hinj ho₁)
      refine ⟨.snoc horderly (hends ▸ hallows), ends ++ [ended i r], ?_, hmem.concat hi ho₁ r⟩
      show s.2 ++ [ended i r] = _
      rw [hends, List.append_assoc]
  | paused t resume ih =>
    refine ⟨o₁, Set.eqOn_refl _ _, hinv, fun o₂ s' ho₂ hinv₂ ↦ ?_⟩
    exact ih s'.1 o₂ s' hinv₂ ((ho₂ rfl).trans ho₁)

end Phase

/-- **A phase of hooks.**  All hooks are called, in order and before any of them goes on; then only
ends of these calls are noted, each at most once.  The phase succeeds when all of them have ended
well, and else fails with the error of one that has failed. -/
theorem joinHooks_meets {join : ∀ S : Type, HookJoin S} (hjoin : Process.Joins join)
    (called : Hook → Event) (ended : Nat → Except FieldError Unit → Event)
    (hinj : ∀ i r j r', ended i r = ended j r' → i = j ∧ r = r')
    (call : Hook → StateM σ (Process σ (Except FieldError Unit))) (hooks : List Hook)
    (start : Account) (horderly : f.Orderly data (start ++ hooks.map called))
    (hallow : ∀ i ∈ List.range' start.length hooks.length, ∀ ends r,
      (∀ e ∈ ends, ∃ j r', e = ended j r') → (∀ r', ended i r' ∉ ends) →
      f.Allows data (start ++ hooks.map called ++ ends) (ended i r)) :
    Resolve.Meets (· = start)
      (joinHooks (join _) (fun h ↦ Account.hook (called h) ended (call h)) hooks)
      (f.Orderly data) fun r account ↦ f.Orderly data account ∧
        ∃ ends, account = start ++ hooks.map called ++ ends ∧
          (∀ e ∈ ends, ∃ i ∈ List.range' start.length hooks.length, ∃ r, e = ended i r) ∧
          match r with
          | .ok () => ∀ i ∈ List.range' start.length hooks.length, ended i (.ok ()) ∈ ends
          | .error e => ∃ i, ended i (.error e) ∈ ends := by
  rcases eq_or_ne hooks [] with rfl | hne
  · rw [joinHooks_nil]
    refine .pure ?_
    rintro _ rfl
    exact ⟨by simpa using horderly, [], by simp, nofun, by simp⟩
  intro s hs
  obtain ⟨t, rfl⟩ : ∃ t, s = (t, start) := ⟨s.1, Prod.ext rfl hs⟩
  obtain ⟨ps, t', hps, hall⟩ := Account.mapM_hook called ended call hooks (t, start)
  rw [joinHooks_run _ _ hne, hps]
  have hserves : List.Forall₂ (fun i p ↦ Process.Serves
      (fun o (s : σ × Account) ↦ PhaseInv f data ended
        (List.range' start.length hooks.length) (start ++ hooks.map called) o s.2) i p fun _ ↦ none)
      (List.range' start.length hooks.length) ps := by
    refine List.forall₂_iff_get.2 ⟨hall.length_eq, fun k hk hk' ↦ ?_⟩
    obtain ⟨q, hq⟩ := (List.forall₂_iff_get.1 hall).2 k hk hk'
    rw [hq]
    exact untilEnd_serves hinj hallow (List.get_mem _ _) rfl q
  have hinv : PhaseInv f data ended (List.range' start.length hooks.length)
      (start ++ hooks.map called) (fun _ ↦ none) (start ++ hooks.map called) :=
    ⟨horderly, [], (List.append_nil _).symm, by simp [EndsAs]⟩
  have hmeets := (hjoin.owns List.nodup_range' hserves _ (t', start ++ hooks.map called)
    (Set.eqOn_refl _ _) hinv).meets
  refine (hmeets.imp (fun account h ↦ ?_) fun _ _ h ↦ h).andThen fun r s h ↦ ?_
  · obtain ⟨o, horderly, -⟩ := h
    exact horderly
  · obtain ⟨o, ⟨horderly, ends, hends, hmem⟩, hjoined⟩ := h
    refine ⟨horderly, ends, hends, fun e he ↦ ?_, ?_⟩
    · obtain ⟨i, hi, r, -, heq⟩ := (hmem e).1 he
      exact ⟨i, hi, r, heq⟩
    · cases r with
      | ok values =>
        intro i hi
        have hvalues : (List.range' start.length hooks.length).map o =
            values.map fun a ↦ some (.ok a) := hjoined
        have hio : o i ∈ values.map fun a ↦ some (.ok a) := hvalues ▸ List.mem_map_of_mem hi
        obtain ⟨a, -, ha⟩ := List.mem_map.1 hio
        exact (hmem _).2 ⟨i, hi, _, ha.symm, rfl⟩
      | error e =>
        obtain ⟨i, hi, he⟩ := hjoined
        exact ⟨i, (hmem _).2 ⟨i, hi, _, he, rfl⟩⟩

/-! ## The hooks before the field -/

/-- The hooks before the field have ended well, and nothing has been invoked since but injectors. -/
structure Prepared (f : FieldResolver) (data : ResolverData) (account : Account) : Prop where
  orderly : f.Orderly data account
  before : f.BeforeDone data account
  noMethod : ∀ e ∈ account, e.isMethod = false
  noAfter : ∀ e ∈ account, ¬ e.OfAfter

theorem orderly_before {calls : Account} (h : calls <+: f.before.map (Event.before · data)) :
    f.Orderly data calls := by
  induction calls using List.reverseRecOn with
  | nil => exact .nil
  | append_singleton calls e ih =>
    have hmem : e ∈ f.before.map (Event.before · data) :=
      h.subset (List.mem_append_right _ (List.mem_singleton_self e))
    obtain ⟨hook, -, rfl⟩ := List.mem_map.1 hmem
    exact .snoc (ih ((List.prefix_append _ _).trans h)) ⟨rfl, h⟩

theorem before_meets {join : ∀ S : Type, HookJoin S} (hjoin : Process.Joins join) (host : Host σ)
    (f : FieldResolver) (data : ResolverData) :
    Resolve.Meets (· = []) (joinHooks (join _) (fun hook ↦ host.noted.before hook data) f.before)
      (f.Orderly data) fun r account ↦
        match r with
        | .ok () => f.Prepared data account
        | .error e => f.Orderly data account ∧ f.Failed data account e := by
  have hinj : ∀ i r j r', Event.beforeEnded i r = .beforeEnded j r' → i = j ∧ r = r' := by
    rintro i r _ _ ⟨⟩
    exact ⟨rfl, rfl⟩
  have hphase := joinHooks_meets hjoin (Event.before · data) .beforeEnded hinj
    (fun hook ↦ host.before hook data) f.before [] (orderly_before (List.prefix_refl _)) ?_
  · intro s hs
    refine (hphase s hs).imp (fun _ h ↦ h) ?_
    rintro r account ⟨horderly, ends, rfl, hkind, hr⟩
    cases r with
    | error e =>
      obtain ⟨i, hi⟩ := hr
      exact ⟨horderly, .before (i := i) (List.mem_append_right _ hi)⟩
    | ok u =>
      have hends : ∀ i < f.before.length, .beforeEnded i (.ok ()) ∈ ends :=
        fun i hi ↦ hr i (by simpa [List.mem_range'] using hi)
      refine ⟨horderly, ⟨List.prefix_append _ _, fun i hi ↦ List.mem_append_right _ (hends i hi)⟩,
        fun e he ↦ ?_, fun e he ↦ ?_⟩
      all_goals
        rcases List.mem_append.1 he with he | he
        · obtain ⟨hook, -, rfl⟩ := List.mem_map.1 he
          simp [Event.isMethod, Event.OfAfter]
        · obtain ⟨i, -, r, rfl⟩ := hkind e he
          simp [Event.isMethod, Event.OfAfter]
  · intro i hi ends r _ hnot
    refine ⟨by simpa [List.mem_range'] using hi, List.prefix_append _ _, fun r' hmem ↦ ?_⟩
    rcases List.mem_append.1 hmem with hmem | hmem
    · simp at hmem
    · exact hnot r' hmem

/-! ## The parameters -/

/-- What a parameter is bound to, it stays bound to. -/
theorem boundTo_mono {p : ParamBinding} {value : HostValue} (h : p.BoundTo data past value)
    (hsub : past <+: account) : p.BoundTo data account value := by
  rw [ParamBinding.BoundTo] at h ⊢
  cases hb : p.binding with
  | injected i =>
    rw [hb] at h
    cases i with
    | host id => exact hsub.subset h
    | context | source | info => exact h
  | argument | unbound =>
    rw [hb] at h
    exact h

/-- A parameter cannot be bound: what was supplied for it cannot be cast. -/
def Unbindable (data : ResolverData) (p : ParamBinding) (e : FieldError) : Prop :=
  ∃ supplied c, e = .cast c ∧ p.supplied data = some supplied ∧
    p.plan.apply p.name supplied = .error c

theorem Prepared.inject (h : f.Prepared data account) {method : MethodId}
    (htarget : f.target data.source = .method method) (id : InjectorId) (value : HostValue) :
    f.Prepared data (account ++ [.injected id data value]) := by
  refine ⟨.snoc h.orderly ⟨rfl, h.before, ⟨method, htarget⟩, h.noMethod⟩,
    h.before.mono (List.prefix_append _ _), fun e he ↦ ?_, fun e he ↦ ?_⟩
  · rcases List.mem_append.1 he with he | he
    · exact h.noMethod e he
    · rw [List.mem_singleton.1 he]
      rfl
  · rcases List.mem_append.1 he with he | he
    · exact h.noAfter e he
    · rw [List.mem_singleton.1 he]
      exact not_false

/-- Binding a parameter invokes at most the injector that supplies it. -/
theorem bind_meets (host : Host σ) {method : MethodId}
    (htarget : f.target data.source = .method method) (h : f.Prepared data account)
    (p : ParamBinding) :
    Resolve.Meets (· = account) (p.bind host.noted data) (f.Orderly data) fun r account' ↦
      f.Prepared data account' ∧ account <+: account' ∧
        match r with
        | .ok value => p.BoundTo data account' value
        | .error e => Unbindable data p e := by
  rintro s rfl
  cases hb : p.binding with
  | injected i =>
    rw [ParamBinding.bind, hb]
    cases i with
    | host id =>
      refine ⟨h.inject htarget id _, List.prefix_append _ _, ?_⟩
      simp only [ParamBinding.BoundTo, hb]
      exact List.mem_append_right _ (List.mem_singleton_self _)
    | context | source | info =>
      refine ⟨h, List.prefix_refl _, ?_⟩
      simp only [ParamBinding.BoundTo, hb]
  | argument | unbound =>
    rw [ParamBinding.bind, hb]
    cases hs : p.supplied data with
    | none =>
      refine ⟨h, List.prefix_refl _, ?_⟩
      simp only [ParamBinding.BoundTo, hb, hs]
    | some supplied =>
      refine ⟨h, List.prefix_refl _, ?_⟩
      cases hcast : p.plan.apply p.name supplied with
      | ok value =>
        simp only [Except.mapError, ParamBinding.BoundTo, hb, hs, hcast]
      | error c => exact ⟨supplied, c, rfl, hs, hcast⟩

/-- Binding the parameters in order, up to the first that cannot be bound. -/
theorem mapM_bind_meets (host : Host σ) {method : MethodId}
    (htarget : f.target data.source = .method method) (h : f.Prepared data account)
    (params : List ParamBinding) :
    Resolve.Meets (· = account) (params.mapM (ParamBinding.bind host.noted data))
      (f.Orderly data) fun r account' ↦
      f.Prepared data account' ∧ account <+: account' ∧
        match r with
        | .ok values => List.Forall₂ (ParamBinding.BoundTo data account') params values
        | .error e => ∃ p ∈ params, Unbindable data p e := by
  induction params generalizing account with
  | nil =>
    rintro s rfl
    exact ⟨h, List.prefix_refl _, .nil⟩
  | cons p rest ih =>
    rw [List.mapM_cons]
    refine (bind_meets host htarget h p).bind (fun value s hs ↦ ?_) fun e account' hp ↦ ?_
    · obtain ⟨hprepared, hsub, hbound⟩ := hs
      refine ((ih hprepared).bind (fun values ↦ .pure fun account' hrest ↦ ?_)
        fun e account' hrest ↦ ?_) s rfl
      · obtain ⟨hprepared', hsub', hvalues⟩ := hrest
        exact ⟨hprepared', hsub.trans hsub', .cons (boundTo_mono hbound hsub') hvalues⟩
      · obtain ⟨hprepared', hsub', q, hq, he⟩ := hrest
        exact ⟨hprepared', hsub.trans hsub', q, List.mem_cons_of_mem p hq, he⟩
    · exact ⟨hp.1, hp.2.1, p, List.mem_cons_self, hp.2.2⟩

/-! ## The implementation -/

/-- The implementation has come to a value, and no hook after the field has been called. -/
structure Made (f : FieldResolver) (data : ResolverData) (raw : HostValue) (account : Account) :
    Prop where
  orderly : f.Orderly data account
  before : f.BeforeDone data account
  produced : f.Produced data account raw
  noAfter : ∀ e ∈ account, ¬ e.OfAfter

/-- Running the method, once everything is bound. -/
theorem method_meets (host : Host σ) {method : MethodId}
    (htarget : f.target data.source = .method method) {args : List HostValue}
    (h : f.Prepared data account)
    (hargs : List.Forall₂ (ParamBinding.BoundTo data account) f.params args) :
    Resolve.Meets (· = account) (ExceptT.mk (host.noted.method method data.source args))
      (f.Orderly data) fun r account' ↦
        match r with
        | .ok raw => f.Made data raw account'
        | .error e => f.Orderly data account' ∧ f.Failed data account' e := by
  rintro s rfl
  have hcalled : f.Orderly data (s.2 ++ [.method method data.source args]) :=
    .snoc h.orderly ⟨h.before, htarget, rfl, hargs, h.noMethod⟩
  refine Account.untilEnd_meets _ (s.1, s.2 ++ [.method method data.source args]) hcalled
    fun r ↦ ?_
  have hended : f.Orderly data (s.2 ++ [.method method data.source args] ++ [.methodEnded r]) := by
    refine .snoc hcalled ⟨⟨_, List.mem_append_right _ (List.mem_singleton_self _), rfl⟩, ?_⟩
    intro r' hmem
    rcases List.mem_append.1 hmem with hmem | hmem
    · obtain ⟨past, hsub, ⟨e, he, hmethod⟩, -⟩ := h.orderly.allows_of_mem hmem
      rw [h.noMethod e (hsub.subset he)] at hmethod
      cases hmethod
    · cases List.mem_singleton.1 hmem
  have hmem : .methodEnded r ∈ s.2 ++ [.method method data.source args] ++ [.methodEnded r] :=
    List.mem_append_right _ (List.mem_singleton_self _)
  cases r with
  | error e => exact ⟨hended, .method hmem⟩
  | ok raw =>
    refine ⟨hended, h.before.mono ((List.prefix_append _ _).trans (List.prefix_append _ _)), ?_, ?_⟩
    · rw [Produced, htarget]
      exact hmem
    · intro e he
      rw [List.append_assoc] at he
      rcases List.mem_append.1 he with he | he
      · exact h.noAfter e he
      · simp only [List.cons_append, List.nil_append, List.mem_cons, List.not_mem_nil,
          or_false] at he
        rcases he with rfl | rfl <;> exact not_false

theorem produce_meets (host : Host σ) (f : FieldResolver) (data : ResolverData) :
    Resolve.Meets (f.Prepared data) (f.produce host.noted data) (f.Orderly data) fun r account ↦
      match r with
      | .ok raw => f.Made data raw account
      | .error e => f.Orderly data account ∧ f.Failed data account e := by
  intro s h
  rw [produce]
  cases htarget : f.target data.source with
  | value value =>
    refine ⟨h.orderly, h.before, ?_, h.noAfter⟩
    rw [Produced, htarget]
  | method method =>
    refine ((mapM_bind_meets host htarget h f.params).bind (fun args s hs ↦ ?_)
      fun e account' he ↦ ?_) s rfl
    · exact method_meets host htarget hs.1 hs.2.2 s rfl
    · obtain ⟨hprepared, -, p, hp, supplied, c, rfl, hsupplied, hcast⟩ := he
      exact ⟨hprepared.orderly,
        .binding hprepared.before htarget hp hsupplied hcast hprepared.noMethod⟩

/-! ## The hooks after the field -/

theorem orderly_after {raw value : HostValue} (h : f.Made data raw account)
    (hcast : f.resultCast.apply f.fieldName raw = .ok value) {hooks : List Hook}
    (hhooks : hooks <+: f.after) :
    f.Orderly data (account ++ hooks.map (Event.after · value data)) := by
  induction hooks using List.reverseRecOn with
  | nil => simpa using h.orderly
  | append_singleton hooks hook ih =>
    rw [List.map_append, ← List.append_assoc]
    have hsub : account <+: account ++ hooks.map (Event.after · value data) :=
      List.prefix_append _ _
    refine .snoc (ih ((List.prefix_append _ _).trans hhooks)) ⟨rfl, ?_, h.before.mono hsub, ?_⟩
    · exact hhooks.subset (List.mem_append_right _ (List.mem_singleton_self _))
    · exact ⟨raw, h.produced.mono hsub, hcast⟩

/-- The calls of the hooks after the field are those of its last phase. -/
theorem Made.afterCalls_eq {raw value : HostValue} (h : f.Made data raw account) {ends : Account}
    (hends : ∀ e ∈ ends, ∃ i r, e = .afterEnded i r) :
    (account ++ f.after.map (Event.after · value data) ++ ends).filterMap Event.afterCall? =
      f.after.map fun hook ↦ (hook, value, data) := by
  have hnone : account.filterMap Event.afterCall? = [] := by
    refine List.filterMap_eq_nil_iff.2 fun e he ↦ ?_
    have hnot := h.noAfter e he
    cases e with
    | after => exact absurd trivial hnot
    | _ => rfl
  have hnone' : ends.filterMap Event.afterCall? = [] := by
    refine List.filterMap_eq_nil_iff.2 fun e he ↦ ?_
    obtain ⟨i, r, rfl⟩ := hends e he
    rfl
  rw [List.filterMap_append, List.filterMap_append, hnone, hnone', List.nil_append,
    List.append_nil, List.filterMap_map]
  exact congrFun (List.filterMap_eq_map (f := fun hook ↦ (hook, value, data))) f.after

/-- A call of a hook after the field is at a place of the last phase. -/
theorem Made.mem_range_of_after {raw value : HostValue} (h : f.Made data raw account)
    {ends : Account} (hends : ∀ e ∈ ends, ∃ i r, e = .afterEnded i r) {i : Nat} {hook : Hook}
    {v : HostValue} {other : ResolverData}
    (hi : (account ++ f.after.map (Event.after · value data) ++ ends)[i]? =
      some (.after hook v other)) : i ∈ List.range' account.length f.after.length := by
  refine List.mem_range'_1.2 ⟨?_, ?_⟩
  · by_contra hlt
    rw [List.append_assoc, List.getElem?_append_left (by omega)] at hi
    exact h.noAfter _ (List.mem_of_getElem? hi) trivial
  · by_contra hge
    rw [List.getElem?_append_right (by simp; omega)] at hi
    obtain ⟨j, r, heq⟩ := hends _ (List.mem_of_getElem? hi)
    cases heq

/-- In the last phase a hook whose call has not ended may end. -/
theorem Made.allows_afterEnded {raw value : HostValue} (h : f.Made data raw account) {i : Nat}
    (hi : i ∈ List.range' account.length f.after.length) {ends : Account}
    {r : Except FieldError Unit} (hnot : ∀ r', .afterEnded i r' ∉ ends) :
    f.Allows data (account ++ f.after.map (Event.after · value data) ++ ends)
      (.afterEnded i r) := by
  obtain ⟨hle, hlt⟩ := List.mem_range'_1.1 hi
  refine ⟨⟨f.after[i - account.length], value, ?_⟩, fun r' hmem ↦ ?_⟩
  · rw [List.getElem?_append_left (by simp; omega), List.getElem?_append_right hle,
      List.getElem?_map, List.getElem?_eq_getElem (by omega)]
    rfl
  · rcases List.mem_append.1 hmem with hmem | hmem
    · rcases List.mem_append.1 hmem with hmem | hmem
      · exact h.noAfter _ hmem trivial
      · simp at hmem
    · exact hnot r' hmem

theorem after_meets {join : ∀ S : Type, HookJoin S} (hjoin : Process.Joins join) (host : Host σ)
    {raw value : HostValue} (h : f.Made data raw account)
    (hcast : f.resultCast.apply f.fieldName raw = .ok value) :
    Resolve.Meets (· = account)
      (joinHooks (join _) (fun hook ↦ host.noted.after hook value data) f.after)
      (f.Orderly data) fun r account ↦ f.Orderly data account ∧
        match r with
        | .ok () => f.Succeeded data account value
        | .error e => f.Failed data account e := by
  have hinj : ∀ i r j r', Event.afterEnded i r = .afterEnded j r' → i = j ∧ r = r' := by
    rintro i r _ _ ⟨⟩
    exact ⟨rfl, rfl⟩
  have hphase := joinHooks_meets hjoin (Event.after · value data) .afterEnded hinj
    (fun hook ↦ host.after hook value data) f.after account
    (orderly_after h hcast (List.prefix_refl _)) fun i hi ends r _ hnot ↦
      h.allows_afterEnded hi hnot
  intro s hs
  refine (hphase s hs).imp (fun _ h ↦ h) ?_
  rintro r _ ⟨horderly, ends, rfl, hkind, hr⟩
  refine ⟨horderly, ?_⟩
  cases r with
  | error e =>
    obtain ⟨i, hi⟩ := hr
    exact .after (i := i) (List.mem_append_right _ hi)
  | ok u =>
    have hsub : account <+: account ++ f.after.map (Event.after · value data) ++ ends :=
      (List.prefix_append _ _).trans (List.prefix_append _ _)
    have hends : ∀ e ∈ ends, ∃ i r, e = .afterEnded i r := by
      intro e he
      obtain ⟨i, -, r, heq⟩ := hkind e he
      exact ⟨i, r, heq⟩
    exact ⟨h.before.mono hsub, ⟨raw, h.produced.mono hsub, hcast⟩, h.afterCalls_eq hends,
      fun i hook v d hi ↦ List.mem_append_right _ (hr i (h.mem_range_of_after hends hi))⟩

/-! ## All phases -/

theorem call_meets {join : ∀ S : Type, HookJoin S} (hjoin : Process.Joins join) (host : Host σ)
    (f : FieldResolver) (source : HostValue) (args : OrderedMap String HostValue)
    (context : Option RequestContext) (info : ResolveInfo) :
    Resolve.Meets (· = []) (f.call host.noted source args context info (join _))
      (f.Orderly (f.dataFor source args context info)) fun r account ↦
        f.Orderly (f.dataFor source args context info) account ∧
          match r with
          | .ok value => f.Succeeded (f.dataFor source args context info) account value
          | .error e => f.Failed (f.dataFor source args context info) account e := by
  generalize hdata : f.dataFor source args context info = data
  rw [call, hdata]
  refine (before_meets hjoin host f data).bind (fun _ ↦ ?_) fun _ _ h ↦ h
  refine (produce_meets host f data).bind (fun raw ↦ ?_) fun _ _ h ↦ h
  cases hcast : f.resultCast.apply f.fieldName raw with
  | error c =>
    intro s h
    exact ⟨h.orderly, .cast h.before h.produced hcast⟩
  | ok value =>
    intro s h
    refine ((after_meets hjoin host h hcast).bind (fun _ ↦ ?_) fun _ _ h ↦ h) s rfl
    exact .pure fun _ h ↦ h

/-- **Every run of a field obeys its phases**, however the hooks of a phase are joined, whatever the
program's callables do and whoever changes the state while they pause.  A run with an account of
what is invoked is the same run, and at every point of it what has been invoked is what the phases
allow. -/
theorem call_disciplined {join : ∀ S : Type, HookJoin S} (hjoin : Process.Joins join)
    (host : Host σ) (f : FieldResolver) (source : HostValue) (args : OrderedMap String HostValue)
    (context : Option RequestContext) (info : ResolveInfo) (s : σ) :
    ((f.call host.noted source args context info (join _)).run (s, [])).Erases Eq
      ((f.call host source args context info (join _)).run s) ∧
    ∀ point,
      ((f.call host.noted source args context info (join _)).run (s, [])).Leads SameAccount point →
        f.Disciplined (f.dataFor source args context info) point.state.2 point.outcome := by
  refine ⟨call_erases hjoin host f source args context info (s, []), fun point hpoint ↦ ?_⟩
  · have hmeets := (call_meets hjoin host f source args context info (s, []) rfl).of_leads hpoint
    cases point with
    | done r s =>
      refine hmeets.1.disciplined ?_
      rintro _ ⟨⟩
      exact hmeets.2
    | paused s resume => exact hmeets.1.disciplined nofun

namespace Guarded

/-- A program with a hook that pauses and then refuses. -/
def host : Host Unit where
  forced _ := pure ()
  construct _ := pure { cls := .base ⟨0⟩ "" }
  discriminate _ _ _ _ := pure none
  method _ _ _ := pure (.ok .null)
  before _ _ := pure do
    Process.pause 1
    return .error (.failed "refused")
  after _ _ _ := pure (pure (.ok ()))
  inject _ _ := pure .null

/-- A field with a method, a hook before it and a hook after it. -/
def field : FieldResolver where
  owner := .base ⟨1⟩ "Root"
  property := "now"
  fieldName := "now"
  root := none
  method := some ⟨0⟩
  params := []
  before := [⟨0⟩]
  after := [⟨1⟩]
  resultCast := .passthrough

end Guarded

open Guarded in
/-- A field whose first hook refuses comes to that failure, and neither its method nor its other
hook is invoked. -/
theorem call_disciplined_guarded :
    ∃ point, ((field.call host.noted .null [] none {}).run ((), [])).Leads SameAccount point ∧
      point.outcome = some (.error (.failed "refused")) ∧ ∀ e ∈ point.state.2, e.OfBefore := by
  let data : ResolverData := { source := .null }
  let called : Account := [.before ⟨0⟩ data]
  let refused : Account := [.before ⟨0⟩ data, .beforeEnded 0 (.error (.failed "refused"))]
  obtain ⟨resume, hpaused, hended⟩ : ∃ resume,
      (field.call host.noted .null [] none {}).run ((), []) = .paused ((), called) resume ∧
        resume ((), called) = .done (.error (.failed "refused")) ((), refused) :=
    ⟨_, rfl, rfl⟩
  have hleads : ((field.call host.noted .null [] none {}).run ((), [])).Leads SameAccount
      (.done (.error (.failed "refused")) ((), refused)) := by
    rw [← hended]
    exact .resume (hpaused ▸ .refl _) rfl
  have hdisciplined :=
    (call_disciplined Process.join_joins host field .null [] none {} ()).2 _ hleads
  refine ⟨_, hleads, rfl, (hdisciplined.refused 0 (.failed "refused") ?_).1⟩
  exact List.mem_cons_of_mem _ List.mem_cons_self

end FieldResolver

end ApiGraph
