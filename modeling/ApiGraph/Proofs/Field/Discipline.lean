import ApiGraph.Proofs.Field.Account

/-!
# What may be invoked when

A field is resolved in phases: hooks before it, its implementation with the injectors that supply
parameters, the cast of what that gives, hooks after it.  Here is said which events may follow which
in an account, what it is for all phases to succeed and for one of them to fail, and what follows
for accounts in which nothing happens before it may.

## What is here

* `FieldResolver.Allows` and `FieldResolver.Orderly`: what may happen after what.
* `FieldResolver.Succeeded` and `FieldResolver.Failed`: how the phases end.
* `FieldResolver.Disciplined`: what is said of an account at any point of a run.
* `FieldResolver.Orderly.disciplined`: orderly accounts are disciplined.
-/

set_option autoImplicit false

namespace ApiGraph

/-! ## What may be invoked when -/

/-- A hook before a field is called or ends. -/
def Event.OfBefore : Event → Prop
  | .before .. | .beforeEnded .. => True
  | _ => False

/-- A hook after a field is called or ends. -/
def Event.OfAfter : Event → Prop
  | .after .. | .afterEnded .. => True
  | _ => False

/-- Whether a method is called. -/
def Event.isMethod : Event → Bool
  | .method .. => true
  | _ => false

/-- The call of a hook after a field: the hook, the value and the data. -/
def Event.afterCall? : Event → Option (Hook × HostValue × ResolverData)
  | .after hook value data => some (hook, value, data)
  | _ => none

/-- The value that a parameter is bound to: what an injector has supplied, or what was supplied and
cast, or undefined. -/
def ParamBinding.BoundTo (data : ResolverData) (past : Account) (p : ParamBinding)
    (value : HostValue) : Prop :=
  match p.binding with
  | .injected (.host id) => .injected id data value ∈ past
  | .injected .context =>
    value = (data.context.map fun c ↦ HostValue.foreign (.context c)).getD .null
  | .injected .source => value = data.source
  | .injected .info => value = .foreign (.info data.info p.position)
  | .argument _ _ | .unbound =>
    match p.supplied data with
    | some supplied => p.plan.apply p.name supplied = .ok value
    | none => value = .undefined

namespace FieldResolver

variable (f : FieldResolver) (data : ResolverData)

/-- The hooks before the field have been called, first of all and in order, and all have ended
well. -/
structure BeforeDone (past : Account) : Prop where
  called : f.before.map (Event.before · data) <+: past
  ended : ∀ i < f.before.length, .beforeEnded i (.ok ()) ∈ past

/-- The implementation of the field has come to a value. -/
def Produced (past : Account) (raw : HostValue) : Prop :=
  match f.target data.source with
  | .value value => raw = value
  | .method _ => .methodEnded (.ok raw) ∈ past

/-- **What may happen after what.**  Hooks before the field come first; injectors, and then the
method, may be invoked once all of these have ended well, and the method once every parameter is
bound; hooks after the field may be called once there is a value, which has been cast. -/
def Allows (past : Account) : Event → Prop
  | .before hook d =>
    d = data ∧ past ++ [.before hook d] <+: f.before.map (Event.before · data)
  | .beforeEnded i _ =>
    i < f.before.length ∧ f.before.map (Event.before · data) <+: past ∧
      ∀ r, .beforeEnded i r ∉ past
  | .injected _ d _ =>
    d = data ∧ f.BeforeDone data past ∧ (∃ id, f.target data.source = .method id) ∧
      ∀ e ∈ past, e.isMethod = false
  | .method id source args =>
    f.BeforeDone data past ∧ f.target data.source = .method id ∧ source = data.source ∧
      List.Forall₂ (ParamBinding.BoundTo data past) f.params args ∧
      ∀ e ∈ past, e.isMethod = false
  | .methodEnded _ =>
    (∃ e ∈ past, e.isMethod = true) ∧ ∀ r, .methodEnded r ∉ past
  | .after hook value d =>
    d = data ∧ hook ∈ f.after ∧ f.BeforeDone data past ∧
      ∃ raw, f.Produced data past raw ∧ f.resultCast.apply f.fieldName raw = .ok value
  | .afterEnded i _ =>
    (∃ hook value, past[i]? = some (.after hook value data)) ∧ ∀ r, .afterEnded i r ∉ past

/-- Everything happened when it was allowed. -/
inductive Orderly : Account → Prop
  | nil : Orderly []
  | snoc {past : Account} {e : Event} (h : Orderly past) (he : f.Allows data past e) :
    Orderly (past ++ [e])

/-- All phases have succeeded, and the value is the one that was cast. -/
structure Succeeded (account : Account) (value : HostValue) : Prop where
  before : f.BeforeDone data account
  produced : ∃ raw, f.Produced data account raw ∧ f.resultCast.apply f.fieldName raw = .ok value
  called : account.filterMap Event.afterCall? = f.after.map fun hook ↦ (hook, value, data)
  ended : ∀ i hook v d, account[i]? = some (.after hook v d) → .afterEnded i (.ok ()) ∈ account

/-- A phase has failed, for a reason. -/
inductive Failed (account : Account) : FieldError → Prop
  | before {i : Nat} {e : FieldError} (h : .beforeEnded i (.error e) ∈ account) : Failed account e
  | binding {p : ParamBinding} {supplied : HostValue} {c : CastError} {id : MethodId}
    (hbefore : f.BeforeDone data account) (htarget : f.target data.source = .method id)
    (hp : p ∈ f.params) (hsupplied : p.supplied data = some supplied)
    (hcast : p.plan.apply p.name supplied = .error c)
    (hmethod : ∀ e ∈ account, e.isMethod = false) : Failed account (.cast c)
  | method {e : FieldError} (h : .methodEnded (.error e) ∈ account) : Failed account e
  | cast {raw : HostValue} {c : CastError} (hbefore : f.BeforeDone data account)
    (hraw : f.Produced data account raw) (hcast : f.resultCast.apply f.fieldName raw = .error c) :
    Failed account (.cast c)
  | after {i : Nat} {e : FieldError} (h : .afterEnded i (.error e) ∈ account) : Failed account e

/-- What is said of a run at any point: what has happened so far, and what it came to if it has
ended. -/
structure Disciplined (account : Account) (outcome : Option (Except FieldError HostValue)) :
    Prop where
  /-- Whatever happened was allowed when it happened. -/
  allowed : ∀ past e later, account = past ++ e :: later → f.Allows data past e
  /-- If a hook before the field fails, nothing else is invoked but hooks before the field, and the
  field fails with the error of one of them. -/
  refused : ∀ i e, .beforeEnded i (.error e) ∈ account →
    (∀ e' ∈ account, e'.OfBefore) ∧ ∀ r, outcome = some r →
      ∃ j e', r = .error e' ∧ .beforeEnded j (.error e') ∈ account
  /-- At most one method is called, and at most once. -/
  oneMethod : (account.filter Event.isMethod).length ≤ 1
  /-- All hooks after the field get the same value and the data that all other callables get. -/
  sameValue : ∀ hook value d hook' value' d', .after hook value d ∈ account →
    .after hook' value' d' ∈ account → value = value' ∧ d = data ∧ d' = data
  /-- The field comes to a value exactly if all phases have succeeded with it, and else to the
  failure of one of them. -/
  returned : ∀ r, outcome = some r → (∀ value, r = .ok value ↔ f.Succeeded data account value) ∧
    ∀ e, r = .error e → f.Failed data account e

/-! ## Orderly accounts -/

variable {f data} {account past : Account}

namespace Orderly

theorem allows (h : f.Orderly data account) {past later : Account} {e : Event}
    (heq : account = past ++ e :: later) : f.Allows data past e := by
  induction h generalizing past e later with
  | nil => simp at heq
  | @snoc before last _ hlast ih =>
    rcases List.eq_nil_or_concat' later with rfl | ⟨later, e', rfl⟩
    · obtain ⟨rfl, he⟩ := List.append_inj' heq rfl
      cases he
      exact hlast
    · rw [← List.cons_append, ← List.append_assoc] at heq
      exact ih (List.append_inj' heq rfl).1

theorem allows_of_mem (h : f.Orderly data account) {e : Event} (he : e ∈ account) :
    ∃ past, past <+: account ∧ f.Allows data past e := by
  obtain ⟨past, later, rfl⟩ := List.append_of_mem he
  exact ⟨past, List.prefix_append _ _, h.allows rfl⟩

/-- Of events that are not allowed after one of their kind there is only one. -/
theorem unique (h : f.Orderly data account) (kind : Event → Prop)
    (hkind : ∀ past e, f.Allows data past e → kind e → ∀ e' ∈ past, ¬ kind e') {e e' : Event}
    (he : e ∈ account) (he' : e' ∈ account) (hk : kind e) (hk' : kind e') : e = e' := by
  induction h with
  | nil => cases he
  | @snoc past last _ hlast ih =>
    rcases List.mem_append.1 he with hpast | hlast' <;>
      rcases List.mem_append.1 he' with hpast' | hlast''
    · exact ih hpast hpast'
    · cases List.mem_singleton.1 hlast''
      exact absurd hk (hkind past e' hlast hk' e hpast)
    · cases List.mem_singleton.1 hlast'
      exact absurd hk' (hkind past e hlast hk e' hpast')
    · rw [List.mem_singleton.1 hlast', List.mem_singleton.1 hlast'']

theorem length_filter_isMethod_le (h : f.Orderly data account) :
    (account.filter Event.isMethod).length ≤ 1 := by
  induction h with
  | nil => exact Nat.zero_le 1
  | @snoc past e _ he ih =>
    cases e with
    | method id source args =>
      have hnone : past.filter Event.isMethod = [] := by
        simpa [List.filter_eq_nil_iff] using he.2.2.2.2
      simp [List.filter_append, List.filter_cons, hnone, Event.isMethod]
    | _ => simpa [List.filter_append, List.filter_cons, Event.isMethod] using ih

theorem beforeEnded_unique (h : f.Orderly data account) {i : Nat} {r r' : Except FieldError Unit}
    (hr : .beforeEnded i r ∈ account) (hr' : .beforeEnded i r' ∈ account) : r = r' := by
  have heq := h.unique (fun e ↦ ∃ r, e = .beforeEnded i r) ?_ hr hr' ⟨r, rfl⟩ ⟨r', rfl⟩
  · cases heq
    rfl
  · rintro past _ hallows ⟨r, rfl⟩ _ hmem ⟨r', rfl⟩
    exact hallows.2.2 r' hmem

theorem afterEnded_unique (h : f.Orderly data account) {i : Nat} {r r' : Except FieldError Unit}
    (hr : .afterEnded i r ∈ account) (hr' : .afterEnded i r' ∈ account) : r = r' := by
  have heq := h.unique (fun e ↦ ∃ r, e = .afterEnded i r) ?_ hr hr' ⟨r, rfl⟩ ⟨r', rfl⟩
  · cases heq
    rfl
  · rintro past _ hallows ⟨r, rfl⟩ _ hmem ⟨r', rfl⟩
    exact hallows.2 r' hmem

theorem methodEnded_unique (h : f.Orderly data account) {r r' : Except FieldError HostValue}
    (hr : .methodEnded r ∈ account) (hr' : .methodEnded r' ∈ account) : r = r' := by
  have heq := h.unique (fun e ↦ ∃ r, e = .methodEnded r) ?_ hr hr' ⟨r, rfl⟩ ⟨r', rfl⟩
  · cases heq
    rfl
  · rintro past _ hallows ⟨r, rfl⟩ _ hmem ⟨r', rfl⟩
    exact hallows.2 r' hmem

end Orderly

theorem getElem?_of_prefix (hsub : past <+: account) {i : Nat} {e : Event}
    (h : past[i]? = some e) : account[i]? = some e := by
  obtain ⟨later, rfl⟩ := hsub
  rw [List.getElem?_append_left (List.getElem?_eq_some_iff.1 h).1, h]

theorem BeforeDone.mono (h : f.BeforeDone data past) (hsub : past <+: account) :
    f.BeforeDone data account :=
  ⟨h.called.trans hsub, fun i hi ↦ hsub.subset (h.ended i hi)⟩

theorem Produced.mono {raw : HostValue} (h : f.Produced data past raw) (hsub : past <+: account) :
    f.Produced data account raw := by
  rw [Produced] at h ⊢
  split at h
  · exact h
  · exact hsub.subset h

theorem Produced.unique (horderly : f.Orderly data account) {raw raw' : HostValue}
    (h : f.Produced data account raw) (h' : f.Produced data account raw') : raw = raw' := by
  rw [Produced] at h h'
  cases htarget : f.target data.source <;> rw [htarget] at h h'
  · rw [h, h']
  · exact Except.ok.inj (horderly.methodEnded_unique h h')

/-- Whatever is not done before the field is done when all hooks before it have ended well. -/
theorem Orderly.beforeDone (h : f.Orderly data account) {e : Event} (he : e ∈ account)
    (hnot : ¬ e.OfBefore) : f.BeforeDone data account := by
  induction h generalizing e with
  | nil => cases he
  | @snoc past last hpast hlast ih =>
    have hsub : past <+: past ++ [last] := List.prefix_append _ _
    rcases List.mem_append.1 he with hmem | hmem
    · exact (ih hmem hnot).mono hsub
    · cases List.mem_singleton.1 hmem
      cases last with
      | before | beforeEnded => exact absurd trivial hnot
      | injected => exact hlast.2.1.mono hsub
      | method => exact hlast.1.mono hsub
      | after => exact hlast.2.2.1.mono hsub
      | methodEnded =>
        obtain ⟨e, he, hmethod⟩ := hlast.1
        refine (ih he fun hbefore ↦ ?_).mono hsub
        cases e <;> simp [Event.isMethod, Event.OfBefore] at hmethod hbefore
      | afterEnded i =>
        obtain ⟨hook, value, hcall⟩ := hlast.1
        exact (ih (List.mem_of_getElem? hcall) id).mono hsub

/-- A hook before the field that has failed has not ended well. -/
theorem Orderly.not_beforeDone (h : f.Orderly data account) {i : Nat} {e : FieldError}
    (he : .beforeEnded i (.error e) ∈ account) : ¬ f.BeforeDone data account := by
  intro hdone
  obtain ⟨past, _, hi, -⟩ := h.allows_of_mem he
  cases h.beforeEnded_unique he (hdone.ended i hi)

/-- A phase that has failed has not succeeded. -/
theorem Failed.not_succeeded (h : f.Orderly data account) {e : FieldError}
    (hfailed : f.Failed data account e) {value : HostValue} :
    ¬ f.Succeeded data account value := by
  intro hsucceeded
  obtain ⟨raw, hraw, hcast⟩ := hsucceeded.produced
  cases hfailed with
  | before he => exact h.not_beforeDone he hsucceeded.before
  | binding _ htarget _ _ _ hmethod =>
    rw [Produced, htarget] at hraw
    obtain ⟨past, hsub, ⟨e, he, hcalled⟩, -⟩ := h.allows_of_mem hraw
    rw [hmethod e (hsub.subset he)] at hcalled
    cases hcalled
  | method he =>
    rw [Produced] at hraw
    split at hraw
    · rename_i htarget
      obtain ⟨past, hsub, ⟨e, hmem, hcalled⟩, -⟩ := h.allows_of_mem he
      obtain ⟨past', _, hallowed⟩ := h.allows_of_mem (hsub.subset hmem)
      cases e with
      | method id source args =>
        cases htarget.symm.trans hallowed.2.1
      | _ => cases hcalled
    · cases h.methodEnded_unique he hraw
  | cast _ hraw' hcast' =>
    cases Produced.unique h hraw hraw'
    cases hcast.symm.trans hcast'
  | @after i e he =>
    obtain ⟨past, hsub, ⟨hook, v, hcall⟩, -⟩ := h.allows_of_mem he
    have hi : account[i]? = some (.after hook v data) := getElem?_of_prefix hsub hcall
    cases h.afterEnded_unique he (hsucceeded.ended i hook v data hi)

/-- What is orderly, and has come to what its phases have come to, is disciplined. -/
theorem Orderly.disciplined (h : f.Orderly data account)
    {outcome : Option (Except FieldError HostValue)}
    (hr : ∀ r, outcome = some r →
      match r with
      | .ok value => f.Succeeded data account value
      | .error e => f.Failed data account e) : f.Disciplined data account outcome where
  allowed _ _ _ heq := h.allows heq
  refused i e he := by
    have hbefore : ∀ e' ∈ account, e'.OfBefore := by
      intro e' he'
      by_contra hnot
      exact h.not_beforeDone he (h.beforeDone he' hnot)
    refine ⟨hbefore, fun r hsome ↦ ?_⟩
    have hr := hr r hsome
    cases r with
    | ok value => exact absurd hr.before (h.not_beforeDone he)
    | error e' =>
      cases hr with
      | @before j _ he' => exact ⟨j, e', rfl, he'⟩
      | binding hdone => exact absurd hdone (h.not_beforeDone he)
      | cast hdone => exact absurd hdone (h.not_beforeDone he)
      | method he' => exact (hbefore _ he').elim
      | after he' => exact (hbefore _ he').elim
  oneMethod := h.length_filter_isMethod_le
  sameValue hook value d hook' value' d' hv hv' := by
    obtain ⟨past, hsub, rfl, -, -, raw, hraw, hcast⟩ := h.allows_of_mem hv
    obtain ⟨past', hsub', rfl, -, -, raw', hraw', hcast'⟩ := h.allows_of_mem hv'
    cases Produced.unique h (hraw.mono hsub) (hraw'.mono hsub')
    exact ⟨Except.ok.inj (hcast.symm.trans hcast'), rfl, rfl⟩
  returned r hsome := by
    have hr := hr r hsome
    cases r with
    | ok value =>
      refine ⟨fun value' ↦ ⟨fun heq ↦ Except.ok.inj heq ▸ hr, fun hs ↦ ?_⟩, nofun⟩
      obtain ⟨raw, hraw, hcast⟩ := hr.produced
      obtain ⟨raw', hraw', hcast'⟩ := hs.produced
      cases Produced.unique h hraw hraw'
      rw [Except.ok.inj (hcast.symm.trans hcast')]
    | error e =>
      refine ⟨fun value' ↦ ⟨nofun, fun hs ↦ absurd hs (hr.not_succeeded h)⟩, ?_⟩
      rintro _ ⟨⟩
      exact hr

end FieldResolver

end ApiGraph
