import ApiGraph.Field.Resolver
import ApiGraph.Proofs.Process.Owns

/-!
# An account of what a field invokes

A field is resolved by hooks, injectors and methods of the program, some of them side by side, each
pausing as it likes while others change the state.  What is invoked when does not show in the state,
so here the program keeps an account of it, which changes nothing else.

## What is here

* `Event`, `Account` and `Host.noted`: the program with an account of what is invoked and how it
  ends.
* `Run.Leads`: the points that a run can come to, and `Run.Meets`: what holds of the account at each
  of them.
* `FieldResolver.call_erases`: without the account a field does the same.
-/

set_option autoImplicit false

namespace ApiGraph

variable {σ α β : Type}

/-! ## The account -/

/-- Something that happens while a field is resolved.  A call of a hook is known by its place in the
account. -/
inductive Event where
  | before (hook : Hook) (data : ResolverData)
  | beforeEnded (call : Nat) (result : Except FieldError Unit)
  | injected (id : InjectorId) (data : ResolverData) (value : HostValue)
  | method (id : MethodId) (source : HostValue) (args : List HostValue)
  | methodEnded (result : Except FieldError HostValue)
  | after (hook : Hook) (value : HostValue) (data : ResolverData)
  | afterEnded (call : Nat) (result : Except FieldError Unit)

/-- What has happened, in order. -/
abbrev Account := List Event

namespace Account

/-- Takes note of an event. -/
def note (e : Event) : StateM (σ × Account) Unit := modify fun s ↦ (s.1, s.2 ++ [e])

/-- A step of which no note is taken. -/
def silently (x : StateM σ α) : StateM (σ × Account) α := fun s ↦ ((x s.1).1, ((x s.1).2, s.2))

/-- A process, the end of which is noted. -/
def untilEnd (ended : α → Event) (p : Process σ α) : Process (σ × Account) α := do
  let a ← p.within Prod.fst fun s (t : σ × Account) ↦ (s, t.2)
  Process.ofState (note (ended a))
  return a

/-- A call of a hook and the end of the process that it leaves are noted. -/
def hook (called : Event) (ended : Nat → Except FieldError Unit → Event)
    (call : StateM σ (Process σ (Except FieldError Unit))) :
    StateM (σ × Account) (Process (σ × Account) (Except FieldError Unit)) := do
  let (_, account) ← get
  note called
  let p ← silently call
  return untilEnd (ended account.length) p

end Account

open Account in
/-- The same program, with an account of what is invoked while fields are resolved. -/
def Host.noted (host : Host σ) : Host (σ × Account) where
  forced label := silently (host.forced label)
  construct id := silently (host.construct id)
  discriminate id value context info := silently (host.discriminate id value context info)
  method id source args := do
    Process.ofState (note (.method id source args))
    untilEnd .methodEnded (host.method id source args)
  before hook data := Account.hook (.before hook data) .beforeEnded (host.before hook data)
  after hook value data :=
    Account.hook (.after hook value data) .afterEnded (host.after hook value data)
  inject id data := do
    let value ← silently (host.inject id data)
    note (.injected id data value)
    return value

/-! ## Runs with an account -/

/-- The state in which a run stands. -/
def Run.state {S : Type} : Run S α → S
  | .done _ s | .paused s _ => s

/-- What a run has come to, if it has ended. -/
def Run.outcome {S : Type} : Run S α → Option α
  | .done a _ => some a
  | .paused _ _ => none

/-- The points that a run can come to, if the state may change as given while it is paused. -/
inductive Run.Leads {S : Type} (change : S → S → Prop) : Run S α → Run S α → Prop
  | refl (r : Run S α) : Run.Leads change r r
  | resume {r : Run S α} {s s' : S} {next : S → Run S α} (h : Run.Leads change r (.paused s next))
    (hs : change s s') : Run.Leads change r (next s')

/-- Whoever changes the state leaves the account to the run. -/
def SameAccount (s s' : σ × Account) : Prop := s'.2 = s.2

/-- Of the account something holds at every pause, and something of the value and the account at the
end, however others change the state. -/
def Run.Meets (during : Account → Prop) (post : α → Account → Prop) : Run (σ × Account) α → Prop
  | .done a s => post a s.2
  | .paused s resume => during s.2 ∧ ∀ s', SameAccount s s' → (resume s').Meets during post

theorem Run.Meets.of_leads {during : Account → Prop} {post : α → Account → Prop}
    {r point : Run (σ × Account) α} (h : r.Meets during post) (hp : r.Leads SameAccount point) :
    point.Meets during post := by
  induction hp with
  | refl => exact h
  | resume _ hs ih => exact ih.2 _ hs

theorem Run.Meets.imp {during during' : Account → Prop} {post post' : α → Account → Prop}
    {r : Run (σ × Account) α} (h : r.Meets during post) (hduring : ∀ a, during a → during' a)
    (hpost : ∀ a account, post a account → post' a account) : r.Meets during' post' := by
  induction r with
  | done a s => exact hpost a s.2 h
  | paused s resume ih => exact ⟨hduring _ h.1, fun s' hs ↦ ih s' (h.2 s' hs)⟩

theorem Run.Meets.andThen {during : Account → Prop} {mid : α → Account → Prop}
    {post : β → Account → Prop} {r : Run (σ × Account) α} (h : r.Meets during mid)
    {next : α → Process (σ × Account) β}
    (hnext : ∀ a s, mid a s.2 → (next a s).Meets during post) :
    (r.andThen next).Meets during post := by
  induction r with
  | done a s => exact hnext a s h
  | paused s resume ih => exact ⟨h.1, fun s' hs ↦ ih s' (h.2 s' hs)⟩

/-- What processes side by side keep, they keep of the account. -/
theorem Run.Owns.meets {ι R : Type} {inv : (ι → Option R) → Account → Prop} {own : Set ι}
    {post : α → (ι → Option R) → Prop} {o : ι → Option R} {r : Run (σ × Account) α}
    (h : r.Owns (fun o s ↦ inv o s.2) own post o) :
    r.Meets (fun account ↦ ∃ o, inv o account) (fun a account ↦ ∃ o, inv o account ∧ post a o) := by
  induction r generalizing o with
  | done a s =>
    obtain ⟨o', -, hinv, hpost⟩ := h
    exact ⟨o', hinv, hpost⟩
  | paused s resume ih =>
    obtain ⟨o', -, hinv, hresume⟩ := h
    refine ⟨⟨o', hinv⟩, fun s' hs ↦ ih s' (hresume o' s' (Set.eqOn_refl _ _) ?_)⟩
    show inv o' s'.2
    rw [show s'.2 = s.2 from hs]
    exact hinv

/-- A process of the host, started with an account that meets a condition. -/
def Resolve.Meets (pre : Account → Prop) (x : Resolve (σ × Account) α) (during : Account → Prop)
    (post : Except FieldError α → Account → Prop) : Prop :=
  ∀ s, pre s.2 → (x.run s).Meets during post

namespace Resolve.Meets

variable {pre during : Account → Prop} {post : Except FieldError β → Account → Prop}

/-- What a resolution does after it has come so far; a failure ends it. -/
theorem bind {x : Resolve (σ × Account) α} {next : α → Resolve (σ × Account) β}
    {mid : Except FieldError α → Account → Prop} (hx : Resolve.Meets pre x during mid)
    (hok : ∀ a, Resolve.Meets (mid (.ok a)) (next a) during post)
    (herror : ∀ e account, mid (.error e) account → post (.error e) account) :
    Resolve.Meets pre (x >>= next) during post := by
  intro s hs
  refine (hx s hs).andThen fun r s hr ↦ ?_
  cases r with
  | ok a => exact hok a s hr
  | error e => exact herror e s.2 hr

theorem pure {b : β} (h : ∀ account, pre account → post (.ok b) account) :
    Resolve.Meets (σ := σ) pre (Pure.pure b) during post :=
  fun s hs ↦ h s.2 hs

end Resolve.Meets

theorem Resolve.run_lift_bind (x : StateM σ α) (next : α → Resolve σ β) (s : σ) :
    ((liftM x : Resolve σ α) >>= next).run s = (next (x s).1).run (x s).2 := rfl

theorem Resolve.run_mk_bind (p : Process σ (Except FieldError α)) (next : α → Resolve σ β) (s : σ) :
    ((ExceptT.mk p : Resolve σ α) >>= next).run s = (p s).andThen fun r s ↦
      match r with
      | .ok a => (next a).run s
      | .error e => .done (.error e) s := by
  show (p s).andThen _ = _
  congr 1
  funext r s
  cases r <;> rfl

/-- A phase is a join of what its hooks leave. -/
theorem joinHooks_run (join : HookJoin σ)
    (call : Hook → StateM σ (Process σ (Except FieldError Unit))) {hooks : List Hook}
    (hne : hooks ≠ []) (s : σ) :
    (joinHooks join call hooks).run s =
      (join (hooks.mapM call s).1 (hooks.mapM call s).2).map (Except.map fun _ ↦ ()) := by
  rw [joinHooks, if_neg (by simpa using hne), Resolve.run_lift_bind, Resolve.run_mk_bind, Run.map]
  congr 1
  funext r s
  cases r <;> rfl

/-! ## The same without the account -/

namespace Account

theorem note_erases {same : α → β → Prop} (e : Event) {p : Process (σ × Account) α}
    {q : Process σ β} (h : p.Erases same q) :
    Process.Erases same (Process.ofState (note e) >>= fun _ ↦ p) q :=
  fun s ↦ h (s.1, s.2 ++ [e])

theorem untilEnd_erases (ended : α → Event) (p : Process σ α) :
    Process.Erases Eq (untilEnd ended p) p := by
  have hbind : Process.Erases Eq (untilEnd ended p) (p >>= pure) :=
    (Process.Erases.within (T := Account) p).bind fun a b hab ↦ note_erases _ (.pure hab)
  rwa [bind_pure] at hbind

theorem hook_erases (called : Event) (ended : Nat → Except FieldError Unit → Event)
    (call : StateM σ (Process σ (Except FieldError Unit))) :
    StepErases (Process.Erases Eq) (hook called ended call) call :=
  fun _ ↦ ⟨rfl, untilEnd_erases _ _⟩

end Account

theorem StepErases.mapM {γ : Type} {same : α → β → Prop} {f : γ → StateM (σ × Account) α}
    {g : γ → StateM σ β} (h : ∀ c, StepErases same (f c) (g c)) (l : List γ) :
    StepErases (List.Forall₂ same) (l.mapM f) (l.mapM g) := by
  induction l with
  | nil => exact fun _ ↦ ⟨rfl, .nil⟩
  | cons c rest ih =>
    intro s
    rw [List.mapM_cons, List.mapM_cons]
    obtain ⟨hstate, hvalue⟩ := h c s
    obtain ⟨hstate', hvalues⟩ := ih (f c s).2
    rw [hstate] at hstate' hvalues
    exact ⟨hstate', .cons hvalue hvalues⟩

theorem joinHooks_erases {join : ∀ S : Type, HookJoin S} (hjoin : Process.Joins join)
    {call : Hook → StateM (σ × Account) (Process (σ × Account) (Except FieldError Unit))}
    {call' : Hook → StateM σ (Process σ (Except FieldError Unit))}
    (h : ∀ hook, StepErases (Process.Erases Eq) (call hook) (call' hook)) {hooks : List Hook} :
    Process.Erases Eq (joinHooks (join _) call hooks).run (joinHooks (join _) call' hooks).run := by
  rcases eq_or_ne hooks [] with rfl | hne
  · exact .pure rfl
  intro s
  obtain ⟨hstate, hcalled⟩ := StepErases.mapM h hooks s
  rw [joinHooks_run _ _ hne, joinHooks_run _ _ hne, ← hstate]
  exact (hjoin.erases hcalled _).map fun _ _ heq ↦ heq ▸ rfl

theorem Process.Erases.bindResolve {x : Resolve (σ × Account) α} {y : Resolve σ α}
    (h : Process.Erases Eq x.run y.run) {next : α → Resolve (σ × Account) β}
    {next' : α → Resolve σ β} (hnext : ∀ a, Process.Erases Eq (next a).run (next' a).run) :
    Process.Erases Eq (x >>= next).run (y >>= next').run := by
  refine Process.Erases.bind h ?_
  rintro (e | a) _ rfl
  · exact .pure rfl
  · exact hnext a

theorem bind_erases (host : Host σ) (data : ResolverData) (p : ParamBinding) :
    Process.Erases Eq (p.bind host.noted data).run (p.bind host data).run := by
  rw [ParamBinding.bind, ParamBinding.bind]
  cases p.binding with
  | injected i =>
    cases i <;> exact fun _ ↦ ⟨rfl, rfl⟩
  | argument | unbound =>
    cases p.supplied data <;> exact .pure rfl

theorem mapM_bind_erases (host : Host σ) (data : ResolverData) (params : List ParamBinding) :
    Process.Erases Eq (params.mapM (ParamBinding.bind host.noted data)).run
      (params.mapM (ParamBinding.bind host data)).run := by
  induction params with
  | nil => exact .pure rfl
  | cons p rest ih =>
    rw [List.mapM_cons, List.mapM_cons]
    exact (bind_erases host data p).bindResolve fun _ ↦ ih.bindResolve fun _ ↦ .pure rfl

theorem produce_erases (host : Host σ) (f : FieldResolver) (data : ResolverData) :
    Process.Erases Eq (f.produce host.noted data).run (f.produce host data).run := by
  rw [FieldResolver.produce, FieldResolver.produce]
  cases f.target data.source with
  | value value => exact .pure rfl
  | method id =>
    exact (mapM_bind_erases host data f.params).bindResolve fun args ↦
      Account.note_erases _ (Account.untilEnd_erases _ _)

theorem FieldResolver.call_erases {join : ∀ S : Type, HookJoin S} (hjoin : Process.Joins join)
    (host : Host σ) (f : FieldResolver) (source : HostValue) (args : OrderedMap String HostValue)
    (context : Option RequestContext) (info : ResolveInfo) :
    Process.Erases Eq (f.call host.noted source args context info (join _)).run
      (f.call host source args context info (join _)).run := by
  rw [FieldResolver.call, FieldResolver.call]
  refine (joinHooks_erases hjoin fun hook ↦ Account.hook_erases _ _ _).bindResolve fun _ ↦ ?_
  refine (produce_erases host f _).bindResolve fun raw ↦ ?_
  refine Process.Erases.bindResolve (.pure rfl) fun value ↦ ?_
  exact (joinHooks_erases hjoin fun hook ↦ Account.hook_erases _ _ _).bindResolve fun _ ↦ .pure rfl

end ApiGraph
