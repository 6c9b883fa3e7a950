import ApiGraph.Proofs.Process.Erases

/-!
# What processes side by side come to

Processes that run side by side share a state, and every one of them finds it as the others have
left it.  What can be said of all of them together is said of one at a time: each party has an
outcome, none as long as it has not ended, and an invariant ties the outcomes to the state.  A
process that works for some of the parties keeps the invariant, settles the outcomes of those
parties only, and may rely on nobody else settling them.

## What is here

* `Run.Owns` and `Process.Owns`: a run and a process that work for some of the parties.
* `Run.Owns.andThen`: one run after the other, the second for more parties than the first.
* `Process.Joins`: what is asked of a way to run processes side by side.
* `Process.join_joins`: polling them in order or in turn is such a way.
-/

set_option autoImplicit false

namespace ApiGraph

variable {S α β ε R ι : Type}

/-! ## Working for some of the parties -/

section Owns

variable (inv : (ι → Option R) → S → Prop)

/-- The run settles the outcomes of its own parties only, and keeps the invariant as long as nobody
else settles them; at the end its value fits the outcomes. -/
def Run.Owns (own : Set ι) (post : α → (ι → Option R) → Prop) : Run S α → (ι → Option R) → Prop
  | .done a s, o => ∃ o', Set.EqOn o' o ownᶜ ∧ inv o' s ∧ post a o'
  | .paused s resume, o => ∃ o', Set.EqOn o' o ownᶜ ∧ inv o' s ∧
      ∀ o'' s', Set.EqOn o'' o' own → inv o'' s' → (resume s').Owns own post o''

/-- Started in any state in which its own parties stand as given, the process works for them. -/
def Process.Owns (own : Set ι) (post : α → (ι → Option R) → Prop) (p : Process S α)
    (o : ι → Option R) : Prop :=
  ∀ o' s, Set.EqOn o' o own → inv o' s → (p s).Owns inv own post o'

end Owns

variable {inv : (ι → Option R) → S → Prop} {own whole : Set ι} {post : α → (ι → Option R) → Prop}
  {post' : β → (ι → Option R) → Prop} {o o' : ι → Option R}

namespace Run.Owns

/-- Others may have come further before the run starts. -/
theorem rebase {r : Run S α} (h : r.Owns inv own post o') (ho : Set.EqOn o' o ownᶜ) :
    r.Owns inv own post o := by
  cases r with
  | done a s =>
    obtain ⟨o₁, ho₁, hinv, hpost⟩ := h
    exact ⟨o₁, ho₁.trans ho, hinv, hpost⟩
  | paused s resume =>
    obtain ⟨o₁, ho₁, hinv, hresume⟩ := h
    exact ⟨o₁, ho₁.trans ho, hinv, hresume⟩

theorem done {a : α} {s : S} (hinv : inv o s) (hpost : post a o) :
    (Run.done a s).Owns inv own post o :=
  ⟨o, Set.eqOn_refl _ _, hinv, hpost⟩

/-- One run after the other: the second may work for parties which the first leaves alone. -/
theorem andThen {r : Run S α} (h : r.Owns inv own post o) (hsub : own ⊆ whole)
    {f : α → Process S β} (hf : ∀ a o' s, Set.EqOn o' o (whole \ own) → post a o' → inv o' s →
      (f a s).Owns inv whole post' o') : (r.andThen f).Owns inv whole post' o := by
  induction r generalizing o with
  | done a s =>
    obtain ⟨o₁, ho₁, hinv, hpost⟩ := h
    refine (hf a o₁ s (ho₁.mono fun i hi ↦ hi.2) hpost hinv).rebase ?_
    exact ho₁.mono (Set.compl_subset_compl.2 hsub)
  | paused s resume ih =>
    obtain ⟨o₁, ho₁, hinv, hresume⟩ := h
    refine ⟨o₁, ho₁.mono (Set.compl_subset_compl.2 hsub), hinv, fun o₂ s' ho₂ hinv₂ ↦ ?_⟩
    refine ih s' (hresume o₂ s' (ho₂.mono hsub) hinv₂) fun a o₃ s ho₃ ↦ hf a o₃ s ?_
    intro i hi
    rw [ho₃ hi, ho₂ hi.1, ho₁ hi.2]

/-- The value may be told in another way, and for more parties. -/
theorem map {r : Run S α} (h : r.Owns inv own post o) (hsub : own ⊆ whole) {f : α → β}
    (hf : ∀ a o', Set.EqOn o' o (whole \ own) → post a o' → post' (f a) o') :
    (r.map f).Owns inv whole post' o :=
  h.andThen hsub fun a o' _ ho' hpost hinv ↦ .done hinv (hf a o' ho' hpost)

/-- Pausing lets the others go on. -/
theorem pause {f : Unit → Process S β} {s : S} (hinv : inv o s)
    (hf : Process.Owns inv own post' (f ()) o) (n : Nat) :
    ((Process.pause n s).andThen f).Owns inv own post' o := by
  induction n generalizing o s with
  | zero => exact hf o s (Set.eqOn_refl _ _) hinv
  | succ n ih =>
    refine ⟨o, Set.eqOn_refl _ _, hinv, fun o₁ s' ho₁ hinv₁ ↦ ih hinv₁ fun o₂ s'' ho₂ ↦ ?_⟩
    exact hf o₂ s'' (ho₂.trans ho₁)

end Run.Owns

theorem Process.Owns.of_eqOn {p : Process S α} (h : Process.Owns inv own post p o)
    (ho : Set.EqOn o' o own) : Process.Owns inv own post p o' :=
  fun o₁ s ho₁ ↦ h o₁ s (ho₁.trans ho)

/-! ## Parties that end well or fail -/

section Join

variable {inv : (ι → Option (Except ε α)) → S → Prop} {o o' : ι → Option (Except ε α)} {i : ι}
  {is : List ι}

/-- A value that is the outcome of a party. -/
def Ended (i : ι) (r : Except ε α) (o : ι → Option (Except ε α)) : Prop := o i = some r

/-- The values of parties that have all ended well, or the failure of one that has failed. -/
def Joined (is : List ι) (r : Except ε (List α)) (o : ι → Option (Except ε α)) : Prop :=
  match r with
  | .ok values => is.map o = values.map fun a ↦ some (.ok a)
  | .error e => ∃ i ∈ is, o i = some (.error e)

/-- A process that works for one party. -/
abbrev Process.Serves (inv : (ι → Option (Except ε α)) → S → Prop) (i : ι)
    (p : Process S (Except ε α)) (o : ι → Option (Except ε α)) : Prop :=
  Process.Owns inv {i} (Ended i) p o

theorem Joined.of_error {e : ε} (h : o i = some (.error e)) (hi : i ∈ is) :
    Joined is (.error e : Except ε (List α)) o := ⟨i, hi, h⟩

/-- One party more that has ended well. -/
theorem Joined.of_ok {a : α} (h : o i = some (.ok a)) {r : Except ε (List α)}
    (hr : Joined is r o) : Joined (i :: is) (r.map fun others ↦ a :: others) o := by
  cases r with
  | ok values =>
    have hvalues : is.map o = values.map fun a ↦ some (.ok a) := hr
    show (i :: is).map o = (a :: values).map fun a ↦ some (.ok a)
    rw [List.map_cons, List.map_cons, h, hvalues]
  | error e =>
    obtain ⟨j, hj, he⟩ := hr
    exact ⟨j, List.mem_cons_of_mem _ hj, he⟩

/-- Only the outcomes of the parties themselves matter. -/
theorem Joined.of_eqOn {r : Except ε (List α)} (h : Joined is r o)
    (ho : Set.EqOn o' o {j | j ∈ is}) : Joined is r o' := by
  cases r with
  | ok values => exact (List.map_congr_left fun j hj ↦ ho hj).trans h
  | error e =>
    obtain ⟨j, hj, he⟩ := h
    exact ⟨j, hj, (ho hj).trans he⟩

theorem subset_cons (i : ι) (is : List ι) : {j | j ∈ is} ⊆ {j | j ∈ i :: is} :=
  fun _ ↦ List.mem_cons_of_mem i

theorem singleton_subset_cons (i : ι) (is : List ι) : ({i} : Set ι) ⊆ {j | j ∈ i :: is} :=
  fun _ hj ↦ hj ▸ List.mem_cons_self

/-- What is settled for others leaves a party as it was. -/
theorem eqOn_of_not_mem (hi : i ∉ is) (h : Set.EqOn o' o {j | j ∈ is}ᶜ) : o' i = o i := h hi

theorem eqOn_cons (hi : i ∉ is) (h : Set.EqOn o' o {i}ᶜ) : Set.EqOn o' o {j | j ∈ is} :=
  fun j hj ↦ h fun hji ↦ hi ((show j = i from hji) ▸ hj)

/-! ### A few processes -/

/-- A run that is polled with the processes after it. -/
theorem Run.Owns.both (hi : i ∉ is) {r : Run S (Except ε α)} (hr : r.Owns inv {i} (Ended i) o)
    {q : Process S (Except ε (List α))} (hq : Process.Owns inv {j | j ∈ is} (Joined is) q o) :
    (r.both q).Owns inv {j | j ∈ i :: is}
      (fun v o ↦ Joined (i :: is) (v.map fun p ↦ p.1 :: p.2) o) o := by
  induction r generalizing q o with
  | done v s =>
    obtain ⟨o₁, ho₁, hinv, hv⟩ := hr
    have hout : Set.EqOn o₁ o {j | j ∈ i :: is}ᶜ :=
      ho₁.mono (Set.compl_subset_compl.2 (singleton_subset_cons i is))
    cases v with
    | error e => exact ⟨o₁, hout, hinv, .of_error hv List.mem_cons_self⟩
    | ok a =>
      refine Run.Owns.rebase ?_ hout
      refine (hq o₁ s (eqOn_cons hi ho₁) hinv).map (subset_cons i is) fun b o₂ ho₂ hb ↦ ?_
      have hia : o₂ i = some (.ok a) := (ho₂ ⟨List.mem_cons_self, hi⟩).trans hv
      have hjoined := Joined.of_ok hia hb
      cases b <;> exact hjoined
  | paused s resume ih =>
    obtain ⟨o₁, ho₁, hinv, hresume⟩ := hr
    have hout : Set.EqOn o₁ o {j | j ∈ i :: is}ᶜ :=
      ho₁.mono (Set.compl_subset_compl.2 (singleton_subset_cons i is))
    have hqs := hq o₁ s (eqOn_cons hi ho₁) hinv
    rw [Run.both]
    cases hrun : q s with
    | done v s₂ =>
      rw [hrun] at hqs
      obtain ⟨o₂, ho₂, hinv₂, hv⟩ := hqs
      have hout₂ : Set.EqOn o₂ o {j | j ∈ i :: is}ᶜ :=
        (ho₂.mono (Set.compl_subset_compl.2 (subset_cons i is))).trans hout
      cases v with
      | error e =>
        obtain ⟨j, hj, he⟩ := hv
        exact ⟨o₂, hout₂, hinv₂, .of_error he (List.mem_cons_of_mem _ hj)⟩
      | ok values =>
        refine ⟨o₂, hout₂, hinv₂, fun o₃ s' ho₃ hinv₃ ↦ ?_⟩
        have hi₃ : Set.EqOn o₃ o₁ {i} := by
          rintro _ rfl
          exact (ho₃ List.mem_cons_self).trans (eqOn_of_not_mem hi ho₂)
        refine (hresume o₃ s' hi₃ hinv₃).map (singleton_subset_cons i is) fun r o₄ ho₄ hr ↦ ?_
        cases r with
        | error e => exact .of_error hr List.mem_cons_self
        | ok a =>
          refine Joined.of_ok hr (r := .ok values) (Joined.of_eqOn hv fun j hj ↦ ?_)
          have hne : j ∉ ({i} : Set ι) := fun hji ↦ hi ((show j = i from hji) ▸ hj)
          exact (ho₄ ⟨List.mem_cons_of_mem _ hj, hne⟩).trans (ho₃ (List.mem_cons_of_mem _ hj))
    | paused s₂ q₂ =>
      rw [hrun] at hqs
      obtain ⟨o₂, ho₂, hinv₂, hq₂⟩ := hqs
      refine ⟨o₂, (ho₂.mono (Set.compl_subset_compl.2 (subset_cons i is))).trans hout, hinv₂,
        fun o₃ s' ho₃ hinv₃ ↦ ih s' (hresume o₃ s' ?_ hinv₃) fun o₄ s'' ho₄ ↦ hq₂ o₄ s'' ?_⟩
      · rintro _ rfl
        exact (ho₃ List.mem_cons_self).trans (eqOn_of_not_mem hi ho₂)
      · exact ho₄.trans (ho₃.mono (subset_cons i is))

theorem Process.few_owns {ps : List (Process S (Except ε α))} (his : is.Nodup)
    (h : List.Forall₂ (fun i p ↦ Process.Serves inv i p o) is ps) :
    Process.Owns inv {j | j ∈ is} (Joined is) (Process.few ps) o := by
  induction h with
  | nil => exact fun o₁ s _ hinv ↦ .done hinv rfl
  | @cons i p is ps hp _ ih =>
    obtain ⟨hi, his⟩ := List.nodup_cons.1 his
    intro o₁ s ho₁ hinv
    have hrun := hp o₁ s (ho₁.mono (singleton_subset_cons i is)) hinv
    have hrest := (ih his).of_eqOn (ho₁.mono (subset_cons i is))
    refine (Run.Owns.both hi hrun hrest).map subset_rfl fun v o₂ _ hv ↦ ?_
    cases v <;> exact hv

/-! ### Queues -/

/-- A process in a queue has ended with its party's outcome, or goes on working for it. -/
def Queued.Stands (inv : (ι → Option (Except ε α)) → S → Prop) (i : ι) :
    Process.Queued S (Except ε α) → (ι → Option (Except ε α)) → Prop
  | .ended r, o => o i = some r
  | .waiting p, o => Process.Serves inv i p o

theorem Queued.Stands.of_eqOn {x : Process.Queued S (Except ε α)} (h : Queued.Stands inv i x o)
    (ho : o' i = o i) : Queued.Stands inv i x o' := by
  cases x with
  | ended r => exact ho.trans h
  | waiting p => exact Process.Owns.of_eqOn h fun j hj ↦ (show j = i from hj) ▸ ho

/-- The processes of a queue, party by party. -/
def QueueStands (inv : (ι → Option (Except ε α)) → S → Prop) (is : List ι)
    (l : List (Process.Queued S (Except ε α))) (o : ι → Option (Except ε α)) : Prop :=
  List.Forall₂ (fun i x ↦ Queued.Stands inv i x o) is l

theorem QueueStands.of_eqOn {l : List (Process.Queued S (Except ε α))}
    (h : QueueStands inv is l o) (ho : Set.EqOn o' o {j | j ∈ is}) : QueueStands inv is l o' := by
  induction h with
  | nil => exact .nil
  | @cons i x is l hx _ ih =>
    exact .cons (hx.of_eqOn (ho List.mem_cons_self)) (ih (ho.mono (subset_cons i is)))

/-- Polling the processes of a queue once. -/
theorem Process.around_owns (his : is.Nodup) {l : List (Process.Queued S (Except ε α))}
    (h : QueueStands inv is l o) (paused : Bool) :
    Process.Owns inv {j | j ∈ is} (fun q ↦ QueueStands inv is q.2.val)
      (Process.around paused l) o := by
  induction l generalizing is o paused with
  | nil =>
    cases h
    exact fun o₁ s _ hinv ↦ .done hinv .nil
  | cons x l ih =>
    cases h with
    | @cons i _ is _ hx hl =>
    obtain ⟨hi, his⟩ := List.nodup_cons.1 his
    intro o₁ s ho₁ hinv
    have hx : Queued.Stands inv i x o₁ := hx.of_eqOn (ho₁ List.mem_cons_self)
    have hl : QueueStands inv is l o₁ := QueueStands.of_eqOn hl (ho₁.mono (subset_cons i is))
    have hcons : ∀ {x o₂ o₃} (q : Process.Queue S (Except ε α) l.length),
        Set.EqOn o₃ o₂ ({j | j ∈ i :: is} \ {j | j ∈ is}) → Queued.Stands inv i x o₂ →
          QueueStands inv is q.val o₃ → QueueStands inv (i :: is) (q.cons x).val o₃ :=
      fun q ho₃ hx hq ↦ .cons (hx.of_eqOn (ho₃ ⟨List.mem_cons_self, hi⟩)) hq
    cases x with
    | ended v =>
      exact (ih his hl paused o₁ s (Set.eqOn_refl _ _) hinv).map (subset_cons i is)
        fun q o₂ ho₂ hq ↦ hcons q.2 ho₂ hx hq
    | waiting p =>
      have hpolled := hx o₁ s (Set.eqOn_refl _ _) hinv
      rw [Process.around]
      cases hrun : p s with
      | done v s₂ =>
        rw [hrun] at hpolled
        simp only [hrun]
        obtain ⟨o₂, ho₂, hinv₂, hv⟩ := hpolled
        refine Run.Owns.rebase ?_ (ho₂.mono (Set.compl_subset_compl.2 (singleton_subset_cons i is)))
        have hl₂ : QueueStands inv is l o₂ := hl.of_eqOn (eqOn_cons hi ho₂)
        exact (ih his hl₂ false o₂ s₂ (Set.eqOn_refl _ _) hinv₂).map (subset_cons i is)
          fun q o₃ ho₃ hq ↦ hcons (x := .ended v) q.2 ho₃ hv hq
      | paused s₂ p₂ =>
        rw [hrun] at hpolled
        simp only [hrun]
        obtain ⟨o₂, ho₂, hinv₂, hp₂⟩ := hpolled
        refine Run.Owns.rebase ?_ (ho₂.mono (Set.compl_subset_compl.2 (singleton_subset_cons i is)))
        have hl₂ : QueueStands inv is l o₂ := hl.of_eqOn (eqOn_cons hi ho₂)
        refine Run.Owns.pause hinv₂ (fun o₃ s₃ ho₃ hinv₃ ↦ ?_) paused.toNat
        have hwaiting : Process.Serves inv i p₂ o₃ :=
          fun o₄ s₄ ho₄ ↦ hp₂ o₄ s₄ (ho₄.trans (ho₃.mono (singleton_subset_cons i is)))
        have hl₃ : QueueStands inv is l o₃ := hl₂.of_eqOn (ho₃.mono (subset_cons i is))
        exact (ih his hl₃ (!paused) o₃ s₃ (Set.eqOn_refl _ _) hinv₃).map (subset_cons i is)
          fun q o₄ ho₄ hq ↦ hcons (x := .waiting p₂) q.2 ho₄ hwaiting hq

/-- Polling a process and the queue behind it until the process has ended. -/
theorem Run.Owns.leading (hi : i ∉ is) (his : is.Nodup) {n : Nat}
    {next : Process.Queue S (Except ε α) n → Process S (Except ε (List α))}
    (hnext : ∀ {o} (q : Process.Queue S (Except ε α) n), QueueStands inv is q.val o →
      Process.Owns inv {j | j ∈ is} (Joined is) (next q) o)
    {r : Run S (Except ε α)} (hr : r.Owns inv {i} (Ended i) o) (paused : Bool)
    {q : Process.Queue S (Except ε α) n} (hq : QueueStands inv is q.val o) :
    (Process.leading next r paused q).Owns inv {j | j ∈ i :: is} (Joined (i :: is)) o := by
  induction r generalizing o paused q with
  | done v s =>
    obtain ⟨o₁, ho₁, hinv, hv⟩ := hr
    have hout := ho₁.mono (Set.compl_subset_compl.2 (singleton_subset_cons i is))
    cases v with
    | error e => exact ⟨o₁, hout, hinv, .of_error hv List.mem_cons_self⟩
    | ok a =>
      refine Run.Owns.rebase ?_ hout
      have hq₁ : QueueStands inv is q.val o₁ := hq.of_eqOn (eqOn_cons hi ho₁)
      exact (hnext q hq₁ o₁ s (Set.eqOn_refl _ _) hinv).map (subset_cons i is) fun b o₂ ho₂ hb ↦
        Joined.of_ok ((ho₂ ⟨List.mem_cons_self, hi⟩).trans hv) hb
  | paused s resume ih =>
    obtain ⟨o₁, ho₁, hinv, hresume⟩ := hr
    rw [Process.leading]
    refine Run.Owns.rebase ?_ (ho₁.mono (Set.compl_subset_compl.2 (singleton_subset_cons i is)))
    have hq₁ : QueueStands inv is q.val o₁ := hq.of_eqOn (eqOn_cons hi ho₁)
    refine Run.Owns.pause hinv (fun o₂ s₂ ho₂ hinv₂ ↦ ?_) _
    have hq₂ : QueueStands inv is q.val o₂ := hq₁.of_eqOn (ho₂.mono (subset_cons i is))
    refine (Process.around_owns his hq₂ _ o₂ s₂ (Set.eqOn_refl _ _) hinv₂).andThen
      (subset_cons i is) fun others o₃ s₃ ho₃ hothers hinv₃ ↦ ?_
    refine ih s₃ (hresume o₃ s₃ ?_ hinv₃) _ hothers
    rintro _ rfl
    exact (ho₃ ⟨List.mem_cons_self, hi⟩).trans (ho₂ List.mem_cons_self)

theorem Process.inTurn_owns (his : is.Nodup) {n : Nat} (q : Process.Queue S (Except ε α) n)
    (hq : QueueStands inv is q.val o) :
    Process.Owns inv {j | j ∈ is} (Joined is) (Process.inTurn n q) o := by
  induction n generalizing is o with
  | zero =>
    obtain ⟨l, hl⟩ := q
    cases List.eq_nil_of_length_eq_zero hl
    cases hq
    exact fun o₁ s _ hinv ↦ .done hinv rfl
  | succ n ih =>
    obtain ⟨l, hl⟩ := q
    cases hq with
    | nil => cases hl
    | @cons i x is rest hx hrest =>
    obtain ⟨hi, his⟩ := List.nodup_cons.1 his
    intro o₁ s ho₁ hinv
    have hx : Queued.Stands inv i x o₁ := hx.of_eqOn (ho₁ List.mem_cons_self)
    have hrest : QueueStands inv is rest o₁ :=
      QueueStands.of_eqOn hrest (ho₁.mono (subset_cons i is))
    match x, hx with
    | .ended (.ok a), hx =>
      exact (ih his ⟨rest, Nat.succ.inj hl⟩ hrest o₁ s (Set.eqOn_refl _ _) hinv).map
        (subset_cons i is) fun b o₂ ho₂ hb ↦
          Joined.of_ok ((ho₂ ⟨List.mem_cons_self, hi⟩).trans hx) hb
    | .ended (.error e), hx => exact .done hinv (.of_error hx List.mem_cons_self)
    | .waiting p, hx =>
      exact Run.Owns.leading hi his (fun q hq ↦ ih his q hq)
        (hx o₁ s (Set.eqOn_refl _ _) hinv) false hrest

theorem Process.many_owns {ps : List (Process S (Except ε α))} (his : is.Nodup)
    (h : List.Forall₂ (fun i p ↦ Process.Serves inv i p o) is ps) :
    Process.Owns inv {j | j ∈ is} (Joined is) (Process.many ps) o :=
  Process.inTurn_owns his _ (List.forall₂_map_right_iff.2 h)

theorem Process.join_owns {ps : List (Process S (Except ε α))} (his : is.Nodup)
    (h : List.Forall₂ (fun i p ↦ Process.Serves inv i p o) is ps) :
    Process.Owns inv {j | j ∈ is} (Joined is) (Process.join ps) o := by
  rw [Process.join]
  split
  · exact Process.few_owns his h
  · exact Process.many_owns his h

end Join

/-! ## Joins -/

/-- What is asked of a way to run processes side by side.  Nothing is said of when it polls which of
them: it does their work and no other, and it succeeds only when all of them have ended well, and
else fails with the failure of one of them.  It knows nothing of what they do to the state, so it
does the same if they keep an account. -/
structure Process.Joins
    (join : ∀ S : Type, List (Process S (Except ε α)) → Process S (Except ε (List α))) : Prop where
  /-- The join works for the parties of all its processes, and comes to what they have come to. -/
  owns {S ι : Type} {inv : (ι → Option (Except ε α)) → S → Prop} {is : List ι}
    {o : ι → Option (Except ε α)} {ps : List (Process S (Except ε α))} (his : is.Nodup)
    (h : List.Forall₂ (fun i p ↦ Process.Serves inv i p o) is ps) :
    Process.Owns inv {j | j ∈ is} (Joined is) (join S ps) o
  /-- The join does what it would do without a part of the state that only its processes see. -/
  erases {S T : Type} {ps : List (Process (S × T) (Except ε α))}
    {qs : List (Process S (Except ε α))} (h : List.Forall₂ (Process.Erases Eq) ps qs) :
    Process.Erases Eq (join (S × T) ps) (join S qs)

/-- **Polling processes in order or in turn joins them.** -/
theorem Process.join_joins : Process.Joins fun S ↦ Process.join (S := S) (ε := ε) (α := α) :=
  ⟨Process.join_owns, Process.join_erases⟩

end ApiGraph
