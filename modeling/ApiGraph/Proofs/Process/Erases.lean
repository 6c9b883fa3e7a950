import ApiGraph.Process.Join
import Mathlib

/-!
# Processes that do the same over more state

A process may keep an account of what it does in a part of the state which nothing else depends on.
It should then do what it would do without the account: pause and end at the same moments, leave the
same state and come to the same value.

## What is here

* `Run.Erases` and `Process.Erases`: a run or a process over more state, and one that it is without
  it.
* `Process.join_erases`: processes side by side.
-/

set_option autoImplicit false

namespace ApiGraph

variable {S T α α' β β' ε : Type}

/-- The first run is the second one over more state: they pause and end together, in the same state
as far as the second goes, with values that go together. -/
def Run.Erases (same : α → β → Prop) : Run (S × T) α → Run S β → Prop
  | .done a s, .done b t => s.1 = t ∧ same a b
  | .paused s resume, .paused t resume' => s.1 = t ∧ ∀ s', (resume s').Erases same (resume' s'.1)
  | _, _ => False

/-- The first process is the second one over more state. -/
def Process.Erases (same : α → β → Prop) (p : Process (S × T) α) (q : Process S β) : Prop :=
  ∀ s, (p s).Erases same (q s.1)

/-- The first step is the second one over more state. -/
def StepErases (same : α → β → Prop) (x : StateM (S × T) α) (y : StateM S β) : Prop :=
  ∀ s, (x s).2.1 = (y s.1).2 ∧ same (x s).1 (y s.1).1

variable {same : α → β → Prop} {same' : α' → β' → Prop}

/-! ## One thing after the other -/

namespace Run.Erases

theorem andThen {r : Run (S × T) α} {q : Run S β} (h : r.Erases same q)
    {f : α → Process (S × T) α'} {g : β → Process S β'}
    (hf : ∀ a b, same a b → Process.Erases same' (f a) (g b)) :
    (r.andThen f).Erases same' (q.andThen g) := by
  induction r generalizing q with
  | done a s =>
    cases q with
    | done b t =>
      obtain ⟨rfl, hab⟩ := h
      exact hf a b hab s
    | paused => cases h
  | paused s resume ih =>
    cases q with
    | done => cases h
    | paused t resume' => exact ⟨h.1, fun s' ↦ ih s' (h.2 s')⟩

theorem map {r : Run (S × T) α} {q : Run S β} (h : r.Erases same q) {f : α → α'} {g : β → β'}
    (hf : ∀ a b, same a b → same' (f a) (g b)) : (r.map f).Erases same' (q.map g) :=
  h.andThen fun a b hab _ ↦ ⟨rfl, hf a b hab⟩

end Run.Erases

namespace Process.Erases

theorem pure {a : α} {b : β} (h : same a b) :
    Process.Erases same (Pure.pure a : Process (S × T) α) (Pure.pure b : Process S β) :=
  fun _ ↦ ⟨rfl, h⟩

theorem bind {p : Process (S × T) α} {q : Process S β} (h : p.Erases same q)
    {f : α → Process (S × T) α'} {g : β → Process S β'}
    (hf : ∀ a b, same a b → Process.Erases same' (f a) (g b)) :
    Process.Erases same' (p >>= f) (q >>= g) :=
  fun s ↦ (h s).andThen hf

theorem pause (n : Nat) : Process.Erases (T := T) (fun _ _ ↦ True) (Process.pause n)
    (Process.pause n : Process S Unit) := by
  induction n with
  | zero => exact fun _ ↦ ⟨rfl, trivial⟩
  | succ n ih => exact fun s ↦ ⟨rfl, ih⟩

/-- A process that only knows the smaller state. -/
theorem within (p : Process S α) :
    Process.Erases Eq (p.within Prod.fst fun s (t : S × T) ↦ (s, t.2)) p := by
  intro s
  rw [Process.within]
  generalize p s.1 = r
  induction r generalizing s with
  | done a s' => exact ⟨rfl, rfl⟩
  | paused s' resume ih => exact ⟨rfl, fun s'' ↦ ih s''.1 s''⟩

end Process.Erases

/-! ## Processes side by side -/

theorem Run.Erases.both {r : Run (S × T) (Except ε α)} {r' : Run S (Except ε α)}
    (hr : r.Erases Eq r') {p : Process (S × T) (Except ε β)} {p' : Process S (Except ε β)}
    (hp : p.Erases Eq p') : (r.both p).Erases Eq (r'.both p') := by
  induction r generalizing r' p p' with
  | done v s =>
    cases r' with
    | paused => cases hr
    | done v' s' =>
      obtain ⟨rfl, rfl⟩ := hr
      cases v with
      | error e => exact ⟨rfl, rfl⟩
      | ok a => exact (hp s).map fun _ _ h ↦ h ▸ rfl
  | paused s resume ih =>
    cases r' with
    | done => cases hr
    | paused s' resume' =>
      obtain ⟨rfl, hresume⟩ := hr
      have hpolled := hp s
      rw [Run.both, Run.both]
      cases hq : p s with
      | done v t =>
        cases hq' : p' s.1 with
        | paused => simp [hq, hq', Run.Erases] at hpolled
        | done v' t' =>
          rw [hq, hq'] at hpolled
          obtain ⟨rfl, rfl⟩ := hpolled
          cases v with
          | error e => exact ⟨rfl, rfl⟩
          | ok b => exact ⟨rfl, fun s'' ↦ (hresume s'').map fun _ _ h ↦ h ▸ rfl⟩
      | paused t q =>
        cases hq' : p' s.1 with
        | done => simp [hq, hq', Run.Erases] at hpolled
        | paused t' q' =>
          rw [hq, hq'] at hpolled
          exact ⟨hpolled.1, fun s'' ↦ ih s'' (hresume s'') hpolled.2⟩

/-- A process in a queue that is another one over more state. -/
inductive Queued.Erases : Process.Queued (S × T) α → Process.Queued S α → Prop
  | ended (a : α) : Queued.Erases (.ended a) (.ended a)
  | waiting {p : Process (S × T) α} {q : Process S α} (h : p.Erases Eq q) :
    Queued.Erases (.waiting p) (.waiting q)

theorem Process.few_erases {ps : List (Process (S × T) (Except ε α))}
    {qs : List (Process S (Except ε α))} (h : List.Forall₂ (Process.Erases Eq) ps qs) :
    Process.Erases Eq (Process.few ps) (Process.few qs) := by
  induction h with
  | nil => exact .pure rfl
  | cons hp _ ih => exact fun s ↦ ((hp s).both ih).map fun _ _ h ↦ h ▸ rfl

theorem Process.around_erases {l : List (Process.Queued (S × T) α)}
    {l' : List (Process.Queued S α)} (h : List.Forall₂ Queued.Erases l l') (paused : Bool) :
    Process.Erases (fun q q' ↦ q.1 = q'.1 ∧ List.Forall₂ Queued.Erases q.2.val q'.2.val)
      (Process.around paused l) (Process.around paused l') := by
  induction h generalizing paused with
  | nil => exact .pure ⟨rfl, .nil⟩
  | @cons x x' l l' hx _ ih =>
    cases hx with
    | ended a => exact (ih paused).bind fun q q' hq ↦ .pure ⟨hq.1, .cons (.ended a) hq.2⟩
    | @waiting p p' hp =>
      intro s
      have hpolled := hp s
      rw [Process.around, Process.around]
      cases hq : p s with
      | done a t =>
        cases hq' : p' s.1 with
        | paused => simp [hq, hq', Run.Erases] at hpolled
        | done a' t' =>
          rw [hq, hq'] at hpolled
          obtain ⟨rfl, rfl⟩ := hpolled
          simp only [hq, hq']
          exact (ih false t).map fun q q' hq ↦ ⟨hq.1, .cons (.ended a) hq.2⟩
      | paused t q =>
        cases hq' : p' s.1 with
        | done => simp [hq, hq', Run.Erases] at hpolled
        | paused t' q' =>
          rw [hq, hq'] at hpolled
          obtain ⟨rfl, hresume⟩ := hpolled
          simp only [hq, hq']
          refine (Process.Erases.pause paused.toNat t).andThen fun _ _ _ t ↦ ?_
          exact (ih (!paused) t).map fun q q' hq ↦ ⟨hq.1, .cons (.waiting hresume) hq.2⟩

theorem all_hasEnded_eq {l : List (Process.Queued (S × T) α)} {l' : List (Process.Queued S α)}
    (h : List.Forall₂ Queued.Erases l l') :
    l.all Process.Queued.hasEnded = l'.all Process.Queued.hasEnded := by
  induction h with
  | nil => rfl
  | cons hx _ ih =>
    rw [List.all_cons, List.all_cons, ih]
    cases hx <;> rfl

theorem Process.leading_erases {n : Nat}
    {next : Process.Queue (S × T) (Except ε α) n → Process (S × T) (Except ε (List α))}
    {next' : Process.Queue S (Except ε α) n → Process S (Except ε (List α))}
    (hnext : ∀ q q', List.Forall₂ Queued.Erases q.val q'.val →
      Process.Erases Eq (next q) (next' q'))
    {r : Run (S × T) (Except ε α)} {r' : Run S (Except ε α)} (hr : r.Erases Eq r')
    (paused : Bool) {q : Process.Queue (S × T) (Except ε α) n} {q' : Process.Queue S (Except ε α) n}
    (hq : List.Forall₂ Queued.Erases q.val q'.val) :
    (Process.leading next r paused q).Erases Eq (Process.leading next' r' paused q') := by
  induction r generalizing r' paused q q' with
  | done v s =>
    cases r' with
    | paused => cases hr
    | done v' s' =>
      obtain ⟨rfl, rfl⟩ := hr
      cases v with
      | error e => exact ⟨rfl, rfl⟩
      | ok a => exact (hnext q q' hq s).map fun _ _ h ↦ h ▸ rfl
  | paused s resume ih =>
    cases r' with
    | done => cases hr
    | paused s' resume' =>
      obtain ⟨rfl, hresume⟩ := hr
      rw [Process.leading, Process.leading, all_hasEnded_eq hq]
      refine (Process.Erases.pause _ s).andThen fun _ _ _ s ↦ ?_
      refine (Process.around_erases hq _ s).andThen fun others others' hothers s ↦ ?_
      obtain ⟨paused, others⟩ := others
      obtain ⟨paused', others'⟩ := others'
      obtain ⟨rfl, hothers⟩ := hothers
      exact ih s (hresume s) paused hothers

theorem Process.inTurn_erases {n : Nat} {q : Process.Queue (S × T) (Except ε α) n}
    {q' : Process.Queue S (Except ε α) n} (hq : List.Forall₂ Queued.Erases q.val q'.val) :
    Process.Erases Eq (Process.inTurn n q) (Process.inTurn n q') := by
  induction n with
  | zero => exact .pure rfl
  | succ n ih =>
    obtain ⟨l, hl⟩ := q
    obtain ⟨l', hl'⟩ := q'
    cases hq with
    | nil => cases hl
    | cons hx hrest =>
      cases hx with
      | ended v =>
        cases v with
        | error e => exact .pure rfl
        | ok a => exact fun s ↦ (ih hrest s).map fun _ _ h ↦ h ▸ rfl
      | waiting hp => exact fun s ↦ Process.leading_erases (fun _ _ hq ↦ ih hq) (hp s) false hrest

theorem Process.many_erases {ps : List (Process (S × T) (Except ε α))}
    {qs : List (Process S (Except ε α))} (h : List.Forall₂ (Process.Erases Eq) ps qs) :
    Process.Erases Eq (Process.many ps) (Process.many qs) := by
  have hlength : (qs.map Process.Queued.waiting).length = ps.length := by
    rw [List.length_map, h.length_eq]
  have hmany : Process.many qs = Process.inTurn ps.length ⟨qs.map .waiting, hlength⟩ := by
    rw [Process.many]
    congr 1
    · exact h.length_eq.symm
    · exact (Subtype.heq_iff_coe_eq fun l ↦ by rw [h.length_eq]).2 rfl
  rw [hmany]
  exact Process.inTurn_erases
    (List.forall₂_map_left_iff.2 (List.forall₂_map_right_iff.2 (h.imp fun _ _ ↦ .waiting)))

theorem Process.join_erases {ps : List (Process (S × T) (Except ε α))}
    {qs : List (Process S (Except ε α))} (h : List.Forall₂ (Process.Erases Eq) ps qs) :
    Process.Erases Eq (Process.join ps) (Process.join qs) := by
  rw [Process.join, Process.join, h.length_eq]
  split
  · exact Process.few_erases h
  · exact Process.many_erases h

end ApiGraph
