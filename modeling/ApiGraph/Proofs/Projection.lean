import ApiGraph.Proofs.Cast

/-!
# Casting is a projection

A cast goes through the lists of a value as far as its plan has lists, and gives a class to the
plain objects that stand where the plan has one.  Nothing else changes, so a value that has been
cast is left alone by the same plan.  What a plan does at one place of a value is said by the part
of the plan and the part of the value at that place, found by the indices of the lists on the way.

## What is here

* `HostValue.at?`, `CastPlan.at?`: what a value and a plan have at a position.
* `CastPlan.leaf`: what a cast makes of what is no list.
* `CastPlan.Refuses`: the plan and the value do not go together at a position.
* `CastPlan.apply_projects`: what a cast succeeds with, and when it fails.
-/

set_option autoImplicit false

namespace ApiGraph

/-! ## Computations for the items of a list -/

section Items

variable {ε α β : Type} {f : α → Except ε β} {l : List α}

theorem mapM_eq_ok_iff {bs : List β} :
    l.mapM f = .ok bs ↔ List.Forall₂ (fun a b ↦ f a = .ok b) l bs := by
  induction l generalizing bs with
  | nil =>
    rw [List.mapM_nil, List.forall₂_nil_left_iff]
    exact ⟨fun h ↦ (Except.ok.inj h).symm, fun h ↦ h ▸ rfl⟩
  | cons a rest ih =>
    rw [List.mapM_cons, List.forall₂_cons_left_iff]
    cases ha : f a with
    | error e => exact ⟨nofun, fun ⟨_, _, h, _⟩ ↦ by cases h⟩
    | ok b =>
      constructor
      · intro h
        cases hrest : rest.mapM f with
        | error e => rw [hrest] at h; cases h
        | ok others =>
          rw [hrest] at h
          exact ⟨b, others, rfl, ih.1 hrest, (Except.ok.inj h).symm⟩
      · rintro ⟨_, others, h, hrest, rfl⟩
        cases h
        rw [ih.2 hrest]
        rfl

theorem exists_of_mapM_eq_error {e : ε} (h : l.mapM f = .error e) : ∃ a ∈ l, f a = .error e := by
  induction l with
  | nil => cases h
  | cons a rest ih =>
    rw [List.mapM_cons] at h
    cases ha : f a with
    | error e' =>
      rw [ha] at h
      cases h
      exact ⟨a, List.mem_cons_self, ha⟩
    | ok b =>
      rw [ha] at h
      cases hrest : rest.mapM f with
      | error e' =>
        rw [hrest] at h
        cases h
        obtain ⟨a', hmem, ha'⟩ := ih hrest
        exact ⟨a', List.mem_cons_of_mem _ hmem, ha'⟩
      | ok others => rw [hrest] at h; cases h

theorem optionRel_getElem?_of_forall₂ {R : α → β → Prop} {bs : List β} (h : List.Forall₂ R l bs)
    (i : Nat) : Option.Rel R l[i]? bs[i]? := by
  induction h generalizing i with
  | nil => exact .none
  | cons hab _ ih =>
    cases i with
    | zero => exact .some hab
    | succ i => exact ih i

end Items

/-! ## Positions -/

/-- What a value has at a position: an index for each list on the way. -/
def HostValue.at? (v : HostValue) : List Nat → Option HostValue
  | [] => some v
  | i :: path => (v.list?.bind (·[i]?)).bind (·.at? path)

namespace HostValue

variable {v : HostValue}

theorem at?_cons_of_list?_eq_none (h : v.list? = none) (i : Nat) (path : List Nat) :
    v.at? (i :: path) = none := by
  rw [at?, h]
  rfl

/-- What is at a position within a list is in one of its items. -/
theorem at?_cons_eq_some_iff {i : Nat} {path : List Nat} {x : HostValue} :
    v.at? (i :: path) = some x ↔
      ∃ items item, v = .list items ∧ items[i]? = some item ∧ item.at? path = some x := by
  simp only [at?, Option.bind_eq_some_iff, list?_eq_some_iff]
  exact ⟨fun ⟨item, ⟨items, hv, hi⟩, hx⟩ ↦ ⟨items, item, hv, hi, hx⟩,
    fun ⟨items, item, hv, hi, hx⟩ ↦ ⟨item, ⟨items, hv, hi⟩, hx⟩⟩

end HostValue

namespace CastPlan

/-- The plan of the items of a list. -/
def items? : CastPlan → Option CastPlan
  | .list inner => some inner
  | _ => none

/-- What a plan has at a position of the value; all items of a list have one plan. -/
def at? (plan : CastPlan) : List Nat → Option CastPlan
  | [] => some plan
  | _ :: path => plan.items?.bind (·.at? path)

/-- What a cast makes of what is no list, by the plan of its position. -/
def leaf : Option CastPlan → HostValue → HostValue
  | some (.toInstance cls), .object entries => .instanceOf cls entries []
  | _, v => v

/-- At a position the plan expects a list and the value has something else, or the plan expects no
lists among the items of a list and the value has one there. -/
inductive Refuses (plan : CastPlan) (field : String) (v : HostValue) :
    List Nat → CastError → Prop
  | notAList {path : List Nat} {inner : CastPlan} {x : HostValue}
      (hplan : plan.at? path = some (.list inner)) (hv : v.at? path = some x)
      (hnull : x.isNullish = false) (hlist : x.list? = none) :
      Refuses plan field v path (.notAList field x.kind)
  | nestedList {path : List Nat} {inner : CastPlan} {items : List HostValue} {item : HostValue}
      (hplan : plan.at? path = some (.list inner)) (hv : v.at? path = some (.list items))
      (hmem : item ∈ items) (hitem : item.list?.isSome = true) (hinner : inner.isList = false) :
      Refuses plan field v path (.nestedList field)

/-- What a cast makes of a part of a value, by the plan of its position. -/
structure Makes (plan : Option CastPlan) (x y : HostValue) : Prop where
  /-- A list stays a list, as long as it was, and nothing else becomes one. -/
  lengths : y.list?.map List.length = x.list?.map List.length
  leaf : x.list? = none → y = CastPlan.leaf plan x

theorem Makes.refl {plan : Option CastPlan} {x : HostValue} (h : CastPlan.leaf plan x = x) :
    Makes plan x x :=
  ⟨rfl, fun _ ↦ h.symm⟩

variable {plan inner : CastPlan} {field : String} {v u : HostValue} {path : List Nat}
  {e : CastError}

/-! ## Lists -/

theorem applyItem_eq_ok_iff :
    inner.applyItem field v = .ok u ↔
      (v.list?.isSome = true → inner.isList = true) ∧ inner.apply field v = .ok u := by
  rw [applyItem]
  cases v.list?.isSome <;> cases inner.isList <;> simp

theorem apply_list_of_list?_eq_none (hnull : v.isNullish = false) (hlist : v.list? = none) :
    (CastPlan.list inner).apply field v = .error (.notAList field v.kind) := by
  cases v with
  | scalar x => cases x <;> first | rfl | cases hnull
  | undefined | null | list => cases hnull <;> cases hlist
  | object | instanceOf | foreign => rfl

/-- A list plan succeeds on what is nothing, and on lists whose items it succeeds on. -/
theorem apply_list_eq_ok_iff :
    (CastPlan.list inner).apply field v = .ok u ↔
      v.isNullish = true ∧ u = v ∨ ∃ items results, v = .list items ∧ u = .list results ∧
        List.Forall₂ (fun i r ↦ inner.applyItem field i = .ok r) items results := by
  constructor
  · intro h
    by_cases hnull : v.isNullish = true
    · rw [apply_of_isNullish _ field hnull] at h
      exact .inl ⟨hnull, (Except.ok.inj h).symm⟩
    · right
      cases hlist : v.list? with
      | none =>
        rw [apply_list_of_list?_eq_none (Bool.eq_false_iff.2 hnull) hlist] at h
        cases h
      | some items =>
        obtain rfl := HostValue.list?_eq_some_iff.1 hlist
        rw [apply_items] at h
        cases hrun : items.mapM (inner.applyItem field) with
        | error e => rw [hrun] at h; cases h
        | ok results =>
          rw [hrun] at h
          exact ⟨items, results, rfl, (Except.ok.inj h).symm, mapM_eq_ok_iff.1 hrun⟩
  · rintro (⟨hnull, rfl⟩ | ⟨items, results, rfl, rfl, hitems⟩)
    · exact apply_of_isNullish _ field hnull
    · rw [apply_items, mapM_eq_ok_iff.2 hitems]
      rfl

theorem isSome_list?_of_apply (h : plan.apply field v = .ok u) :
    u.list?.isSome = v.list?.isSome := by
  cases plan with
  | passthrough =>
    cases h
    rfl
  | toInstance c => cases v <;> cases h <;> rfl
  | list inner =>
    obtain ⟨-, rfl⟩ | ⟨items, results, rfl, rfl, -⟩ := apply_list_eq_ok_iff.1 h <;> rfl

/-! ## What a cast succeeds with -/

/-- What has been cast is left alone by the same plan. -/
theorem apply_again (h : plan.apply field v = .ok u) (other : String) :
    plan.apply other u = .ok u := by
  induction plan generalizing v u with
  | passthrough => rfl
  | toInstance c => cases v <;> cases h <;> rfl
  | list inner ih =>
    rw [apply_list_eq_ok_iff] at h ⊢
    obtain ⟨hnull, rfl⟩ | ⟨items, results, rfl, rfl, hitems⟩ := h
    · exact .inl ⟨hnull, rfl⟩
    · refine .inr ⟨results, results, rfl, rfl, ?_⟩
      induction hitems with
      | nil => exact .nil
      | cons hitem _ ihitems =>
        obtain ⟨hlist, hitem⟩ := applyItem_eq_ok_iff.1 hitem
        refine .cons (applyItem_eq_ok_iff.2 ⟨fun hr ↦ hlist ?_, ih hitem⟩) ihitems
        rw [← isSome_list?_of_apply hitem, hr]

theorem makes_of_apply (h : plan.apply field v = .ok u) : Makes (some plan) v u := by
  cases plan with
  | passthrough =>
    cases h
    exact .refl rfl
  | toInstance c =>
    cases v <;> cases h <;> exact ⟨rfl, fun _ ↦ rfl⟩
  | list inner =>
    obtain ⟨-, rfl⟩ | ⟨items, results, rfl, rfl, hitems⟩ := apply_list_eq_ok_iff.1 h
    · exact .refl rfl
    · exact ⟨congrArg some hitems.length_eq.symm, nofun⟩

theorem optionRel_makes_refl (x : Option HostValue) : Option.Rel (Makes none) x x := by
  cases x with
  | none => exact .none
  | some x => exact .some (.refl rfl)

/-- At each position a cast makes of what is there what the plan says there. -/
theorem apply_at? (h : plan.apply field v = .ok u) (path : List Nat) :
    Option.Rel (Makes (plan.at? path)) (v.at? path) (u.at? path) := by
  induction path generalizing plan v u with
  | nil => exact .some (makes_of_apply h)
  | cons i path ih =>
    cases plan with
    | passthrough =>
      cases h
      exact optionRel_makes_refl _
    | toInstance c =>
      cases v with
      | object entries =>
        cases h
        exact .none
      | undefined | null | scalar | list | instanceOf | foreign =>
        cases h
        exact optionRel_makes_refl _
    | list inner =>
      obtain ⟨hnull, rfl⟩ | ⟨items, results, rfl, rfl, hitems⟩ := apply_list_eq_ok_iff.1 h
      · rw [HostValue.at?_cons_of_list?_eq_none (HostValue.list?_of_isNullish hnull)]
        exact .none
      · have hitem := optionRel_getElem?_of_forall₂ hitems i
        rw [HostValue.at?, HostValue.at?, HostValue.list?, HostValue.list?, Option.bind_some,
          Option.bind_some]
        revert hitem
        generalize items[i]? = item, results[i]? = result
        rintro (hrun | -)
        · exact ih (applyItem_eq_ok_iff.1 hrun).2
        · exact .none

/-! ## When a cast fails -/

theorem items?_eq_some_iff : plan.items? = some inner ↔ plan = .list inner := by
  cases plan <;> simp [items?]

/-- What stands in the way within a list stands in the way in one of its items. -/
theorem refuses_cons_iff {i : Nat} :
    plan.Refuses field v (i :: path) e ↔ ∃ inner items item, plan = .list inner ∧
      v = .list items ∧ items[i]? = some item ∧ inner.Refuses field item path e := by
  constructor
  · rintro (⟨hplan, hv, hnull, hlist⟩ | ⟨hplan, hv, hmem, hitem, hinner⟩)
    all_goals
      obtain ⟨inner, hitems, hplan⟩ := Option.bind_eq_some_iff.1 hplan
      obtain ⟨items, item, hlist, hi, hv⟩ := HostValue.at?_cons_eq_some_iff.1 hv
      refine ⟨inner, items, item, items?_eq_some_iff.1 hitems, hlist, hi, ?_⟩
    · exact .notAList hplan hv hnull ‹_›
    · exact .nestedList hplan hv hmem ‹_› hinner
  · rintro ⟨inner, items, item, rfl, rfl, hi, h⟩
    have hat {x : HostValue} (hx : item.at? path = some x) :
        (HostValue.list items).at? (i :: path) = some x :=
      HostValue.at?_cons_eq_some_iff.2 ⟨items, item, rfl, hi, hx⟩
    cases h with
    | notAList hplan hv hnull hlist => exact .notAList hplan (hat hv) hnull hlist
    | nestedList hplan hv hmem hitem hinner => exact .nestedList hplan (hat hv) hmem hitem hinner

/-- A cast fails with what stands in its way at some position. -/
theorem exists_refuses_of_apply (h : plan.apply field v = .error e) :
    ∃ path, plan.Refuses field v path e := by
  induction plan generalizing v with
  | passthrough => cases h
  | toInstance c => cases v <;> cases h
  | list inner ih =>
    by_cases hnull : v.isNullish = true
    · rw [apply_of_isNullish _ field hnull] at h
      cases h
    cases hlist : v.list? with
    | none =>
      have hnull := Bool.eq_false_iff.2 hnull
      rw [apply_list_of_list?_eq_none hnull hlist] at h
      cases h
      exact ⟨[], .notAList rfl rfl hnull hlist⟩
    | some items =>
      obtain rfl := HostValue.list?_eq_some_iff.1 hlist
      rw [apply_items] at h
      cases hrun : items.mapM (inner.applyItem field) with
      | ok results => rw [hrun] at h; cases h
      | error e' =>
        rw [hrun] at h
        cases h
        obtain ⟨item, hmem, hitem⟩ := exists_of_mapM_eq_error hrun
        rw [applyItem] at hitem
        split at hitem
        · rename_i hnested
          cases hitem
          rw [Bool.and_eq_true, Bool.not_eq_true'] at hnested
          exact ⟨[], .nestedList rfl rfl hmem hnested.1 hnested.2⟩
        · obtain ⟨path, hrefuses⟩ := ih hitem
          obtain ⟨i, hi⟩ := List.mem_iff_getElem?.1 hmem
          exact ⟨i :: path, refuses_cons_iff.2 ⟨inner, items, item, rfl, rfl, hi, hrefuses⟩⟩

theorem Refuses.apply_ne_ok (h : plan.Refuses field v path e) : plan.apply field v ≠ .ok u := by
  intro hrun
  induction path generalizing plan v u with
  | nil =>
    cases h with
    | notAList hplan hv hnull hlist =>
      cases hplan
      cases hv
      rw [apply_list_of_list?_eq_none hnull hlist] at hrun
      cases hrun
    | nestedList hplan hv hmem hitem hinner =>
      cases hplan
      cases hv
      obtain ⟨⟨⟩, -⟩ | ⟨_, results, ⟨⟩, rfl, hitems⟩ := apply_list_eq_ok_iff.1 hrun
      obtain ⟨r, -, hr⟩ := exists_right_of_forall₂ hitems hmem
      exact Bool.false_ne_true (hinner.symm.trans ((applyItem_eq_ok_iff.1 hr).1 hitem))
  | cons i path ih =>
    obtain ⟨inner, items, item, rfl, rfl, hi, h⟩ := refuses_cons_iff.1 h
    obtain ⟨⟨⟩, -⟩ | ⟨_, results, ⟨⟩, rfl, hitems⟩ := apply_list_eq_ok_iff.1 hrun
    obtain ⟨r, -, hr⟩ := exists_right_of_forall₂ hitems (List.mem_of_getElem? hi)
    exact ih h (applyItem_eq_ok_iff.1 hr).2

/-! ## The projection -/

/-- **A cast is a projection that only adds classes.**  What it succeeds with is left alone by the
same plan, whichever field asks.  It has the positions that the value has, a list for each list and
as long; and what is no list stays as it is, unless it is a plain object where the plan has a class:
then it is an instance of that class with the same properties and no methods of its own.  In
particular what is nothing stays what it was, be it undefined, null or a null of the wire, and so
does an instance.  The cast fails exactly if somewhere a list is expected of what is neither a list
nor nothing, or an item is a list where none is expected, and with the error of such a place. -/
theorem apply_projects (plan : CastPlan) (field : String) (v : HostValue) :
    (∀ u, plan.apply field v = .ok u →
      (∀ other, plan.apply other u = .ok u) ∧
        ∀ path, Option.Rel (Makes (plan.at? path)) (v.at? path) (u.at? path)) ∧
      (∀ e, plan.apply field v = .error e → ∃ path, plan.Refuses field v path e) ∧
      ((∃ e, plan.apply field v = .error e) ↔ ∃ path e, plan.Refuses field v path e) := by
  refine ⟨fun u h ↦ ⟨apply_again h, apply_at? h⟩, fun e ↦ exists_refuses_of_apply, ?_, ?_⟩
  · rintro ⟨e, h⟩
    obtain ⟨path, hrefuses⟩ := exists_refuses_of_apply h
    exact ⟨path, e, hrefuses⟩
  · rintro ⟨path, e, hrefuses⟩
    cases hrun : plan.apply field v with
    | error e' => exact ⟨e', rfl⟩
    | ok u => exact absurd hrun hrefuses.apply_ne_ok

/-! ### An instance -/

namespace Guests

/-- A class. -/
def guest : ClassRef := .base ⟨1⟩ "Guest"

/-- A class that inherits from it. -/
def host : ClassRef := .derived ⟨2⟩ "Host" guest

/-- A plan for a list of lists of guests. -/
def seating : CastPlan := .list (.list (.toInstance guest))

/-- Two tables, one of them not set yet. -/
def tables : HostValue :=
  .list [.scalar .null,
    .list [.undefined, .object [("name", .ofText "Ada")], .instanceOf host [] []]]

/-- The same with every guest an instance. -/
def seated : HostValue :=
  .list [.scalar .null,
    .list [.undefined, .instanceOf guest [("name", .ofText "Ada")] [], .instanceOf host [] []]]

/-- A table among the guests of a table. -/
def crowded : HostValue := .list [.list [.list []]]

end Guests

open Guests in
/-- The guests of two tables. -/
theorem apply_projects_guests :
    seating.apply "tables" tables = .ok seated ∧ seating.apply "seats" seated = .ok seated ∧
      Option.Rel (Makes (some (.toInstance guest))) (tables.at? [1, 1]) (seated.at? [1, 1]) ∧
      ∃ path e, seating.Refuses "tables" crowded path e := by
  obtain ⟨hagain, hparts⟩ := (apply_projects seating "tables" tables).1 seated rfl
  exact ⟨rfl, hagain "seats", hparts [1, 1],
    (apply_projects seating "tables" crowded).2.2.1 ⟨.nestedList "tables", rfl⟩⟩

end CastPlan
end ApiGraph
