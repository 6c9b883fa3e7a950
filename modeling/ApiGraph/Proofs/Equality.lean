import ApiGraph.Proofs.Wire
import Mathlib

/-!
# Equality of values

Two values are compared by going through both of them, with the entries of one object looked up in
the other.  That the outcome does not depend on which of the two is gone through, and that what is
equal stays equal on the wire, takes an induction into the parts of both values; it rests on there
being no key twice in an object, which is so of every map.

## What is here

* `OrderedMap.forall_find_iff`: looking up the entries of one map in another, seen from both sides.
* `WireValue.Alike`, `HostValue.Alike`: what equal values have in common, one step deep.
* `HostValue.same_congruence`: equality is an equivalence relation, and respected by what a value
  is on the wire, whether it is nothing, and what its properties are.
-/

set_option autoImplicit false

namespace ApiGraph

/-! ## Optional values -/

section OptionRel

variable {α β γ : Type}

theorem optionRel_symm {r : α → β → Prop} {r' : β → α → Prop} {x : Option α} {y : Option β}
    (h : Option.Rel r x y) (hr : ∀ a b, x = some a → y = some b → r a b → r' b a) :
    Option.Rel r' y x := by
  cases h with
  | none => exact .none
  | some hab => exact .some (hr _ _ rfl rfl hab)

theorem optionRel_trans {r : α → β → Prop} {r' : β → γ → Prop} {q : α → γ → Prop}
    {x : Option α} {y : Option β} {z : Option γ} (h : Option.Rel r x y) (h' : Option.Rel r' y z)
    (hr : ∀ a b c, x = some a → y = some b → z = some c → r a b → r' b c → q a c) :
    Option.Rel q x z := by
  cases h with
  | none =>
    cases h'
    exact .none
  | some hab =>
    cases h' with
    | some hbc => exact .some (hr _ _ _ rfl rfl rfl hab hbc)

theorem optionRel_map {r : α → β → Prop} {δ : Type} {r' : γ → δ → Prop} {f : α → γ} {g : β → δ}
    {x : Option α} {y : Option β} (h : Option.Rel r x y)
    (hr : ∀ a b, x = some a → y = some b → r a b → r' (f a) (g b)) :
    Option.Rel r' (x.map f) (y.map g) := by
  cases h with
  | none => exact .none
  | some hab => exact .some (hr _ _ rfl rfl hab)

theorem optionRel_isSome {r : α → β → Prop} {x : Option α} {y : Option β}
    (h : Option.Rel r x y) : x.isSome = y.isSome := by
  cases h <;> rfl

theorem optionRel_some_left_iff {r : α → β → Prop} {a : α} {y : Option β} :
    Option.Rel r (some a) y ↔ ∃ b, y = some b ∧ r a b := by
  constructor
  · rintro (h | -)
    exact ⟨_, rfl, h⟩
  · rintro ⟨b, rfl, h⟩
    exact .some h

theorem forall_optionRel_cons_iff {r : α → β → Prop} {a : α} {b : β} {as : List α} {bs : List β} :
    (∀ i : Nat, Option.Rel r (a :: as)[i]? (b :: bs)[i]?) ↔
      r a b ∧ ∀ i : Nat, Option.Rel r as[i]? bs[i]? := by
  refine ⟨fun h ↦ ⟨?_, fun i ↦ h (i + 1)⟩, fun h i ↦ ?_⟩
  · obtain ⟨_, hb, hab⟩ := optionRel_some_left_iff.1 (h 0)
    cases hb
    exact hab
  · cases i with
    | zero => exact .some h.1
    | succ i => exact h.2 i

/-- Items that are related place by place are so the other way round, if the relation is. -/
theorem forall_getElem?_symm {r : α → β → Prop} {r' : β → α → Prop} {as : List α} {bs : List β}
    (h : ∀ i : Nat, Option.Rel r as[i]? bs[i]?) (hr : ∀ a ∈ as, ∀ b ∈ bs, r a b → r' b a)
    (i : Nat) : Option.Rel r' bs[i]? as[i]? :=
  optionRel_symm (h i) fun _ _ ha hb ↦ hr _ (List.mem_of_getElem? ha) _ (List.mem_of_getElem? hb)

theorem forall_getElem?_trans {r : α → β → Prop} {r' : β → γ → Prop} {q : α → γ → Prop}
    {as : List α} {bs : List β} {cs : List γ} (h : ∀ i : Nat, Option.Rel r as[i]? bs[i]?)
    (h' : ∀ i : Nat, Option.Rel r' bs[i]? cs[i]?)
    (hr : ∀ a ∈ as, ∀ b ∈ bs, ∀ c ∈ cs, r a b → r' b c → q a c) (i : Nat) :
    Option.Rel q as[i]? cs[i]? :=
  optionRel_trans (h i) (h' i) fun _ _ _ ha hb hc ↦
    hr _ (List.mem_of_getElem? ha) _ (List.mem_of_getElem? hb) _ (List.mem_of_getElem? hc)

end OptionRel

/-! ## Maps -/

namespace OrderedMap

variable {κ ν μ : Type} [DecidableEq κ]

/-- The entries of a map have their like in another map, which is as long, exactly if under every
key the two have the like or neither has anything. -/
theorem forall_find_iff {r : ν → μ → Prop} {m : OrderedMap κ ν} {n : OrderedMap κ μ}
    (hm : (keys m).Nodup) (hn : (keys n).Nodup) :
    (m.length = n.length ∧ ∀ e ∈ m, ∃ b, find n e.1 = some b ∧ r e.2 b) ↔
      ∀ key, Option.Rel r (find m key) (find n key) := by
  have hlength : m.length = n.length ↔ (keys m).length = (keys n).length := by
    rw [keys, keys, List.length_map, List.length_map]
  constructor
  · rintro ⟨hlen, hentries⟩ key
    cases hkey : find m key with
    | some a =>
      obtain ⟨b, hb, hr⟩ := hentries _ (mem_of_find hkey)
      rw [hb]
      exact .some hr
    | none =>
      -- the keys of the first map are among those of the second, and there are as many of them
      have hsub : keys m ⊆ keys n := by
        intro k hk
        obtain ⟨e, he, rfl⟩ := List.mem_map.1 hk
        obtain ⟨b, hb, -⟩ := hentries e he
        exact (has_iff_mem_keys n e.1).1 (has_of_find hb)
      have hperm : (keys m).Perm (keys n) :=
        (List.subperm_of_subset hm hsub).perm_of_length_le (hlength.1 hlen).ge
      rw [find_eq_none_iff, hperm.mem_iff, ← find_eq_none_iff] at hkey
      rw [hkey]
      exact .none
  · intro h
    have hperm : (keys m).Perm (keys n) := by
      rw [List.perm_ext_iff_of_nodup hm hn]
      intro key
      rw [← has_iff_mem_keys, ← has_iff_mem_keys, has, has, optionRel_isSome (h key)]
    refine ⟨hlength.2 hperm.length_eq, fun e he ↦ ?_⟩
    exact optionRel_some_left_iff.1 ((find_eq_some_iff hm).2 he ▸ h e.1)

/-- Values that are related key by key are so the other way round, if the relation is. -/
theorem forall_find_symm {r : ν → μ → Prop} {r' : μ → ν → Prop} {m : OrderedMap κ ν}
    {n : OrderedMap κ μ} (h : ∀ key, Option.Rel r (find m key) (find n key))
    (hr : ∀ a ∈ values m, ∀ b ∈ values n, r a b → r' b a) (key : κ) :
    Option.Rel r' (find n key) (find m key) :=
  optionRel_symm (h key) fun _ _ ha hb ↦
    hr _ (mem_values_of_find ha) _ (mem_values_of_find hb)

theorem forall_find_trans {ρ : Type} {r : ν → μ → Prop} {r' : μ → ρ → Prop} {q : ν → ρ → Prop}
    {m : OrderedMap κ ν} {n : OrderedMap κ μ} {l : OrderedMap κ ρ}
    (h : ∀ key, Option.Rel r (find m key) (find n key))
    (h' : ∀ key, Option.Rel r' (find n key) (find l key))
    (hr : ∀ a ∈ values m, ∀ b ∈ values n, ∀ c ∈ values l, r a b → r' b c → q a c) (key : κ) :
    Option.Rel q (find m key) (find l key) :=
  optionRel_trans (h key) (h' key) fun _ _ _ ha hb hc ↦
    hr _ (mem_values_of_find ha) _ (mem_values_of_find hb) _ (mem_values_of_find hc)

omit [DecidableEq κ] in
theorem keys_mapValues (f : ν → μ) (m : OrderedMap κ ν) : keys (mapValues f m) = keys m := by
  simp [keys, mapValues]

omit [DecidableEq κ] in
theorem sizeOf_lt_of_mem_values [SizeOf κ] [SizeOf ν] {m : OrderedMap κ ν} {v : ν}
    (h : v ∈ values m) : sizeOf v < sizeOf m := by
  obtain ⟨e, he, rfl⟩ := List.mem_map.1 h
  have hlt := List.sizeOf_lt_of_mem he
  have hvalue : sizeOf e = 1 + sizeOf e.1 + sizeOf e.2 := rfl
  omega

end OrderedMap

/-! ## Numbers -/

namespace WireNumber

theorem same_symm {a b : WireNumber} (h : a.same b = true) : b.same a = true := by
  cases a <;> cases b <;> simp only [same, Binary64.same, Bool.or_eq_true, Bool.and_eq_true,
    beq_iff_eq, Bool.false_eq_true] at h ⊢
  · exact h.symm
  · exact h.imp Eq.symm And.symm

theorem same_trans {a b c : WireNumber} (h : a.same b = true) (h' : b.same c = true) :
    a.same c = true := by
  cases a <;> cases b <;> cases c <;> simp only [same, Binary64.same, Bool.or_eq_true,
    Bool.and_eq_true, beq_iff_eq, Bool.false_eq_true] at h h' ⊢
  · exact h.trans h'
  · rcases h with rfl | h
    · exact h'
    · rcases h' with rfl | h'
      · exact .inr h
      · exact .inr ⟨h.1, h'.2⟩

end WireNumber

/-! ## Values of the wire -/

namespace WireValue

/-- The values right inside a value. -/
def parts : WireValue → List WireValue
  | .list items => items
  | .object entries => OrderedMap.values entries
  | _ => []

theorem sizeOf_lt_of_mem_parts {v p : WireValue} (h : p ∈ v.parts) : sizeOf p < sizeOf v := by
  cases v with
  | list items =>
    have hlt := List.sizeOf_lt_of_mem (show p ∈ items from h)
    rw [list.sizeOf_spec]
    omega
  | object entries =>
    have hlt := OrderedMap.sizeOf_lt_of_mem_values (show p ∈ OrderedMap.values entries from h)
    rw [object.sizeOf_spec]
    omega
  | null | boolean | number | string | enum | binary => cases h

/-- What holds of a value if it holds of all its parts holds of every value. -/
theorem induction_on_parts {P : WireValue → Prop} (step : ∀ v, (∀ p ∈ v.parts, P p) → P v)
    (v : WireValue) : P v :=
  step v fun p hp ↦
    have _ := sizeOf_lt_of_mem_parts hp
    induction_on_parts step p
termination_by sizeOf v

theorem keyedItems_iff {items : List WireValue} :
    keyedItems items = true ↔ ∀ v ∈ items, v.keyed = true := by
  induction items with
  | nil => simp [keyedItems]
  | cons v rest ih => simp [keyedItems, ih]

theorem keyedEntries_iff {entries : List (String × WireValue)} :
    keyedEntries entries = true ↔ ∀ v ∈ OrderedMap.values entries, v.keyed = true := by
  induction entries with
  | nil => simp [keyedEntries, OrderedMap.values]
  | cons e rest ih =>
    rw [keyedEntries, Bool.and_eq_true, ih]
    exact (List.forall_mem_cons (p := (keyed · = true))).symm

theorem keyed_object_iff {entries : List (String × WireValue)} :
    (WireValue.object entries).keyed = true ↔
      (OrderedMap.keys entries).Nodup ∧ ∀ v ∈ OrderedMap.values entries, v.keyed = true := by
  rw [keyed, Bool.and_eq_true, decide_eq_true_eq, keyedEntries_iff]

theorem keyed_of_mem_parts {v p : WireValue} (h : v.keyed = true) (hp : p ∈ v.parts) :
    p.keyed = true := by
  cases v with
  | list items => exact keyedItems_iff.1 h p hp
  | object entries => exact (keyed_object_iff.1 h).2 p hp
  | null | boolean | number | string | enum | binary => cases hp

/-- The text of a string or of an enum member. -/
def text? : WireValue → Option String
  | .string text | .enum text => some text
  | _ => none

/-- What equal values have in common: the same form, save that an enum member counts as a string,
and equal parts in the same places, which for an object are under the same keys. -/
inductive Alike : WireValue → WireValue → Prop
  | null : Alike .null .null
  | boolean (value : Bool) : Alike (.boolean value) (.boolean value)
  | number {a b : WireNumber} (h : a.same b = true) : Alike (.number a) (.number b)
  | text {a b : WireValue} {text : String} (ha : a.text? = some text) (hb : b.text? = some text) :
      Alike a b
  | binary (bytes : List UInt8) : Alike (.binary bytes) (.binary bytes)
  | list {as bs : List WireValue}
      (h : ∀ i : Nat, Option.Rel (·.same · = true) as[i]? bs[i]?) :
      Alike (.list as) (.list bs)
  | object {as bs : List (String × WireValue)}
      (h : ∀ key, Option.Rel (·.same · = true)
        (OrderedMap.find as key) (OrderedMap.find bs key)) :
      Alike (.object as) (.object bs)

theorem sameItems_iff {as bs : List WireValue} :
    sameItems as bs = true ↔
      ∀ i : Nat, Option.Rel (·.same · = true) as[i]? bs[i]? := by
  induction as generalizing bs with
  | nil =>
    cases bs with
    | nil => exact ⟨fun _ _ ↦ .none, fun _ ↦ rfl⟩
    | cons b bs => exact ⟨nofun, fun h ↦ nomatch h 0⟩
  | cons a as ih =>
    cases bs with
    | nil => exact ⟨nofun, fun h ↦ nomatch h 0⟩
    | cons b bs => rw [sameItems, Bool.and_eq_true, ih, forall_optionRel_cons_iff]

theorem sameEntries_iff {as bs : List (String × WireValue)} :
    sameEntries as bs = true ↔
      ∀ e ∈ as, ∃ b, OrderedMap.find bs e.1 = some b ∧ e.2.same b = true := by
  induction as with
  | nil => simp [sameEntries]
  | cons e rest ih =>
    rw [sameEntries, Bool.and_eq_true, ih, List.forall_mem_cons]
    cases OrderedMap.find bs e.1 <;> simp

theorem sameObjects_iff {as bs : List (String × WireValue)} (ha : (OrderedMap.keys as).Nodup)
    (hb : (OrderedMap.keys bs).Nodup) :
    (as.length == bs.length && sameEntries as bs) = true ↔
      ∀ key, Option.Rel (·.same · = true)
        (OrderedMap.find as key) (OrderedMap.find bs key) := by
  rw [Bool.and_eq_true, beq_iff_eq, sameEntries_iff]
  exact OrderedMap.forall_find_iff (r := (·.same · = true)) ha hb

/-- Values are equal exactly if they are alike. -/
theorem same_iff_alike {a b : WireValue} (ha : a.keyed = true) (hb : b.keyed = true) :
    a.same b = true ↔ Alike a b := by
  constructor
  · fun_cases same a b <;> intro h
    · exact .null
    · rw [beq_iff_eq.1 h]
      exact .boolean _
    · exact .number h
    · exact .text rfl (congrArg some (beq_iff_eq.1 h).symm)
    · exact .text rfl (congrArg some (beq_iff_eq.1 h).symm)
    · exact .text rfl (congrArg some (beq_iff_eq.1 h).symm)
    · exact .text rfl (congrArg some (beq_iff_eq.1 h).symm)
    · rw [beq_iff_eq.1 h]
      exact .binary _
    · exact .list (sameItems_iff.1 h)
    · exact .object ((sameObjects_iff (keyed_object_iff.1 ha).1 (keyed_object_iff.1 hb).1).1 h)
    · cases h
  · rintro (- | - | h | ⟨hta, htb⟩ | - | h | h)
    · rfl
    · exact beq_self_eq_true _
    · exact h
    · cases a <;> cases hta <;> cases b <;> cases htb <;> exact beq_self_eq_true _
    · exact beq_self_eq_true _
    · exact sameItems_iff.2 h
    · exact (sameObjects_iff (keyed_object_iff.1 ha).1 (keyed_object_iff.1 hb).1).2 h

theorem same_symm {a b : WireValue} (ha : a.keyed = true) (hb : b.keyed = true)
    (h : a.same b = true) : b.same a = true := by
  induction a using induction_on_parts generalizing b with
  | step a ih =>
    rw [same_iff_alike ha hb] at h
    rw [same_iff_alike hb ha]
    -- parts of the two values that are equal one way are so the other way
    have hparts (p : WireValue) (hp : p ∈ a.parts) (q : WireValue) (hq : q ∈ b.parts) :
        p.same q = true → q.same p = true :=
      ih p hp (keyed_of_mem_parts ha hp) (keyed_of_mem_parts hb hq)
    cases h with
    | null => exact .null
    | boolean value => exact .boolean value
    | number h => exact .number (WireNumber.same_symm h)
    | text ha hb => exact .text hb ha
    | binary bytes => exact .binary bytes
    | list h => exact .list (forall_getElem?_symm h hparts)
    | object h => exact .object (OrderedMap.forall_find_symm h hparts)

theorem same_trans {a b c : WireValue} (ha : a.keyed = true) (hb : b.keyed = true)
    (hc : c.keyed = true) (h : a.same b = true) (h' : b.same c = true) : a.same c = true := by
  induction a using induction_on_parts generalizing b c with
  | step a ih =>
    rw [same_iff_alike ha hb] at h
    rw [same_iff_alike hb hc] at h'
    rw [same_iff_alike ha hc]
    have hparts (p : WireValue) (hp : p ∈ a.parts) (q : WireValue) (hq : q ∈ b.parts)
        (r : WireValue) (hr : r ∈ c.parts) : p.same q = true → q.same r = true → p.same r = true :=
      ih p hp (keyed_of_mem_parts ha hp) (keyed_of_mem_parts hb hq) (keyed_of_mem_parts hc hr)
    cases h with
    | null => exact h'
    | boolean value => exact h'
    | number h =>
      cases h' with
      | number h' => exact .number (WireNumber.same_trans h h')
      | text hb hc => cases hb
    | text ha hb' =>
      cases h' with
      | text hb hc => exact .text (ha.trans (hb'.symm.trans hb)) hc
      | null | boolean | number | binary | list | object => cases hb'
    | binary bytes => exact h'
    | list h =>
      cases h' with
      | list h' => exact .list (forall_getElem?_trans h h' hparts)
      | text hb hc => cases hb
    | object h =>
      cases h' with
      | object h' => exact .object (OrderedMap.forall_find_trans h h' hparts)
      | text hb hc => cases hb

/-- A value of the wire in which no object has a key twice. -/
abbrev Keyed := {v : WireValue // v.keyed = true}

theorem isNull_of_same {a b : WireValue} (h : a.same b = true) : a.isNull = b.isNull := by
  revert h
  fun_cases same a b <;> first | exact fun _ ↦ rfl | exact nofun

end WireValue

/-! ## Values of the program -/

namespace Foreign

/-- What foreign data is known by: data of the program and the context of a request by a token, a
description of a place in the graph by the call and the parameter that it was made for. -/
inductive Identity where
  | data (token : Nat)
  | context (token : Nat)
  | info (call position : Nat)

/-- What a piece of foreign data is known by. -/
def identity : Foreign → Identity
  | .data d => .data d.token
  | .context d => .context d.token
  | .info i position => .info i.call position

theorem same_iff {a b : Foreign} : a.same b = true ↔ a.identity = b.identity := by
  cases a <;> cases b <;> simp [same, identity]

end Foreign

namespace HostValue

/-! ### Parts -/

/-- The values right inside a value, be they items or properties. -/
def parts : HostValue → List HostValue
  | .list items => items
  | .object entries => OrderedMap.values entries
  | .instanceOf _ props _ => OrderedMap.values props
  | _ => []

theorem sizeOf_lt_of_mem_parts {v p : HostValue} (h : p ∈ v.parts) : sizeOf p < sizeOf v := by
  cases v with
  | list items =>
    have hlt := List.sizeOf_lt_of_mem (show p ∈ items from h)
    rw [list.sizeOf_spec]
    omega
  | object entries =>
    have hlt := OrderedMap.sizeOf_lt_of_mem_values (show p ∈ OrderedMap.values entries from h)
    rw [object.sizeOf_spec]
    omega
  | instanceOf cls props methods =>
    have hlt := OrderedMap.sizeOf_lt_of_mem_values (show p ∈ OrderedMap.values props from h)
    rw [instanceOf.sizeOf_spec]
    omega
  | undefined | null | scalar | foreign => cases h

/-- What holds of a value if it holds of all its parts holds of every value. -/
theorem induction_on_parts {P : HostValue → Prop} (step : ∀ v, (∀ p ∈ v.parts, P p) → P v)
    (v : HostValue) : P v :=
  step v fun p hp ↦
    have _ := sizeOf_lt_of_mem_parts hp
    induction_on_parts step p
termination_by sizeOf v

mutual

/-- Whether no object or instance in a value, at any depth, has a key twice. -/
def keyed : HostValue → Bool
  | .scalar value => value.keyed
  | .list items => keyedItems items
  | .object entries => decide (OrderedMap.keys entries).Nodup && keyedEntries entries
  | .instanceOf _ props _ => decide (OrderedMap.keys props).Nodup && keyedEntries props
  | .undefined | .null | .foreign _ => true

/-- Whether nothing in the items of a list has a key twice. -/
def keyedItems : List HostValue → Bool
  | [] => true
  | v :: rest => keyed v && keyedItems rest

/-- Whether nothing in the values of some entries has a key twice. -/
def keyedEntries : List (String × HostValue) → Bool
  | [] => true
  | (_, v) :: rest => keyed v && keyedEntries rest

end

theorem keyedItems_iff {items : List HostValue} :
    keyedItems items = true ↔ ∀ v ∈ items, v.keyed = true := by
  induction items with
  | nil => simp [keyedItems]
  | cons v rest ih => simp [keyedItems, ih]

theorem keyedEntries_iff {entries : List (String × HostValue)} :
    keyedEntries entries = true ↔ ∀ v ∈ OrderedMap.values entries, v.keyed = true := by
  induction entries with
  | nil => simp [keyedEntries, OrderedMap.values]
  | cons e rest ih =>
    rw [keyedEntries, Bool.and_eq_true, ih]
    exact (List.forall_mem_cons (p := (keyed · = true))).symm

theorem keyed_object_iff {entries : List (String × HostValue)} :
    (HostValue.object entries).keyed = true ↔
      (OrderedMap.keys entries).Nodup ∧ ∀ v ∈ OrderedMap.values entries, v.keyed = true := by
  rw [keyed, Bool.and_eq_true, decide_eq_true_eq, keyedEntries_iff]

theorem keyed_instanceOf_iff {cls : ClassRef} {props : List (String × HostValue)}
    {methods : List (String × MethodId)} :
    (HostValue.instanceOf cls props methods).keyed = true ↔
      (OrderedMap.keys props).Nodup ∧ ∀ v ∈ OrderedMap.values props, v.keyed = true := by
  rw [keyed, Bool.and_eq_true, decide_eq_true_eq, keyedEntries_iff]

theorem keyed_of_mem_parts {v p : HostValue} (h : v.keyed = true) (hp : p ∈ v.parts) :
    p.keyed = true := by
  cases v with
  | list items => exact keyedItems_iff.1 h p hp
  | object entries => exact (keyed_object_iff.1 h).2 p hp
  | instanceOf cls props methods => exact (keyed_instanceOf_iff.1 h).2 p hp
  | undefined | null | scalar | foreign => cases hp

/-! ### What equal values have in common -/

/-- What equal values have in common: the same form, and equal parts in the same places, which for
objects and instances are under the same keys.  Instances are of one class, whatever methods they
have of their own. -/
inductive Alike : HostValue → HostValue → Prop
  | undefined : Alike .undefined .undefined
  | null : Alike .null .null
  | scalar {a b : WireValue} (h : a.same b = true) : Alike (.scalar a) (.scalar b)
  | list {as bs : List HostValue} (h : ∀ i : Nat, Option.Rel (·.same · = true) as[i]? bs[i]?) :
      Alike (.list as) (.list bs)
  | object {as bs : List (String × HostValue)}
      (h : ∀ key, Option.Rel (·.same · = true)
        (OrderedMap.find as key) (OrderedMap.find bs key)) :
      Alike (.object as) (.object bs)
  | instanceOf {c d : ClassRef} {as bs : List (String × HostValue)}
      {ms ns : List (String × MethodId)} (hkey : c.key = d.key)
      (h : ∀ key, Option.Rel (·.same · = true)
        (OrderedMap.find as key) (OrderedMap.find bs key)) :
      Alike (.instanceOf c as ms) (.instanceOf d bs ns)
  | foreign {a b : Foreign} (h : a.identity = b.identity) : Alike (.foreign a) (.foreign b)

theorem sameItems_iff {as bs : List HostValue} :
    sameItems as bs = true ↔ ∀ i : Nat, Option.Rel (·.same · = true) as[i]? bs[i]? := by
  induction as generalizing bs with
  | nil =>
    cases bs with
    | nil => exact ⟨fun _ _ ↦ .none, fun _ ↦ rfl⟩
    | cons b bs => exact ⟨nofun, fun h ↦ nomatch h 0⟩
  | cons a as ih =>
    cases bs with
    | nil => exact ⟨nofun, fun h ↦ nomatch h 0⟩
    | cons b bs => rw [sameItems, Bool.and_eq_true, ih, forall_optionRel_cons_iff]

theorem sameEntries_iff {as bs : List (String × HostValue)} :
    sameEntries as bs = true ↔
      ∀ e ∈ as, ∃ b, OrderedMap.find bs e.1 = some b ∧ e.2.same b = true := by
  induction as with
  | nil => simp [sameEntries]
  | cons e rest ih =>
    rw [sameEntries, Bool.and_eq_true, ih, List.forall_mem_cons]
    cases OrderedMap.find bs e.1 <;> simp

theorem sameObjects_iff {as bs : List (String × HostValue)} (ha : (OrderedMap.keys as).Nodup)
    (hb : (OrderedMap.keys bs).Nodup) :
    (as.length == bs.length && sameEntries as bs) = true ↔
      ∀ key, Option.Rel (·.same · = true) (OrderedMap.find as key) (OrderedMap.find bs key) := by
  rw [Bool.and_eq_true, beq_iff_eq, sameEntries_iff]
  exact OrderedMap.forall_find_iff (r := (·.same · = true)) ha hb

/-- Values are equal exactly if they are alike. -/
theorem same_iff_alike {a b : HostValue} (ha : a.keyed = true) (hb : b.keyed = true) :
    a.same b = true ↔ Alike a b := by
  constructor
  · fun_cases same a b <;> intro h
    · exact .undefined
    · exact .null
    · exact .scalar h
    · exact .list (sameItems_iff.1 h)
    · exact .object ((sameObjects_iff (keyed_object_iff.1 ha).1 (keyed_object_iff.1 hb).1).1 h)
    · obtain ⟨hclass, hprops⟩ := Bool.and_eq_true_iff.1 h
      exact .instanceOf (beq_iff_eq.1 hclass)
        ((sameObjects_iff (keyed_instanceOf_iff.1 ha).1 (keyed_instanceOf_iff.1 hb).1).1 hprops)
    · exact .foreign (Foreign.same_iff.1 h)
    · cases h
  · rintro (- | - | h | h | h | ⟨hclass, h⟩ | h)
    · rfl
    · rfl
    · exact h
    · exact sameItems_iff.2 h
    · exact (sameObjects_iff (keyed_object_iff.1 ha).1 (keyed_object_iff.1 hb).1).2 h
    · exact Bool.and_eq_true_iff.2 ⟨(beq_iff_eq (α := TypeKey)).2 hclass,
        (sameObjects_iff (keyed_instanceOf_iff.1 ha).1 (keyed_instanceOf_iff.1 hb).1).2 h⟩
    · exact Foreign.same_iff.2 h

/-! ### An equivalence relation -/

theorem same_self {a : HostValue} (ha : a.keyed = true) : a.same a = true := by
  induction a using induction_on_parts with
  | step a ih =>
    have hparts (x : Option HostValue) (hx : ∀ p, x = some p → p ∈ a.parts) :
        Option.Rel (·.same · = true) x x := by
      cases x with
      | none => exact .none
      | some p => exact .some (ih p (hx p rfl) (keyed_of_mem_parts ha (hx p rfl)))
    rw [same_iff_alike ha ha]
    cases a with
    | undefined => exact .undefined
    | null => exact .null
    | scalar value => exact .scalar (value.same_self ha)
    | list items => exact .list fun i ↦ hparts _ fun p ↦ List.mem_of_getElem?
    | object entries => exact .object fun key ↦ hparts _ fun p ↦ OrderedMap.mem_values_of_find
    | instanceOf cls props methods =>
      exact .instanceOf rfl fun key ↦ hparts _ fun p ↦ OrderedMap.mem_values_of_find
    | foreign data => exact .foreign rfl

theorem same_symm {a b : HostValue} (ha : a.keyed = true) (hb : b.keyed = true)
    (h : a.same b = true) : b.same a = true := by
  induction a using induction_on_parts generalizing b with
  | step a ih =>
    rw [same_iff_alike ha hb] at h
    rw [same_iff_alike hb ha]
    have hparts (p : HostValue) (hp : p ∈ a.parts) (q : HostValue) (hq : q ∈ b.parts) :
        p.same q = true → q.same p = true :=
      ih p hp (keyed_of_mem_parts ha hp) (keyed_of_mem_parts hb hq)
    cases h with
    | undefined => exact .undefined
    | null => exact .null
    | scalar h => exact .scalar (WireValue.same_symm ha hb h)
    | list h => exact .list (forall_getElem?_symm h hparts)
    | object h => exact .object (OrderedMap.forall_find_symm h hparts)
    | instanceOf hkey h => exact .instanceOf hkey.symm (OrderedMap.forall_find_symm h hparts)
    | foreign h => exact .foreign h.symm

theorem same_trans {a b c : HostValue} (ha : a.keyed = true) (hb : b.keyed = true)
    (hc : c.keyed = true) (h : a.same b = true) (h' : b.same c = true) : a.same c = true := by
  induction a using induction_on_parts generalizing b c with
  | step a ih =>
    rw [same_iff_alike ha hb] at h
    rw [same_iff_alike hb hc] at h'
    rw [same_iff_alike ha hc]
    have hparts (p : HostValue) (hp : p ∈ a.parts) (q : HostValue) (hq : q ∈ b.parts)
        (r : HostValue) (hr : r ∈ c.parts) : p.same q = true → q.same r = true → p.same r = true :=
      ih p hp (keyed_of_mem_parts ha hp) (keyed_of_mem_parts hb hq) (keyed_of_mem_parts hc hr)
    cases h with
    | undefined => exact h'
    | null => exact h'
    | scalar h =>
      cases h' with
      | scalar h' => exact .scalar (WireValue.same_trans ha hb hc h h')
    | list h =>
      cases h' with
      | list h' => exact .list (forall_getElem?_trans h h' hparts)
    | object h =>
      cases h' with
      | object h' => exact .object (OrderedMap.forall_find_trans h h' hparts)
    | instanceOf hkey h =>
      cases h' with
      | instanceOf hkey' h' =>
        exact .instanceOf (hkey.trans hkey') (OrderedMap.forall_find_trans h h' hparts)
    | foreign h =>
      cases h' with
      | foreign h' => exact .foreign (h.trans h')

/-! ### What respects equality -/

theorem itemsToWire_eq_map (items : List HostValue) : itemsToWire items = items.map toWire := by
  induction items with
  | nil => rfl
  | cons v rest ih => rw [itemsToWire, ih, List.map_cons]

theorem entriesToWire_eq_mapValues (entries : List (String × HostValue)) :
    entriesToWire entries = OrderedMap.mapValues toWire entries := by
  induction entries with
  | nil => rfl
  | cons e rest ih =>
    rw [entriesToWire, ih]
    rfl

theorem same_object_entriesToWire {as bs : List (String × HostValue)}
    (ha : (OrderedMap.keys as).Nodup) (hb : (OrderedMap.keys bs).Nodup)
    (h : ∀ key, Option.Rel (·.toWire.same ·.toWire = true)
      (OrderedMap.find as key) (OrderedMap.find bs key)) :
    (WireValue.object (entriesToWire as)).same (.object (entriesToWire bs)) = true := by
  rw [entriesToWire_eq_mapValues, entriesToWire_eq_mapValues, WireValue.same,
    WireValue.sameObjects_iff (by rwa [OrderedMap.keys_mapValues])
      (by rwa [OrderedMap.keys_mapValues])]
  intro key
  rw [OrderedMap.find_mapValues, OrderedMap.find_mapValues]
  exact optionRel_map (h key) fun a b _ _ ↦ id

theorem same_toWire {a b : HostValue} (ha : a.keyed = true) (hb : b.keyed = true)
    (h : a.same b = true) : a.toWire.same b.toWire = true := by
  induction a using induction_on_parts generalizing b with
  | step a ih =>
    rw [same_iff_alike ha hb] at h
    have hparts {x y : Option HostValue} (hx : ∀ p, x = some p → p ∈ a.parts)
        (hy : ∀ q, y = some q → q ∈ b.parts) (hxy : Option.Rel (·.same · = true) x y) :
        Option.Rel (·.toWire.same ·.toWire = true) x y := by
      cases hxy with
      | none => exact .none
      | some hpq =>
        exact .some (ih _ (hx _ rfl) (keyed_of_mem_parts ha (hx _ rfl))
          (keyed_of_mem_parts hb (hy _ rfl)) hpq)
    cases h with
    | undefined | null | foreign => rfl
    | scalar h => exact h
    | list h =>
      rw [toWire, toWire, WireValue.same, WireValue.sameItems_iff, itemsToWire_eq_map,
        itemsToWire_eq_map]
      intro i
      rw [List.getElem?_map, List.getElem?_map]
      exact optionRel_map
        (hparts (fun p ↦ List.mem_of_getElem?) (fun q ↦ List.mem_of_getElem?) (h i))
        fun a b _ _ ↦ id
    | object h =>
      exact same_object_entriesToWire (keyed_object_iff.1 ha).1 (keyed_object_iff.1 hb).1 fun key ↦
        hparts (fun p ↦ OrderedMap.mem_values_of_find) (fun q ↦ OrderedMap.mem_values_of_find)
          (h key)
    | instanceOf _ h =>
      exact same_object_entriesToWire (keyed_instanceOf_iff.1 ha).1 (keyed_instanceOf_iff.1 hb).1
        fun key ↦ hparts (fun p ↦ OrderedMap.mem_values_of_find)
          (fun q ↦ OrderedMap.mem_values_of_find) (h key)

theorem Alike.isNullish_eq {a b : HostValue} (h : Alike a b) : a.isNullish = b.isNullish := by
  have hscalar (v : WireValue) : (HostValue.scalar v).isNullish = v.isNull := by
    cases v <;> rfl
  cases h with
  | scalar h => rw [hscalar, hscalar, WireValue.isNull_of_same h]
  | undefined | null | list | object | instanceOf | foreign => rfl

theorem Alike.get {a b : HostValue} (h : Alike a b) (key : String) :
    Option.Rel (·.same · = true) (a.get key) (b.get key) := by
  cases h with
  | object h | instanceOf _ h => exact h key
  | undefined | null | scalar | list | foreign => exact .none

/-- A value of the program in which nothing has a key twice. -/
abbrev Keyed := {v : HostValue // v.keyed = true}

/-- **Equality of values is an equivalence relation that everything respects.**  Values are equal
exactly if they are alike: lists item by item, objects and the properties of instances under each
key, whatever their order, instances if they are of one class, foreign data with itself, and values
of the wire as the query engine compares them, for which an enum member is a string.  Comparing an
instance with itself need not look at its properties, as it is equal to itself anyway.  What is
equal is equal on the wire, is nothing or not alike, and has equal properties or lacks them
alike. -/
theorem same_congruence :
    (Equivalence fun a b : Keyed ↦ a.val.same b.val = true) ∧
      (∀ a b : Keyed, a.val.same b.val = true ↔ Alike a.val b.val) ∧
      (∀ a b : WireValue.Keyed, a.val.same b.val = true ↔ WireValue.Alike a.val b.val) ∧
      ∀ a b : Keyed, a.val.same b.val = true →
        a.val.toWire.same b.val.toWire = true ∧ a.val.isNullish = b.val.isNullish ∧
          ∀ key, Option.Rel (·.same · = true) (a.val.get key) (b.val.get key) := by
  refine ⟨⟨fun a ↦ same_self a.2, fun {a b} ↦ same_symm a.2 b.2,
      fun {a b c} ↦ same_trans a.2 b.2 c.2⟩, fun a b ↦ same_iff_alike a.2 b.2,
    fun a b ↦ WireValue.same_iff_alike a.2 b.2, fun a b h ↦ ?_⟩
  have halike : Alike a.val b.val := (same_iff_alike a.2 b.2).1 h
  exact ⟨same_toWire a.2 b.2 h, halike.isNullish_eq, halike.get⟩

/-! ### An instance -/

namespace Shuffled

/-- A class. -/
def card : ClassRef := .base ⟨1⟩ "Card"

/-- A card with its suit as an enum member. -/
def drawn : HostValue :=
  .instanceOf card
    [("suit", .scalar (.enum "HEARTS")), ("tags", .object [("a", .null), ("b", .null)])] []

/-- The card with its properties in another order, its suit as a string, and a method of its own. -/
def kept : HostValue :=
  .instanceOf card
    [("tags", .object [("b", .null), ("a", .null)]), ("suit", .ofText "HEARTS")] [("rank", ⟨0⟩)]

end Shuffled

open Shuffled in
/-- The same card twice. -/
theorem same_congruence_shuffled :
    drawn.keyed = true ∧ kept.keyed = true ∧ drawn.same kept = true ∧
      drawn.toWire.same kept.toWire = true ∧
      Option.Rel (·.same · = true) (drawn.get "tags") (kept.get "tags") := by
  have hdrawn : drawn.keyed = true := by decide
  have hkept : kept.keyed = true := by decide
  have hsame : drawn.same kept = true := by decide
  obtain ⟨hwire, -, hget⟩ := same_congruence.2.2.2 ⟨drawn, hdrawn⟩ ⟨kept, hkept⟩ hsame
  exact ⟨hdrawn, hkept, hsame, hwire, hget "tags"⟩

end HostValue
end ApiGraph
