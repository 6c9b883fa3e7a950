import ApiGraph.Class
import ApiGraph.Proofs.OrderedMap
import Mathlib

/-!
# Lineages of declared classes

A class is told apart by its key, which it gets from a counter of 32 bits when it is declared, and
it inherits from a class that is there already.  As long as the counter has not come round, keys are
never given twice.  So a key that is found in a lineage belongs to an ancestor, and the ancestors of
a class are ordered: whatever is chosen by the nearest or the oldest ancestor is well defined.

## What is here

* `ClassRef.mem_lineage_or_mem_lineage`: the ancestors of a class form a chain, in which no class
  comes twice (`ClassRef.nodup_lineage`).
* `ClassRef.Family`: classes with different keys that are there with their ancestors, on which
  inheriting is a partial order (`ClassRef.Family.isPartialOrder`).
* `ParentsFirst` and `Declared.Yields`: runs of declarations, and what they make.
* `nodup_keys_declareAll`: keys differ as long as the counter has not come round.
* `declareAll_lineages`: keys and lineages of the classes that a run declares.
-/

set_option autoImplicit false

namespace ApiGraph

/-! ## Ancestors -/

namespace ClassRef

theorem self_mem_lineage (c : ClassRef) : c ∈ c.lineage := by
  cases c with
  | base | derived => exact List.mem_cons_self

theorem isA_key (c : ClassRef) : c.isA c.key = true :=
  (c.isA_iff_mem_lineage c.key).2 (List.mem_map_of_mem c.self_mem_lineage)

/-- The lineage of a class is the class itself, followed by the lineage of its parent. -/
theorem lineage_eq (c : ClassRef) : c.lineage = c :: (c.parent?.map lineage).getD [] := by
  cases c with
  | base | derived => rfl

/-- A lineage ends with a class without a parent. -/
theorem exists_oldest (c : ClassRef) :
    ∃ oldest, c.lineage.getLast? = some oldest ∧ oldest.parent? = none := by
  induction c with
  | base key name => exact ⟨.base key name, rfl, rfl⟩
  | derived key name parent ih =>
    obtain ⟨oldest, hlast, hparent⟩ := ih
    refine ⟨oldest, ?_, hparent⟩
    rw [lineage, List.getLast?_cons, hlast]
    rfl

/-- The lineage of an ancestor is the last part of a lineage. -/
theorem lineage_suffix {a c : ClassRef} (h : a ∈ c.lineage) : a.lineage <:+ c.lineage := by
  induction c with
  | base key name => exact List.mem_singleton.1 h ▸ List.suffix_rfl
  | derived key name parent ih =>
    rcases List.mem_cons.1 h with rfl | h
    · exact List.suffix_rfl
    · exact (ih h).trans (List.suffix_cons _ _)

/-- An ancestor of an ancestor is an ancestor. -/
theorem mem_lineage_trans {a b c : ClassRef} (ha : a ∈ b.lineage) (hb : b ∈ c.lineage) :
    a ∈ c.lineage :=
  (lineage_suffix hb).subset ha

/-- **Ancestors form a chain.**  Of two ancestors of a class one is an ancestor of the other. -/
theorem mem_lineage_or_mem_lineage {a b c : ClassRef} (ha : a ∈ c.lineage) (hb : b ∈ c.lineage) :
    a ∈ b.lineage ∨ b ∈ a.lineage :=
  (List.suffix_or_suffix_of_suffix (lineage_suffix ha) (lineage_suffix hb)).imp
    (fun h ↦ h.subset a.self_mem_lineage) fun h ↦ h.subset b.self_mem_lineage

/-- Two classes that are ancestors of each other are the same. -/
theorem eq_of_mem_lineage {a b : ClassRef} (ha : a ∈ b.lineage) (hb : b ∈ a.lineage) : a = b := by
  have h : a.lineage = b.lineage :=
    (lineage_suffix ha).eq_of_length_le (lineage_suffix hb).length_le
  rw [lineage_eq a, lineage_eq b] at h
  exact (List.cons.inj h).1

/-- No class comes twice in a lineage. -/
theorem nodup_lineage (c : ClassRef) : c.lineage.Nodup := by
  induction c with
  | base key name => exact List.nodup_singleton _
  | derived key name parent ih =>
    refine List.nodup_cons.2 ⟨fun h ↦ ?_, ih⟩
    have hle : (derived key name parent).lineage.length ≤ parent.lineage.length :=
      (lineage_suffix h).length_le
    rw [lineage, List.length_cons] at hle
    omega

/-! ## Classes with different keys -/

/-- Classes that have different keys and are there together with their ancestors. -/
structure Family (classes : ClassRef → Prop) : Prop where
  eq_of_key : ∀ {a b}, classes a → classes b → a.key = b.key → a = b
  of_mem_lineage : ∀ {a c}, classes c → a ∈ c.lineage → classes a

namespace Family

variable {classes : ClassRef → Prop} (h : Family classes)
include h

/-- A class has the keys of its ancestors only. -/
theorem isA_key_iff {a c : ClassRef} (ha : classes a) (hc : classes c) :
    c.isA a.key = true ↔ a ∈ c.lineage := by
  rw [isA_iff_mem_lineage, List.mem_map]
  constructor
  · rintro ⟨b, hb, hkey⟩
    rwa [← h.eq_of_key (h.of_mem_lineage hc hb) ha hkey]
  · exact fun hmem ↦ ⟨a, hmem, rfl⟩

/-- No two classes of a lineage have one key. -/
theorem nodup_keys_lineage {c : ClassRef} (hc : classes c) : (c.lineage.map key).Nodup :=
  c.nodup_lineage.map_on fun _ ha _ hb ↦
    h.eq_of_key (h.of_mem_lineage hc ha) (h.of_mem_lineage hc hb)

/-- Inheriting is a partial order. -/
theorem isPartialOrder :
    IsPartialOrder { c // classes c } fun a b ↦ a.1.isA b.1.key = true where
  refl a := a.1.isA_key
  trans a b c hab hbc := by
    rw [h.isA_key_iff b.2 a.2] at hab
    rw [h.isA_key_iff c.2 b.2] at hbc
    exact (h.isA_key_iff c.2 a.2).2 (mem_lineage_trans hbc hab)
  antisymm a b hab hba :=
    Subtype.ext (eq_of_mem_lineage ((h.isA_key_iff a.2 b.2).1 hba) ((h.isA_key_iff b.2 a.2).1 hab))

/-- Of two classes from which a class inherits one inherits from the other. -/
theorem isA_or_isA {a b c : ClassRef} (ha : classes a) (hb : classes b) (hc : classes c)
    (hca : c.isA a.key = true) (hcb : c.isA b.key = true) :
    a.isA b.key = true ∨ b.isA a.key = true := by
  rw [h.isA_key_iff hb ha, h.isA_key_iff ha hb]
  exact (mem_lineage_or_mem_lineage ((h.isA_key_iff ha hc).1 hca)
    ((h.isA_key_iff hb hc).1 hcb)).symm

end Family

end ClassRef

/-! ## Runs of declarations -/

/-- Declarations in an order in which every class comes after its parent. -/
inductive ParentsFirst : List Declaration → Prop
  | nil : ParentsFirst []
  | base {earlier : List Declaration} (h : ParentsFirst earlier) (name : String) :
    ParentsFirst (earlier ++ [.cls name none])
  | derived {earlier : List Declaration} (h : ParentsFirst earlier) (name : String) {i : Nat}
    {parent : String} {grandparent : Option Nat}
    (hi : earlier[i]? = some (.cls parent grandparent)) :
    ParentsFirst (earlier ++ [.cls name (some i)])
  | enum {earlier : List Declaration} (h : ParentsFirst earlier) : ParentsFirst (earlier ++ [.enum])

/-- What a declaration yields, where its parent is found among what is made. -/
inductive Declared.Yields (made : List Declared) : Declaration → Declared → Prop
  | base (key : TypeKey) (name : String) : Yields made (.cls name none) (.cls (.base key name))
  | derived (key : TypeKey) (name : String) {i : Nat} {parent : ClassRef}
    (hi : made[i]? = some (.cls parent)) :
    Yields made (.cls name (some i)) (.cls (.derived key name parent))
  | enum (key : TypeKey) : Yields made .enum (.enum key)

section Runs

variable {declarations : List Declaration} {made : List Declared}

theorem declareAll_concat (declarations : List Declaration) (d : Declaration) :
    declareAll (declarations ++ [d]) =
      let (made, supply) := declareAll declarations
      let (one, supply) := declare made supply d
      (made ++ [one], supply) :=
  List.foldl_concat ..

/-! ### Keys -/

/-- A declaration takes one key. -/
theorem takes_declare (made : List Declared) (supply : KeySupply) (d : Declaration) :
    (declare made supply d).1.key = supply.take.1 ∧ (declare made supply d).2 = supply.take.2 := by
  cases d with
  | cls name parent =>
    simp only [declare, KeySupply.take]
    split <;> exact ⟨rfl, rfl⟩
  | enum => exact ⟨rfl, rfl⟩

/-- The number of a key is the position of its declaration, counted from one. -/
theorem keys_declareAll (declarations : List Declaration) :
    (declareAll declarations).1.map Declared.key =
        (List.range declarations.length).map (fun n ↦ ⟨UInt32.ofNat (n + 1)⟩) ∧
      (declareAll declarations).2 = ⟨UInt32.ofNat (declarations.length + 1)⟩ := by
  induction declarations using List.reverseRecOn with
  | nil => exact ⟨rfl, rfl⟩
  | append_singleton declarations d ih =>
    obtain ⟨hkeys, hsupply⟩ := ih
    rw [declareAll_concat]
    constructor
    · simp [hkeys, hsupply, takes_declare, KeySupply.take, List.range_succ]
    · simp [hsupply, takes_declare, KeySupply.take, UInt32.ofNat_add]

/-- **Keys are not given twice** as long as the counter has not come round. -/
theorem nodup_keys_declareAll (h : declarations.length ≤ 2 ^ 32) :
    ((declareAll declarations).1.map Declared.key).Nodup := by
  rw [(keys_declareAll declarations).1]
  refine List.nodup_range.map_on fun n hn m hm heq ↦ ?_
  rw [List.mem_range] at hn hm
  have hmod : (n + 1) % 2 ^ 32 = (m + 1) % 2 ^ 32 :=
    congrArg (fun key ↦ key.number.toNat) heq
  omega

/-! ### Classes -/

theorem Declared.Yields.append {d : Declaration} {x : Declared} (h : Yields made d x)
    (later : List Declared) : Yields (made ++ later) d x := by
  cases h with
  | base key name => exact .base key name
  | derived key name hi =>
    refine .derived key name ?_
    rw [List.getElem?_append_left (List.getElem?_eq_some_iff.1 hi).1, hi]
  | enum key => exact .enum key

/-- One declaration more. -/
theorem yields_concat (h : List.Forall₂ (Declared.Yields (declareAll declarations).1) declarations
      (declareAll declarations).1) {d : Declaration}
    (hd : Declared.Yields (declareAll declarations).1 d
      (declare (declareAll declarations).1 (declareAll declarations).2 d).1) :
    List.Forall₂ (Declared.Yields (declareAll (declarations ++ [d])).1) (declarations ++ [d])
      (declareAll (declarations ++ [d])).1 := by
  rw [declareAll_concat]
  exact List.rel_append (h.imp fun _ _ hx ↦ hx.append _) (.cons (hd.append _) .nil)

/-- Everything is made as it is declared. -/
theorem ParentsFirst.yields (h : ParentsFirst declarations) :
    List.Forall₂ (Declared.Yields (declareAll declarations).1) declarations
      (declareAll declarations).1 := by
  induction h with
  | nil => exact .nil
  | base h name ih => exact yields_concat ih (.base _ name)
  | @derived earlier h name i parent grandparent hi ih =>
    obtain ⟨x, hx, hyields⟩ := exists_getElem?_of_forall₂ ih hi
    obtain ⟨p, rfl⟩ : ∃ p, x = .cls p := by
      cases hyields with
      | base | derived => exact ⟨_, rfl⟩
    refine yields_concat ih ?_
    simp only [declare, Option.bind_some, hx, Declared.class?]
    exact .derived _ name hx
  | enum h ih => exact yields_concat ih (.enum _)

/-- Whatever class is made, its ancestors are made too. -/
theorem cls_mem_of_mem_lineage (h : List.Forall₂ (Declared.Yields made) declarations made)
    {a c : ClassRef} (hc : .cls c ∈ made) (ha : a ∈ c.lineage) : .cls a ∈ made := by
  induction c with
  | base key name => rwa [List.mem_singleton.1 ha]
  | derived key name parent ih =>
    rcases List.mem_cons.1 ha with rfl | ha
    · exact hc
    · obtain ⟨d, -, hd⟩ := exists_left_of_forall₂ h hc
      cases hd with
      | derived _ _ hi => exact ih (List.mem_of_getElem? hi) ha

/-- A lineage has no more classes than were declared. -/
theorem length_lineage_le (h : List.Forall₂ (Declared.Yields made) declarations made)
    {c : ClassRef} (hc : .cls c ∈ made) : c.lineage.length ≤ declarations.length := by
  have hnodup : (c.lineage.map Declared.cls).Nodup :=
    c.nodup_lineage.map_on fun _ _ _ _ ↦ Declared.cls.inj
  have hsub : c.lineage.map Declared.cls ⊆ made := by
    intro x hx
    obtain ⟨a, ha, rfl⟩ := List.mem_map.1 hx
    exact cls_mem_of_mem_lineage h hc ha
  have hle := (hnodup.subperm hsub).length_le
  rwa [List.length_map, ← h.length_eq] at hle

/-- The classes that a run makes have different keys and are made together with their ancestors. -/
theorem family_declareAll (hcount : declarations.length ≤ 2 ^ 32)
    (hparents : ParentsFirst declarations) :
    ClassRef.Family fun c ↦ .cls c ∈ (declareAll declarations).1 where
  eq_of_key ha hb hkey :=
    Declared.cls.inj (List.inj_on_of_nodup_map (nodup_keys_declareAll hcount) ha hb hkey)
  of_mem_lineage := cls_mem_of_mem_lineage hparents.yields

/-- **Keys and lineages of the classes of a program.**  If fewer than `2 ^ 32` classes and enums are
declared, each class after its parent, everything is made as declared, and no key is given twice.
The keys that a class is one of are those of its lineage; the lineage consists of the class and the
lineage of its parent, all of them declared, ends with a class that has no parent, and has no class
twice.  Inheriting is a partial order on the classes, in which the ancestors of one class can be
compared. -/
theorem declareAll_lineages (hcount : declarations.length < 2 ^ 32)
    (hparents : ParentsFirst declarations) :
    let made := (declareAll declarations).1
    List.Forall₂ (Declared.Yields made) declarations made ∧
    (made.map Declared.key).Nodup ∧
    (∀ c, .cls c ∈ made →
      (∀ key, c.isA key = true ↔ ∃ a ∈ c.lineage, a.key = key) ∧
      c.lineage = c :: (c.parent?.map ClassRef.lineage).getD [] ∧
      (∀ a ∈ c.lineage, .cls a ∈ made) ∧
      (∃ oldest, c.lineage.getLast? = some oldest ∧ oldest.parent? = none) ∧
      c.lineage.length ≤ declarations.length ∧
      (c.lineage.map ClassRef.key).Nodup) ∧
    IsPartialOrder { c // .cls c ∈ made } (fun c a ↦ c.1.isA a.1.key = true) ∧
    ∀ c a b, .cls c ∈ made → .cls a ∈ made → .cls b ∈ made →
      c.isA a.key = true → c.isA b.key = true → a.isA b.key = true ∨ b.isA a.key = true := by
  intro made
  have hcount' : declarations.length ≤ 2 ^ 32 := Nat.le_of_lt hcount
  have hyields := hparents.yields
  have hfamily : ClassRef.Family fun c ↦ .cls c ∈ made := family_declareAll hcount' hparents
  refine ⟨hyields, nodup_keys_declareAll hcount', fun c hc ↦ ⟨fun key ↦ ?_, c.lineage_eq,
    fun a ↦ hfamily.of_mem_lineage hc, c.exists_oldest, length_lineage_le hyields hc,
    hfamily.nodup_keys_lineage hc⟩, hfamily.isPartialOrder,
    fun c a b hc ha hb ↦ hfamily.isA_or_isA ha hb hc⟩
  rw [c.isA_iff_mem_lineage, List.mem_map]

end Runs

/-! ### An instance -/

namespace Generations

/-- Three generations, an enum, and a class that shares its name with the oldest. -/
def declarations : List Declaration :=
  [.cls "Base" none, .enum, .cls "Middle" (some 0), .cls "Leaf" (some 2), .cls "Base" none]

theorem parentsFirst : ParentsFirst declarations :=
  ((((ParentsFirst.nil.base "Base").enum).derived "Middle" rfl).derived "Leaf" rfl).base "Base"

/-- The oldest class. -/
def base : ClassRef := .base ⟨1⟩ "Base"

/-- The class between. -/
def middle : ClassRef := .derived ⟨3⟩ "Middle" base

/-- The youngest class. -/
def leaf : ClassRef := .derived ⟨4⟩ "Leaf" middle

/-- The class of the same name. -/
def other : ClassRef := .base ⟨5⟩ "Base"

end Generations

open Generations in
/-- The youngest class is a class of its lineage only, of which the older one is an ancestor of the
other; the class of the same name has another key. -/
theorem declareAll_lineages_generations :
    declarations.length < 2 ^ 32 ∧ ParentsFirst declarations ∧
      (declareAll declarations).1 =
        [.cls base, .enum ⟨2⟩, .cls middle, .cls leaf, .cls other] ∧
      leaf.lineage = [leaf, middle, base] ∧
      (∀ key, leaf.isA key = true ↔ key = leaf.key ∨ key = middle.key ∨ key = base.key) ∧
      (base.isA middle.key = true ∨ middle.isA base.key = true) ∧
      base.isA leaf.key = false ∧ leaf.isA other.key = false := by
  have hcount : declarations.length < 2 ^ 32 := by decide
  have hmade : (declareAll declarations).1 =
    [.cls base, .enum ⟨2⟩, .cls middle, .cls leaf, .cls other] := rfl
  obtain ⟨-, -, hlineages, -, hchain⟩ := declareAll_lineages hcount parentsFirst
  rw [hmade] at hlineages hchain
  refine ⟨hcount, parentsFirst, hmade, rfl, fun key ↦ ?_, ?_, rfl, rfl⟩
  · rw [(hlineages leaf (by simp)).1]
    simp [leaf, middle, base, ClassRef.lineage, eq_comm]
  · exact hchain leaf base middle (by simp) (by simp) (by simp) rfl rfl

end ApiGraph
