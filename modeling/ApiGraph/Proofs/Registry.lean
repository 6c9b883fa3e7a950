import ApiGraph.Proofs.OrderedMap

/-!
# What a registry holds after many calls

A registry is filled in two ways: a key of an owner is set, or the map of an owner is updated by
inserting entries into it, which may depend on what is there already.  Over any sequence of calls,
however the owners take turns, the map of an owner is the one made of all entries that were set for
that owner.  So a key stands where it was first set and has the value with which it was last set.

## What is here

* `Registry.Call`: the calls that fill a registry, and `Registry.Call.runAll`, which makes a
  sequence of them and records the entries that they set.
* `Registry.MadeOf`: every owner has the map made of its entries; `Registry.MadeOf.run` for one call
  more and `Registry.MadeOf.runAll` for any number.
* `Registry.Answers`: what a registry answers, read off the entries that were set.
* `Registry.Call.runAll_answers`: a registry that is filled from the beginning answers so, and what
  it answers about an owner depends on the calls on this owner only.
-/

set_option autoImplicit false

namespace ApiGraph.Registry

variable {κ ν : Type}

/-! ## Entries that are set -/

/-- The entries that were set, in order, each with its owner. -/
abbrev Record (κ ν : Type) := List (TypeKey × κ × ν)

/-- The entries that were set for an owner. -/
def Record.of (past : Record κ ν) (owner : TypeKey) : List (κ × ν) :=
  (past.filter fun e ↦ e.1 = owner).map Prod.snd

theorem Record.of_append (past later : Record κ ν) (owner : TypeKey) :
    Record.of (past ++ later) owner = past.of owner ++ later.of owner := by
  simp [Record.of]

/-- Entries that are all set for one owner. -/
theorem Record.of_map (entries : List (κ × ν)) (owner other : TypeKey) :
    Record.of (entries.map fun e ↦ (owner, e)) other = if owner = other then entries else [] := by
  by_cases h : owner = other <;> simp [Record.of, List.filter_map, Function.comp_def, h]

/-! ## Calls -/

/-- A call that fills a registry. -/
inductive Call (κ ν : Type) where
  /-- Gives a key of an owner a value. -/
  | set (owner : TypeKey) (key : κ) (value : ν)
  /-- Inserts entries into the map of an owner one after the other.  Which entries these are may
  depend on the map. -/
  | update (owner : TypeKey) (insertions : OrderedMap κ ν → List (κ × ν))

namespace Call

/-- The owner whose map a call changes. -/
def owner : Call κ ν → TypeKey
  | .set owner _ _ => owner
  | .update owner _ => owner

/-- The entries that a call inserts into the map of its owner. -/
def entries (c : Call κ ν) (m : OrderedMap κ ν) : List (κ × ν) :=
  match c with
  | .set _ key value => [(key, value)]
  | .update _ insertions => insertions m

variable [DecidableEq κ]

/-- Makes a call. -/
def run (c : Call κ ν) (r : Registry κ ν) : Registry κ ν :=
  match c with
  | .set owner key value => r.set owner key value
  | .update owner insertions =>
    r.update owner fun m ↦ (insertions m).foldl (fun m e ↦ OrderedMap.put m e.1 e.2) m

/-- The entries that a call sets, for its owner. -/
def record (c : Call κ ν) (r : Registry κ ν) : Record κ ν :=
  (c.entries (r.getAll c.owner)).map fun e ↦ (c.owner, e)

/-- Makes calls in order. -/
def runAll : List (Call κ ν) → Registry κ ν → Record κ ν × Registry κ ν
  | [], r => ([], r)
  | c :: rest, r =>
    let later := runAll rest (c.run r)
    (c.record r ++ later.1, later.2)

/-- To set a key is to update the map of its owner. -/
theorem run_eq (c : Call κ ν) (r : Registry κ ν) :
    c.run r =
      r.update c.owner fun m ↦ (c.entries m).foldl (fun m e ↦ OrderedMap.put m e.1 e.2) m := by
  cases c with
  | set | update => rfl

/-- A call puts its entries into the map of its owner and changes no other. -/
theorem getAll_run (c : Call κ ν) (r : Registry κ ν) (other : TypeKey) :
    (c.run r).getAll other =
      if c.owner = other then
        (c.entries (r.getAll other)).foldl (fun m e ↦ OrderedMap.put m e.1 e.2) (r.getAll other)
      else r.getAll other := by
  rw [run_eq, getAll_update]
  by_cases howner : c.owner = other
  · rw [if_pos howner, if_pos howner, howner]
  · rw [if_neg howner, if_neg howner]

end Call

/-! ## The map of an owner -/

variable [DecidableEq κ]

/-- Every owner has the map made of the entries that were set for it. -/
def MadeOf (past : Record κ ν) (r : Registry κ ν) : Prop :=
  ∀ owner, r.getAll owner = OrderedMap.ofEntries (past.of owner)

namespace MadeOf

variable {past : Record κ ν} {r : Registry κ ν}

/-- One call more. -/
theorem run (h : MadeOf past r) (c : Call κ ν) : MadeOf (past ++ c.record r) (c.run r) := by
  intro owner
  rw [Record.of_append, Call.record, Record.of_map, Call.getAll_run]
  split
  · rename_i howner
    subst howner
    rw [h, OrderedMap.ofEntries, OrderedMap.ofEntries, List.foldl_append]
  · rw [h, List.append_nil]

/-- Any number of calls more. -/
theorem runAll (h : MadeOf past r) (calls : List (Call κ ν)) :
    MadeOf (past ++ (Call.runAll calls r).1) (Call.runAll calls r).2 := by
  induction calls generalizing past r with
  | nil => rwa [Call.runAll, List.append_nil]
  | cons c rest ih =>
    rw [Call.runAll, ← List.append_assoc]
    exact ih (h.run c)

end MadeOf

/-! ## Answers -/

/-- What a registry answers, read off the entries that were set. -/
structure Answers (past : Record κ ν) (r : Registry κ ν) : Prop where
  /-- The keys of an owner are those that were set for it, in the order in which they were set
  first. -/
  keys : ∀ owner, OrderedMap.keys (r.getAll owner) = ((past.of owner).map Prod.fst).eraseDups
  /-- No key is listed twice. -/
  nodup : ∀ owner, (OrderedMap.keys (r.getAll owner)).Nodup
  /-- A key is listed with the value with which it was set last. -/
  mem_getAll : ∀ owner key value, (key, value) ∈ r.getAll owner ↔
    LastNamed Prod.fst (past.of owner) key (key, value)
  /-- A key has the value with which it was set last. -/
  get? : ∀ owner key value, r.get? owner key = some value ↔
    LastNamed Prod.fst (past.of owner) key (key, value)
  /-- A key that was never set has no value. -/
  get?_none : ∀ owner key, r.get? owner key = none ↔ ∀ e ∈ past.of owner, e.1 ≠ key
  has : ∀ owner key, r.has owner key = true ↔ ∃ value, r.get? owner key = some value
  isEmpty : ∀ owner, r.isEmpty owner = true ↔ r.getAll owner = []

theorem MadeOf.answers {past : Record κ ν} {r : Registry κ ν} (h : MadeOf past r) :
    Answers past r where
  keys owner := by rw [h, OrderedMap.keys_ofEntries]
  nodup owner := by
    rw [h]
    exact OrderedMap.nodup_keys_ofEntries _
  mem_getAll owner key value := by
    rw [h, ← OrderedMap.find_eq_some_iff (OrderedMap.nodup_keys_ofEntries _),
      OrderedMap.find_ofEntries_eq_some_iff]
  get? owner key value := by
    rw [Registry.get?, h, OrderedMap.find_ofEntries_eq_some_iff]
  get?_none owner key := by
    rw [Registry.get?, h, OrderedMap.find_eq_none_iff, OrderedMap.keys_ofEntries,
      List.mem_eraseDups, List.mem_map]
    exact ⟨fun hkey e he heq ↦ hkey ⟨e, he, heq⟩, fun hkey ⟨e, he, heq⟩ ↦ hkey e he heq⟩
  has owner key := Option.isSome_iff_exists
  isEmpty owner := List.isEmpty_iff

/-- Two registries answer alike about an owner. -/
structure AlikeOn (owner : TypeKey) (r r' : Registry κ ν) : Prop where
  getAll : r'.getAll owner = r.getAll owner
  get? : ∀ key, r'.get? owner key = r.get? owner key
  has : ∀ key, r'.has owner key = r.has owner key
  isEmpty : r'.isEmpty owner = r.isEmpty owner

theorem AlikeOn.of_getAll {owner : TypeKey} {r r' : Registry κ ν}
    (h : r'.getAll owner = r.getAll owner) : AlikeOn owner r r' where
  getAll := h
  get? key := congrArg (OrderedMap.find · key) h
  has key := congrArg (OrderedMap.has · key) h
  isEmpty := congrArg List.isEmpty h

namespace Call

/-- The map of an owner depends on the calls on this owner only. -/
theorem getAll_runAll_filter (calls : List (Call κ ν)) (owner : TypeKey) {r r' : Registry κ ν}
    (h : r'.getAll owner = r.getAll owner) :
    (runAll (calls.filter (·.owner = owner)) r').2.getAll owner =
      (runAll calls r).2.getAll owner := by
  induction calls generalizing r r' with
  | nil => exact h
  | cons c rest ih =>
    by_cases howner : c.owner = owner
    · rw [List.filter_cons, if_pos (decide_eq_true howner)]
      exact ih (by simp only [getAll_run, howner, if_true, h])
    · rw [List.filter_cons, if_neg (by simpa using howner)]
      exact ih (by rw [getAll_run, if_neg howner, h])

/-- **A registry is an ordered map for every owner.**  After any sequence of calls the keys that
were set for an owner are listed once each, in the order in which they were set first and with the
values with which they were set last; a key has that value or, if it was never set, none; and the
other answers follow suit.  A call on one owner changes no answer about another one, so over the
whole sequence the calls on other owners can be left out. -/
theorem runAll_answers (calls : List (Call κ ν)) :
    Answers (runAll calls {}).1 (runAll calls {}).2 ∧
    (∀ (c : Call κ ν) owner, c.owner ≠ owner →
      AlikeOn owner (runAll calls {}).2 (c.run (runAll calls {}).2)) ∧
    ∀ owner, AlikeOn owner (runAll calls {}).2
      (runAll (calls.filter (·.owner = owner)) {}).2 := by
  have hnew : MadeOf [] ({} : Registry κ ν) := fun _ ↦ rfl
  refine ⟨(hnew.runAll calls).answers, fun c owner howner ↦ .of_getAll ?_,
    fun owner ↦ .of_getAll ?_⟩
  · rw [getAll_run, if_neg howner]
  · exact getAll_runAll_filter calls owner rfl

/-! ### An instance -/

namespace Parameters

/-- Two parameters of a field and one of another class; the first parameter is set twice. -/
def calls : List (Call (String × Nat) String) :=
  [.set ⟨1⟩ ("move", 1) "down", .set ⟨1⟩ ("move", 0) "right", .set ⟨2⟩ ("move", 1) "left",
    .update ⟨1⟩ fun m ↦ [(("move", 1), (OrderedMap.find m ("move", 1)).getD "" ++ "wards")]]

end Parameters

open Parameters in
/-- The parameter that is set again stays in its place, in front of the other one of its field, and
a parameter of another class does not matter. -/
theorem runAll_answers_parameters :
    let r := (runAll calls {}).2
    r.getAll ⟨1⟩ = [(("move", 1), "downwards"), (("move", 0), "right")] ∧
      r.get? ⟨1⟩ ("move", 1) = some "downwards" ∧ r.get? ⟨1⟩ ("move", 2) = none ∧
      AlikeOn ⟨1⟩ r (Call.run (.set ⟨2⟩ ("move", 2) "up") r) := by
  intro r
  obtain ⟨hanswers, hother, -⟩ := runAll_answers calls
  refine ⟨rfl, (hanswers.get? _ _ _).2 ?_, (hanswers.get?_none _ _).2 (by decide),
    hother (.set ⟨2⟩ ("move", 2) "up") ⟨1⟩ (by decide)⟩
  exact ⟨[(("move", 1), "down"), (("move", 0), "right")], [], rfl, rfl, List.forall_mem_nil _⟩

end Call

end ApiGraph.Registry
