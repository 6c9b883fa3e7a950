/-!
# Maps that remember the order of their keys

An `OrderedMap` lists its entries in the order in which their keys were first put; putting a key
again replaces its value where it stands.  Every table of this library whose order an answer can
show (fields, arguments, properties, registrations) is one.

## What is here

* `find`, `has`, `put`: the three operations, and `ofEntries`, which puts a list of entries in
  order.
* `find_put`, `keys_put`: what `put` does to the two views `find` and `keys`.
-/

set_option autoImplicit false

namespace ApiGraph

/-- Entries by key, in the order of the keys' first insertion. -/
abbrev OrderedMap (κ ν : Type) := List (κ × ν)

namespace OrderedMap

variable {κ ν : Type}

/-- The keys in order. -/
def keys (m : OrderedMap κ ν) : List κ := m.map Prod.fst

/-- The values in the order of their keys. -/
def values (m : OrderedMap κ ν) : List ν := m.map Prod.snd

variable [DecidableEq κ]

/-- The value of a key. -/
def find : OrderedMap κ ν → κ → Option ν
  | [], _ => none
  | (k, v) :: rest, key => if k = key then some v else find rest key

/-- Whether a key has a value. -/
def has (m : OrderedMap κ ν) (key : κ) : Bool := (find m key).isSome

/-- Gives a key a value: in its old place if it has one, at the end if not. -/
def put : OrderedMap κ ν → κ → ν → OrderedMap κ ν
  | [], key, value => [(key, value)]
  | (k, v) :: rest, key, value =>
    if k = key then (k, value) :: rest else (k, v) :: put rest key value

/-- The map that holds the entries of a list, later ones replacing earlier ones of their key. -/
def ofEntries (entries : List (κ × ν)) : OrderedMap κ ν :=
  entries.foldl (fun m e ↦ put m e.1 e.2) []

/-- Gives a key a value only if it has none yet. -/
def putNew (m : OrderedMap κ ν) (key : κ) (value : ν) : OrderedMap κ ν :=
  if has m key then m else put m key value

/-! ## What `put` does -/

@[simp] theorem find_nil (key : κ) : find ([] : OrderedMap κ ν) key = none := rfl

/-- After a `put` the key has the new value and every other key the value it had. -/
theorem find_put (m : OrderedMap κ ν) (key other : κ) (value : ν) :
    find (put m key value) other = if key = other then some value else find m other := by
  induction m with
  | nil => simp [put, find]
  | cons e rest ih =>
    obtain ⟨k, v⟩ := e
    by_cases hk : k = key
    · subst hk
      by_cases ho : k = other <;> simp [put, find, ho]
    · by_cases ho : k = other
      · subst ho
        simp [put, find, hk, Ne.symm hk]
      · simp [put, find, hk, ho, ih]

/-- A `put` keeps the keys if it has the key, and else adds the key at the end. -/
theorem keys_put (m : OrderedMap κ ν) (key : κ) (value : ν) :
    keys (put m key value) = if key ∈ keys m then keys m else keys m ++ [key] := by
  induction m with
  | nil => simp [put, keys]
  | cons e rest ih =>
    obtain ⟨k, v⟩ := e
    by_cases hk : k = key
    · subst hk
      simp [put, keys]
    · have hk' : key ≠ k := Ne.symm hk
      simp only [keys] at ih
      simp only [put, keys, hk, if_false, List.map_cons, List.mem_cons, hk', false_or, ih]
      by_cases hm : key ∈ List.map Prod.fst rest <;> simp [hm]

/-- A key has a value exactly when it is among the keys. -/
theorem has_iff_mem_keys (m : OrderedMap κ ν) (key : κ) : has m key = true ↔ key ∈ keys m := by
  induction m with
  | nil => simp [has, find, keys]
  | cons e rest ih =>
    obtain ⟨k, v⟩ := e
    simp only [has, keys] at ih
    by_cases hk : k = key
    · simp [has, find, keys, hk]
    · simp [has, find, keys, hk, Ne.symm hk, ih]

end OrderedMap

end ApiGraph
