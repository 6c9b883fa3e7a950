import ApiGraph.HostValue
import ApiGraph.Proofs.OrderedMap

/-!
# Values of the wire

An object of the wire is a list of entries here, so that it can be written down with a key in it
twice.  No value that is read is like that, and of those that are not equality is what one expects.
On the side of the program a value of the wire takes another form, and gets its own one back.

## What is here

* `WireValue.keyed`: no object has a key twice.
* `WireValue.same_self`: a value is equal to itself.
* `HostValue.toWire_ofWire`: the way to the program and back.
* `HostValue.isPlain`: the values that come from the wire, `HostValue.wire_roundtrips`.
-/

set_option autoImplicit false

namespace ApiGraph

/-! ## Equality -/

theorem WireNumber.same_self (n : WireNumber) : n.same n = true := by
  cases n <;> simp [WireNumber.same, Binary64.same]

namespace WireValue

mutual

/-- Whether no object in a value, at any depth, has a key twice. -/
def keyed : WireValue → Bool
  | .list items => keyedItems items
  | .object entries => decide (OrderedMap.keys entries).Nodup && keyedEntries entries
  | _ => true

/-- Whether no object in the items of a list has a key twice. -/
def keyedItems : List WireValue → Bool
  | [] => true
  | v :: rest => keyed v && keyedItems rest

/-- Whether no object in the values of some entries has a key twice. -/
def keyedEntries : List (String × WireValue) → Bool
  | [] => true
  | (_, v) :: rest => keyed v && keyedEntries rest

end

mutual

/-- A value is equal to itself. -/
theorem same_self : ∀ v : WireValue, v.keyed = true → v.same v = true
  | .null, _ => rfl
  | .boolean b, _ | .string b, _ | .enum b, _ | .binary b, _ => beq_self_eq_true b
  | .number n, _ => n.same_self
  | .list items, h => sameItems_self items h
  | .object entries, h => by
    rw [keyed, Bool.and_eq_true, decide_eq_true_eq] at h
    rw [same, beq_self_eq_true, Bool.true_and]
    refine sameEntries_of_find entries h.2 fun e he ↦ ?_
    exact (OrderedMap.find_eq_some_iff h.1).2 he

theorem sameItems_self : ∀ items : List WireValue, keyedItems items = true →
    sameItems items items = true
  | [], _ => rfl
  | v :: rest, h => by
    rw [keyedItems, Bool.and_eq_true] at h
    rw [sameItems, same_self v h.1, sameItems_self rest h.2]
    rfl

theorem sameEntries_of_find {all : List (String × WireValue)} :
    ∀ entries : List (String × WireValue), keyedEntries entries = true →
      (∀ e ∈ entries, OrderedMap.find all e.1 = some e.2) → sameEntries entries all = true
  | [], _, _ => rfl
  | (key, v) :: rest, h, hfind => by
    rw [keyedEntries, Bool.and_eq_true] at h
    rw [sameEntries, hfind (key, v) List.mem_cons_self]
    simp only [same_self v h.1, Bool.true_and]
    exact sameEntries_of_find rest h.2 fun e he ↦ hfind e (List.mem_cons_of_mem _ he)

end

/-- Whether a value is neither null nor a list nor an object. -/
def isAtom : WireValue → Bool
  | .null | .list _ | .object _ => false
  | .boolean _ | .number _ | .string _ | .enum _ | .binary _ => true

end WireValue

/-! ## To the program and back -/

namespace HostValue

mutual

/-- A value of the wire survives the way to the program and back, with all its keys in order. -/
theorem toWire_ofWire : ∀ v : WireValue, (ofWire v).toWire = v
  | .null | .boolean _ | .number _ | .string _ | .enum _ | .binary _ => rfl
  | .list items => congrArg WireValue.list (itemsToWire_itemsOfWire items)
  | .object entries => congrArg WireValue.object (entriesToWire_entriesOfWire entries)

theorem itemsToWire_itemsOfWire : ∀ items : List WireValue,
    itemsToWire (itemsOfWire items) = items
  | [] => rfl
  | v :: rest => congrArg₂ List.cons (toWire_ofWire v) (itemsToWire_itemsOfWire rest)

theorem entriesToWire_entriesOfWire : ∀ entries : List (String × WireValue),
    entriesToWire (entriesOfWire entries) = entries
  | [] => rfl
  | (key, v) :: rest =>
    congrArg₂ List.cons (congrArg (Prod.mk key) (toWire_ofWire v))
      (entriesToWire_entriesOfWire rest)

end

/-- Nothing on the wire but null is nothing to the program. -/
theorem isNullish_ofWire (v : WireValue) : (ofWire v).isNullish = v.isNull := by
  cases v <;> rfl

/-! ## To the wire and back -/

mutual

/-- Whether a value is made of null, scalars, lists and plain objects alone, and none of its
scalars is a null, a list or an object of the wire. -/
def isPlain : HostValue → Bool
  | .null => true
  | .scalar value => value.isAtom
  | .list items => isPlainItems items
  | .object entries => isPlainEntries entries
  | .undefined | .instanceOf _ _ _ | .foreign _ => false

/-- Whether the items of a list are plain. -/
def isPlainItems : List HostValue → Bool
  | [] => true
  | v :: rest => isPlain v && isPlainItems rest

/-- Whether the values of entries are plain. -/
def isPlainEntries : List (String × HostValue) → Bool
  | [] => true
  | (_, v) :: rest => isPlain v && isPlainEntries rest

end

mutual

/-- What comes from the wire is plain. -/
theorem isPlain_ofWire : ∀ v : WireValue, (ofWire v).isPlain = true
  | .null | .boolean _ | .number _ | .string _ | .enum _ | .binary _ => rfl
  | .list items => isPlainItems_itemsOfWire items
  | .object entries => isPlainEntries_entriesOfWire entries

theorem isPlainItems_itemsOfWire : ∀ items : List WireValue,
    isPlainItems (itemsOfWire items) = true
  | [] => rfl
  | v :: rest => by
    rw [itemsOfWire, isPlainItems, isPlain_ofWire v, isPlainItems_itemsOfWire rest]
    rfl

theorem isPlainEntries_entriesOfWire : ∀ entries : List (String × WireValue),
    isPlainEntries (entriesOfWire entries) = true
  | [] => rfl
  | (_, v) :: rest => by
    rw [entriesOfWire, isPlainEntries, isPlain_ofWire v, isPlainEntries_entriesOfWire rest]
    rfl

end

mutual

/-- A plain value survives the way to the wire and back. -/
theorem ofWire_toWire : ∀ v : HostValue, v.isPlain = true → ofWire v.toWire = v
  | .null, _ => rfl
  | .scalar value, h => by cases value <;> first | rfl | cases h
  | .list items, h => congrArg HostValue.list (itemsOfWire_itemsToWire items h)
  | .object entries, h => congrArg HostValue.object (entriesOfWire_entriesToWire entries h)

theorem itemsOfWire_itemsToWire : ∀ items : List HostValue, isPlainItems items = true →
    itemsOfWire (itemsToWire items) = items
  | [], _ => rfl
  | v :: rest, h => by
    rw [isPlainItems, Bool.and_eq_true] at h
    exact congrArg₂ List.cons (ofWire_toWire v h.1) (itemsOfWire_itemsToWire rest h.2)

theorem entriesOfWire_entriesToWire : ∀ entries : List (String × HostValue),
    isPlainEntries entries = true → entriesOfWire (entriesToWire entries) = entries
  | [], _ => rfl
  | (key, v) :: rest, h => by
    rw [isPlainEntries, Bool.and_eq_true] at h
    exact congrArg₂ List.cons (congrArg (Prod.mk key) (ofWire_toWire v h.1))
      (entriesOfWire_entriesToWire rest h.2)

end

/-- **Nothing is lost between the wire and the program.**  A value of the wire that becomes one of
the program and goes back is the same as before, to the order of the keys of its objects and to
the form of its numbers.  On the side of the program it is plain: no null, list or object hides in
a scalar.  The plain values are exactly those that survive the other way round; of any other value
what survives is what it is on the wire. -/
theorem wire_roundtrips :
    (∀ v : WireValue, (ofWire v).toWire = v ∧ (ofWire v).isPlain = true) ∧
      (∀ w : HostValue, ofWire w.toWire = w ↔ w.isPlain = true) ∧
      ∀ w : HostValue, (ofWire w.toWire).toWire = w.toWire := by
  refine ⟨fun v ↦ ⟨toWire_ofWire v, isPlain_ofWire v⟩, fun w ↦ ⟨fun h ↦ ?_, ofWire_toWire w⟩,
    fun w ↦ toWire_ofWire w.toWire⟩
  rw [← h]
  exact isPlain_ofWire w.toWire

end HostValue
end ApiGraph
