import ApiGraph.Class
import ApiGraph.OrderedMap

/-!
# Registries

A registry stores, for every owner, an ordered map.  Asking about an owner that registered nothing
is no error.

## What is here

* `Registry` with `set`, `get?`, `getAll`, `has`, `isEmpty` and `update`.
* `getAll_set`: setting a key changes the map of its owner as `OrderedMap.put` does, and no other.
-/

set_option autoImplicit false

namespace ApiGraph

/-- An ordered map for every owner. -/
structure Registry (κ ν : Type) where
  owners : OrderedMap TypeKey (OrderedMap κ ν) := []

namespace Registry

variable {κ ν : Type}

/-- Every entry of an owner in the order of registration. -/
def getAll (r : Registry κ ν) (owner : TypeKey) : OrderedMap κ ν :=
  (OrderedMap.find r.owners owner).getD []

/-- Whether an owner registered nothing. -/
def isEmpty (r : Registry κ ν) (owner : TypeKey) : Bool := (r.getAll owner).isEmpty

/-- Changes the map of an owner. -/
def update (r : Registry κ ν) (owner : TypeKey) (f : OrderedMap κ ν → OrderedMap κ ν) :
    Registry κ ν :=
  ⟨OrderedMap.put r.owners owner (f (r.getAll owner))⟩

/-- An update changes the map of its owner and no other. -/
theorem getAll_update (r : Registry κ ν) (owner other : TypeKey)
    (f : OrderedMap κ ν → OrderedMap κ ν) :
    (r.update owner f).getAll other =
      if owner = other then f (r.getAll owner) else r.getAll other := by
  by_cases h : owner = other <;> simp [update, getAll, OrderedMap.find_put, h]

variable [DecidableEq κ]

/-- Gives a key of an owner a value. -/
def set (r : Registry κ ν) (owner : TypeKey) (key : κ) (value : ν) : Registry κ ν :=
  r.update owner fun m ↦ OrderedMap.put m key value

/-- The value of a key of an owner. -/
def get? (r : Registry κ ν) (owner : TypeKey) (key : κ) : Option ν :=
  OrderedMap.find (r.getAll owner) key

/-- Whether a key of an owner has a value. -/
def has (r : Registry κ ν) (owner : TypeKey) (key : κ) : Bool :=
  OrderedMap.has (r.getAll owner) key

/-- Setting a key puts it into the map of its owner and changes no other. -/
theorem getAll_set (r : Registry κ ν) (owner other : TypeKey) (key : κ) (value : ν) :
    (r.set owner key value).getAll other =
      if owner = other then OrderedMap.put (r.getAll owner) key value else r.getAll other :=
  getAll_update r owner other _

end Registry

end ApiGraph
