import ApiGraph.Host
import ApiGraph.Session.Registries

/-!
# Casting values to their declared class

A plain object that stands where a class is declared becomes an instance of that class.  What is to
be cast is read off the type reference once, as a `CastPlan`.

## What is here

* `CastPlan` and `CastPlan.apply`, which leaves what is nothing (`apply_of_isNullish`).
* `castPlan`: the plan of a type reference.
-/

set_option autoImplicit false

namespace ApiGraph

/-- How a value is cast. -/
inductive CastPlan where
  /-- The value stays as it is. -/
  | passthrough
  /-- A plain object becomes an instance of the class. -/
  | toInstance (cls : ClassRef)
  /-- Every item is cast by the inner plan. -/
  | list (inner : CastPlan)

namespace CastPlan

/-- Whether a plan expects a list. -/
def isList : CastPlan → Bool
  | .list _ => true
  | _ => false

/-- Casts a value for a field.  Nullish values and values that have a class already stay as they
are; a list plan refuses what is no list, and lists among its items unless it expects them. -/
def apply (field : String) : CastPlan → HostValue → Except CastError HostValue
  | .passthrough, value => .ok value
  | .toInstance cls, value =>
    match value with
    | .object entries => .ok (.instanceOf cls entries [])
    | other => .ok other
  | .list inner, value =>
    if value.isNullish then .ok value
    else match value with
      | .list items =>
        (items.mapM fun item ↦
          if item.list?.isSome && !inner.isList then .error (.nestedList field)
          else inner.apply field item).map .list
      | other => .error (.notAList field other.kind)

/-- What is nothing is left as it is. -/
theorem apply_of_isNullish (plan : CastPlan) (field : String) {v : HostValue}
    (h : v.isNullish = true) : plan.apply field v = .ok v := by
  cases plan with
  | passthrough => rfl
  | list inner =>
    rw [apply, if_pos h]
    rintro items rfl
    cases h
  | toInstance c =>
    cases v with
    | undefined | null | scalar => rfl
    | list | object | instanceOf | foreign => cases h

end CastPlan

/-- The cast plan of a type reference: classes are cast, but unions and interfaces are not, and
neither are lists of an interface.  Deferred references are forced. -/
def castPlan {σ : Type} (host : Host σ) (r : Registries) : TypeRef → StateM σ CastPlan
  | .cls c => pure (if r.isUnion c.key || r.isInterface c.key then .passthrough else .toInstance c)
  | .array [.cls c] =>
    pure <|
      if r.isInterface c.key then .passthrough
      else if r.isUnion c.key then .list .passthrough
      else .list (.toInstance c)
  | .array [item] => CastPlan.list <$> castPlan host r item
  | .array _ => pure .passthrough
  | .thunk label target => do
    host.forced label
    if target.isThunk then pure .passthrough else castPlan host r target
  | .node _ | .scalar _ | .enum _ => pure .passthrough

end ApiGraph
