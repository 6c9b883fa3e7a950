import ApiGraph.Signature
import ApiGraph.TypeRef

/-!
# Inferring a type from a static signature

Inference never fails: where a signature says too little there is simply no type, and for three
shapes a reason that a diagnostic can name.  A union is read through its flattened members, without
those of null and undefined, which only make the type nullable.

## What is here

* `Signature.flats`: the members of a union with nested unions dissolved.
* `Inferred`, and `Signature.infer` with `inferUnion` for the members of a union.
-/

set_option autoImplicit false

namespace ApiGraph

/-! ## Flattening -/

namespace Signature

mutual

/-- The members of a signature: its own if it is a union, and else the signature alone. -/
def flat : Signature → List Signature
  | .union members => flats members
  | other => [other]

/-- The members of several signatures in order. -/
def flats : List Signature → List Signature
  | [] => []
  | s :: rest => s.flat ++ flats rest

end

mutual

/-- A flattened member is no larger than the signature. -/
theorem sizeOf_le_of_mem_flat {m : Signature} : ∀ {s : Signature}, m ∈ s.flat → sizeOf m ≤ sizeOf s
  | .union members, h => by
    have hm : m ∈ flats members := by simpa [flat] using h
    have := sizeOf_lt_of_mem_flats hm
    simp only [union.sizeOf_spec]
    omega
  | .scalar _, h | .literal _, h | .null, h | .undefined, h | .cls _, h | .enum _, h | .array _, h
  | .generic _ _, h | .object, h | .bareArray, h | .barePromise, h => by
    rw [flat, List.mem_singleton] at h
    · exact h ▸ Nat.le_refl _
    · simp

/-- A flattened member is smaller than the list of signatures. -/
theorem sizeOf_lt_of_mem_flats {m : Signature} :
    ∀ {ms : List Signature}, m ∈ flats ms → sizeOf m < sizeOf ms
  | [], h => by simp [flats] at h
  | s :: rest, h => by
    rw [flats, List.mem_append] at h
    simp only [List.cons.sizeOf_spec]
    rcases h with h | h
    · have := sizeOf_le_of_mem_flat h
      omega
    · have := sizeOf_lt_of_mem_flats h
      omega

end

end Signature

/-! ## Results -/

/-- A shape that says nothing about the type it stands for. -/
inductive Uninferable where
  | object
  | array
  | promise
deriving DecidableEq, Repr

/-- The word for a shape. -/
def Uninferable.describe : Uninferable → String
  | .object => "object"
  | .array => "array"
  | .promise => "promise"

/-- What a signature says. -/
structure Inferred where
  type : Option TypeRef := none
  nullable : Bool := false
  uninferable : Option Uninferable := none

namespace Inferred

/-- A known type that is not nullable. -/
def known (type : TypeRef) : Inferred := { type := some type }

/-- The same result, nullable if the flag is set. -/
def nullableIf (i : Inferred) (flag : Bool) : Inferred :=
  { i with nullable := i.nullable || flag }

end Inferred

/-! ## Inference -/

namespace Signature

/-- Whether two members are the literals of the two truth values. -/
def isBooleanPair : List Signature → Bool
  | [.literal (.boolean a), .literal (.boolean b)] => a != b
  | _ => false

/-- The scalar of a signature that is a scalar or a literal. -/
def scalar? : Signature → Option NativeScalar
  | .scalar s => some s
  | .literal l => some l.scalar
  | _ => none

/-- The scalar that all members share. -/
def sharedScalar? : List Signature → Option NativeScalar
  | [] => none
  | first :: rest =>
    (scalar? first).bind fun s ↦ if rest.all fun m ↦ m.scalar? == some s then some s else none

/-- The type and nullability that a signature describes. -/
def infer : Signature → Inferred
  | .scalar s => .known (.scalar s)
  | .literal l => .known (.scalar l.scalar)
  | .cls c => .known (.cls c)
  | .enum d => .known (.enum d)
  | .null | .undefined => { nullable := true }
  | .array item =>
    let inner := item.infer
    match inner.type with
    | some t => .known (.list t)
    | none => { uninferable := inner.uninferable }
  | .generic _ [inner] => inner.infer
  | .generic _ _ => {}
  | .union members =>
    let stripped := (flats members).any isNullish
    if isBooleanPair ((flats members).filter (!·.isNullish)) then
      (Inferred.known (.scalar .boolean)).nullableIf stripped
    else match _h : (flats members).filter (!·.isNullish) with
      | [] => Inferred.nullableIf {} stripped
      | [single] => single.infer.nullableIf stripped
      | several =>
        match sharedScalar? several with
        | some s => (Inferred.known (.scalar s)).nullableIf stripped
        | none => Inferred.nullableIf {} stripped
  | .object => { uninferable := some .object }
  | .bareArray => { uninferable := some .array }
  | .barePromise => { uninferable := some .promise }
termination_by s => sizeOf s
decreasing_by
  · simp only [array.sizeOf_spec]; omega
  · simp only [generic.sizeOf_spec, List.cons.sizeOf_spec]; omega
  · have hm : single ∈ flats members :=
      (List.mem_filter.1 (_h ▸ List.mem_singleton.2 rfl)).1
    have := sizeOf_lt_of_mem_flats hm
    simp only [union.sizeOf_spec]
    omega

/-- Inference for a signature that may be missing. -/
def infer? : Option Signature → Inferred
  | some s => s.infer
  | none => {}

end Signature

end ApiGraph
