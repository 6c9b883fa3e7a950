import ApiGraph.Enum
import ApiGraph.Scalar

/-!
# Static signatures

A signature describes the static shape of a property, of a result or of a parameter.

## What is here

* `Literal`, `Signature`, and the two forms `Signature.orNull` and `Signature.orUndefined`.
-/

set_option autoImplicit false

namespace ApiGraph

/-- A type with a single value. -/
inductive Literal where
  | boolean (value : Bool)
  | string (text : String)
  | number (value : WireNumber)

/-- The scalar to which a literal belongs. -/
def Literal.scalar : Literal → NativeScalar
  | .boolean _ => .boolean
  | .string _ => .string
  | .number _ => .number

/-- The static type of a property, a result or a parameter. -/
inductive Signature where
  | scalar (scalar : NativeScalar)
  | literal (literal : Literal)
  | null
  | undefined
  | cls (cls : ClassRef)
  | enum (definition : EnumDef)
  | array (item : Signature)
  | union (members : List Signature)
  /-- A generic type, such as a promise, applied to parameters. -/
  | generic (wrapper : String) (params : List Signature)
  /-- An object type without properties. -/
  | object
  /-- An array type without an item type. -/
  | bareArray
  /-- A promise type without a result type. -/
  | barePromise

namespace Signature

/-- Whether a signature is the one of null or of undefined. -/
def isNullish : Signature → Bool
  | .null | .undefined => true
  | _ => false

/-- The union with null. -/
def orNull (s : Signature) : Signature := .union [s, .null]

/-- The union with undefined. -/
def orUndefined (s : Signature) : Signature := .union [s, .undefined]

/-- A promise of a result. -/
def promise (s : Signature) : Signature := .generic "Promise" [s]

end Signature

end ApiGraph
