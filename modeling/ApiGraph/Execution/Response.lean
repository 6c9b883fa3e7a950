import ApiGraph.Error
import ApiGraph.Execution.Refusal

/-!
# Responses

A response has the data that could be completed and the errors that were met, in the order in which
they were met.  The failure of a resolver has no place; a fault of completion, which is the
engine's own, has the place of the value in the response.

## What is here

* `CompletionFault`: what the engine cannot complete.
* `ResponseError`, `Response`.
* `mergeField`: what becomes of two fields of one response key.
-/

set_option autoImplicit false

namespace ApiGraph

/-! ## Errors -/

/-- What can be wrong with a value that the engine completes. -/
inductive CompletionFault where
  /-- A required value is missing. -/
  | noValue
  | notAList
  | scalar (name : String)
  | enumItem (enum : String)
  /-- A value of a union without the name of its type. -/
  | untypedUnion (union : String)
  /-- A value of an interface without the name of its type. -/
  | untypedInterface (interface : String)
  | notAMember (union object : String)
  | notAnImplementor (object interface : String)
deriving DecidableEq, Repr

/-- The text of a fault. -/
def CompletionFault.message : CompletionFault → String
  | .noValue => "internal: non-null types require a return value"
  | .notAList => "internal: expects an array"
  | .scalar name => s!"internal: invalid value for scalar \"{name}\", expected \"FieldValue::Value\""
  | .enumItem enum => s!"internal: invalid item for enum \"{enum}\""
  | .untypedUnion union =>
    s!"internal: invalid value for union \"{union}\", expected \"FieldValue::WithType\""
  | .untypedInterface interface =>
    s!"internal: invalid value for interface \"{interface}\", expected \"FieldValue::WithType\""
  | .notAMember union object =>
    s!"internal: union \"{union}\" does not contain object \"{object}\""
  | .notAnImplementor object interface =>
    s!"internal: object \"{object}\" does not implement interface \"{interface}\""

/-- An error of a response. -/
inductive ResponseError where
  /-- The request is not run. -/
  | refused (refusal : Refusal)
  /-- A resolver failed. -/
  | failed (error : FieldError)
  /-- A value cannot be completed. -/
  | incomplete (place : List PathStep) (fault : CompletionFault)
deriving DecidableEq, Repr

namespace ResponseError

/-- The text of an error. -/
def message : ResponseError → String
  | .refused refusal => refusal.message
  | .failed error => error.message
  | .incomplete _ fault => fault.message

/-- The place of an error in the response. -/
def place : ResponseError → List PathStep
  | .incomplete place _ => place
  | _ => []

end ResponseError

/-- The answer to a request. -/
structure Response where
  data : WireValue
  errors : List ResponseError := []

/-! ## Merging -/

mutual

/-- Adds a field to the fields of an object.  If the key is there already, two objects are merged,
two lists are merged where both have objects, and anything else stays as it is. -/
def mergeField (fields : List (String × WireValue)) (key : String) :
    WireValue → List (String × WireValue)
  | .object new =>
    match OrderedMap.find fields key with
    | some (.object old) => OrderedMap.put fields key (.object (mergeFields old new))
    | some _ => fields
    | none => OrderedMap.put fields key (.object new)
  | .list new =>
    match OrderedMap.find fields key with
    | some (.list old) => OrderedMap.put fields key (.list (mergeLists old new))
    | some _ => fields
    | none => OrderedMap.put fields key (.list new)
  | value => OrderedMap.putNew fields key value

/-- Adds fields to the fields of an object. -/
def mergeFields (fields : List (String × WireValue)) :
    List (String × WireValue) → List (String × WireValue)
  | [] => fields
  | (key, v) :: rest => mergeFields (mergeField fields key v) rest

/-- Merges a list into a list: objects at one position are merged, and the first list keeps its
length. -/
def mergeLists : List WireValue → List WireValue → List WireValue
  | .object old :: olds, .object new :: news =>
    .object (mergeFields old new) :: mergeLists olds news
  | old :: olds, _ :: news => old :: mergeLists olds news
  | olds, _ => olds

end

/-- The object of some fields; without fields it is null. -/
def responseObject (fields : List (String × WireValue)) : WireValue :=
  if fields.isEmpty then .null else .object (mergeFields [] fields)

end ApiGraph
