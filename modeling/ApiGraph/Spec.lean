import ApiGraph.Callable
import ApiGraph.Signature
import ApiGraph.TypeRef

/-!
# What a registration says

## What is here

* `Exposure`: under which operations a root field is exposed, and `Exposure.merge`.
* `FieldSpec`, `ArgSpec`, `InputFieldSpec`: fields, arguments and input fields as registered.
* `ObjectSpec`, `InputSpec`, `UnionSpec`, `InterfaceSpec`, `EnumSpec`, `RootSpec`: the options of a
  type in each role.
-/

set_option autoImplicit false

namespace ApiGraph

/-! ## Fields -/

/-- The operations under which a root field is exposed. -/
inductive Exposure where
  | query
  | mutation
  | both
deriving DecidableEq, Repr

namespace Exposure

/-- The exposure of a field registered twice: a query and a mutation make both, and nothing else
goes together. -/
def merge : Option Exposure → Option Exposure → Option Exposure
  | some .query, some .mutation => some .both
  | some .mutation, some .query => some .both
  | _, _ => none

/-- Whether a field is exposed under an operation. -/
def includes : Exposure → Operation → Bool
  | .query, .query | .mutation, .mutation | .both, _ => true
  | _, _ => false

end Exposure

/-- A parameter of a method. -/
structure Param where
  name : String
  signature : Option Signature := none

/-- An output field as registered. -/
structure FieldSpec where
  /-- The property of the source that the field reads. -/
  property : String
  /-- The name under which the field is exposed, if it differs from the property. -/
  name : Option String := none
  description : Option String := none
  /-- The explicit type. -/
  type : Option TypeRef := none
  /-- The explicit nullability. -/
  nullable : Option Bool := none
  itemNullable : Bool := false
  deprecation : Option String := none
  /-- The operations of a root field. -/
  exposure : Option Exposure := none
  /-- Whether only parameters with argument metadata become arguments. -/
  onlyDeclaredArgs : Bool := false
  params : List Param := []
  /-- The static type of the property or of the method's result. -/
  returns : Option Signature := none
  method : Option MethodId := none

/-- The name under which a field is exposed. -/
def FieldSpec.exposedName (f : FieldSpec) : String := f.name.getD f.property

/-- Metadata of one parameter. -/
structure ArgSpec where
  /-- The exposed name, if it differs from the parameter's. -/
  name : Option String := none
  type : Option TypeRef := none
  nullable : Bool := false
  description : Option String := none
  default : Option WireValue := none

/-- A field of an input type as registered. -/
structure InputFieldSpec where
  property : String
  name : Option String := none
  description : Option String := none
  type : Option TypeRef := none
  nullable : Option Bool := none
  itemNullable : Bool := false
  signature : Option Signature := none
  default : Option WireValue := none
  deprecation : Option String := none

/-- The name under which an input field is exposed. -/
def InputFieldSpec.exposedName (f : InputFieldSpec) : String := f.name.getD f.property

/-- The input side of a field of a duplex type. -/
def FieldSpec.toInput (f : FieldSpec) : InputFieldSpec where
  property := f.property
  name := f.name
  description := f.description
  type := f.type
  nullable := f.nullable
  itemNullable := f.itemNullable
  signature := f.returns
  deprecation := f.deprecation

/-! ## Types -/

/-- Options of an object type. -/
structure ObjectSpec where
  name : Option String := none
  description : Option String := none
  /-- Classes whose fields are merged in. -/
  mixins : List ClassRef := []
  /-- Interfaces that the type claims. -/
  implements : List ClassRef := []

/-- Options of an input type. -/
structure InputSpec where
  name : Option String := none
  description : Option String := none

/-- Options of a union. -/
structure UnionSpec where
  members : List ClassRef := []
  name : Option String := none
  description : Option String := none
  discriminator : Option DiscriminatorId := none

/-- Options of an interface. -/
structure InterfaceSpec where
  name : Option String := none
  description : Option String := none
  discriminator : Option DiscriminatorId := none

/-- Options of an enum. -/
structure EnumSpec where
  name : String
  description : Option String := none

/-- Options of a schema root. -/
structure RootSpec where
  /-- Builds the root's instance; without one it is an empty instance of the class. -/
  constructor : Option ConstructorId := none

end ApiGraph
