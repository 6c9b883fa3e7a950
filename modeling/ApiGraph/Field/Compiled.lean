import ApiGraph.Cast
import ApiGraph.Graph.Type

/-!
# Compiled fields

## What is here

* `ParamBinding`: where a positional parameter gets its value from.
* `FieldResolver`: all that is needed to resolve a field.
* `CompiledArg`, `CompiledField`, `CompiledInputField` and the maps that hold them.
-/

set_option autoImplicit false

namespace ApiGraph

/-- The source of a parameter's value. -/
inductive Binding where
  /-- An injector supplies the value. -/
  | injected (injector : Injector)
  /-- The caller supplies the value under an exposed name, and it is cast. -/
  | argument (exposed : String) (plan : CastPlan)
  /-- The parameter is hidden from callers. -/
  | unbound

/-- A positional parameter of a method. -/
structure ParamBinding where
  /-- The name in the method's own list of parameters. -/
  name : String
  /-- The place in this list. -/
  position : Nat
  binding : Binding

/-- The resolver of one field. -/
structure FieldResolver where
  /-- The class that declares the field. -/
  owner : ClassRef
  property : String
  fieldName : String
  /-- The instance that replaces the source, for fields of a schema root. -/
  root : Option Instance
  method : Option MethodId
  params : List ParamBinding
  before : List Hook
  after : List Hook
  resultCast : CastPlan

/-- A compiled argument. -/
structure CompiledArg where
  name : String
  type : GraphType
  description : Option String
  default : Option WireValue

/-- A compiled output field. -/
structure CompiledField where
  name : String
  property : String
  type : GraphType
  args : OrderedMap String CompiledArg
  resolver : FieldResolver
  description : Option String
  deprecation : Option String

/-- A compiled input field. -/
structure CompiledInputField where
  name : String
  property : String
  type : GraphType
  description : Option String
  default : Option WireValue
  deprecation : Option String

/-- Output fields by exposed name. -/
abbrev FieldMap := OrderedMap String CompiledField

/-- Input fields by exposed name. -/
abbrev InputMap := OrderedMap String CompiledInputField

end ApiGraph
