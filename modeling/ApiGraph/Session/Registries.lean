import ApiGraph.Registry
import ApiGraph.Spec

/-!
# The registries of a session

Everything that the registration calls record, with the look-ups that compiling needs.  Nothing is
compiled here.

## What is here

* `Registries`.
* `Registries.isObject` and its like: in which roles a class is registered.
* `Registries.implementorsOf`: the classes that claim an interface.
-/

set_option autoImplicit false

namespace ApiGraph

/-- A parameter of a field: the field's property and the parameter's position. -/
abbrev ParamKey := String × Nat

/-- Everything registered in one session. -/
structure Registries where
  objects : OrderedMap TypeKey ObjectSpec := []
  inputs : OrderedMap TypeKey InputSpec := []
  unions : OrderedMap TypeKey UnionSpec := []
  interfaces : OrderedMap TypeKey InterfaceSpec := []
  roots : OrderedMap TypeKey RootSpec := []
  enums : OrderedMap TypeKey (EnumDef × EnumSpec) := []
  /-- For every interface the classes that were registered as its implementors. -/
  implementors : OrderedMap TypeKey (List ClassRef) := []
  fields : Registry String FieldSpec := {}
  inputFields : Registry String InputFieldSpec := {}
  args : Registry ParamKey ArgSpec := {}
  injectors : Registry ParamKey Injector := {}
  before : Registry String (List Hook) := {}
  after : Registry String (List Hook) := {}

namespace Registries

/-- Whether a class is registered as an object type. -/
def isObject (r : Registries) (key : TypeKey) : Bool := OrderedMap.has r.objects key

/-- Whether a class is registered as an input type. -/
def isInput (r : Registries) (key : TypeKey) : Bool := OrderedMap.has r.inputs key

/-- Whether a class is registered as a union. -/
def isUnion (r : Registries) (key : TypeKey) : Bool := OrderedMap.has r.unions key

/-- Whether a class is registered as an interface. -/
def isInterface (r : Registries) (key : TypeKey) : Bool := OrderedMap.has r.interfaces key

/-- Whether a class is registered as a schema root. -/
def isRoot (r : Registries) (key : TypeKey) : Bool := OrderedMap.has r.roots key

/-- The registered implementors of an interface, in order of registration. -/
def implementorsOf (r : Registries) (interface : ClassRef) : List ClassRef :=
  (OrderedMap.find r.implementors interface.key).getD []

/-- The hooks that run before a field of a class. -/
def beforeHooks (r : Registries) (owner : TypeKey) (property : String) : List Hook :=
  (r.before.get? owner property).getD []

/-- The hooks that run after a field of a class. -/
def afterHooks (r : Registries) (owner : TypeKey) (property : String) : List Hook :=
  (r.after.get? owner property).getD []

end Registries

end ApiGraph
