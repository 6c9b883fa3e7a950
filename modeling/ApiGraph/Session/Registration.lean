import ApiGraph.Error
import ApiGraph.Session.Registries

/-!
# Registering declarations

Each registration is a change of the registries.  Those that can be refused say so in an
`Except`, together with the registries as they are then.

## What is here

* `objectType`, `inputType`, `duplexType`, `interfaceType`, `unionType`, `registerEnum`,
  `schemaRoot`: types.
* `field`, `inputField`, `duplexField`, `rootField`: fields.
* `arg`, `inject`, `beforeHook`, `afterHook`: what belongs to a field.
-/

set_option autoImplicit false

namespace ApiGraph

/-- A registration that can be refused. -/
abbrev Registration := ExceptT RegistrationError (StateM Registries) Unit

namespace Registries

/-! ## Types -/

/-- Records a class among the implementors of an interface, once. -/
def addImplementor (r : Registries) (cls interface : ClassRef) : Registries :=
  let known := r.implementorsOf interface
  let now := if known.contains cls then known else known ++ [cls]
  { r with implementors := OrderedMap.put r.implementors interface.key now }

/-- Registers a class as an object type, and as an implementor of the interfaces it claims. -/
def objectType (r : Registries) (cls : ClassRef) (spec : ObjectSpec) : Registries :=
  let r := spec.implements.foldl (fun r interface ↦ r.addImplementor cls interface) r
  { r with objects := OrderedMap.put r.objects cls.key spec }

/-- Registers a class as an input type. -/
def inputType (r : Registries) (cls : ClassRef) (spec : InputSpec) : Registries :=
  { r with inputs := OrderedMap.put r.inputs cls.key spec }

/-- Registers a class as an object type and as an input type whose name ends in `Input`. -/
def duplexType (r : Registries) (cls : ClassRef) (spec : ObjectSpec) : Registries :=
  (r.objectType cls spec).inputType cls
    { name := some (spec.name.getD cls.name ++ "Input"), description := spec.description }

/-- Registers a class as an interface. -/
def interfaceType (r : Registries) (cls : ClassRef) (spec : InterfaceSpec) : Registries :=
  { r with interfaces := OrderedMap.put r.interfaces cls.key spec }

/-- Registers a class as a union. -/
def unionType (r : Registries) (cls : ClassRef) (spec : UnionSpec) : Registries :=
  { r with unions := OrderedMap.put r.unions cls.key spec }

/-- Registers a class as a schema root. -/
def schemaRoot (r : Registries) (cls : ClassRef) (spec : RootSpec) : Registries :=
  { r with roots := OrderedMap.put r.roots cls.key spec }

/-- Registers an enum, which can be done once. -/
def registerEnum (d : EnumDef) (spec : EnumSpec) : Registration := do
  let r ← get
  match OrderedMap.find r.enums d.key with
  | some (_, known) => throw (.duplicateEnum known.name)
  | none => set { r with enums := OrderedMap.put r.enums d.key (d, spec) }

/-! ## Fields -/

/-- Registers an output field.  A property that is registered already is refused, unless one
registration is a query and the other a mutation: then the field is exposed as both. -/
def field (cls : ClassRef) (spec : FieldSpec) : Registration := do
  let r ← get
  match r.fields.get? cls.key spec.property with
  | some known =>
    match Exposure.merge known.exposure spec.exposure with
    | some merged =>
      set { r with
        fields := r.fields.set cls.key spec.property { known with exposure := some merged } }
    | none => throw (.duplicateField cls.name spec.property)
  | none => set { r with fields := r.fields.set cls.key spec.property spec }

/-- Registers a field of an input type. -/
def inputField (r : Registries) (cls : ClassRef) (spec : InputFieldSpec) : Registries :=
  { r with inputFields := r.inputFields.set cls.key spec.property spec }

/-- Registers a field on both sides of a duplex type, nullable unless said otherwise.  The input
side is recorded first, whether or not the output side is refused. -/
def duplexField (cls : ClassRef) (spec : FieldSpec) : Registration := do
  let spec := { spec with nullable := some (spec.nullable.getD true) }
  modify fun r ↦ r.inputField cls spec.toInput
  field cls spec

/-- Registers a root field, which needs a method. -/
def rootField (cls : ClassRef) (spec : FieldSpec) (exposure : Exposure) : Registration := do
  if spec.method.isNone then
    throw (.rootFieldNotMethod cls.name spec.property)
  field cls { spec with exposure := some exposure }

/-! ## Parts of a field -/

/-- Records argument metadata for a parameter of a field. -/
def arg (r : Registries) (cls : ClassRef) (field : String) (index : Nat) (spec : ArgSpec) :
    Registries :=
  { r with args := r.args.set cls.key (field, index) spec }

/-- Lets an injector supply a parameter of a field. -/
def inject (r : Registries) (cls : ClassRef) (field : String) (index : Nat) (i : Injector) :
    Registries :=
  { r with injectors := r.injectors.set cls.key (field, index) i }

/-- Adds a hook that runs before a field. -/
def beforeHook (r : Registries) (cls : ClassRef) (field : String) (hook : Hook) : Registries :=
  { r with before := r.before.set cls.key field (r.beforeHooks cls.key field ++ [hook]) }

/-- Adds a hook that runs after a field. -/
def afterHook (r : Registries) (cls : ClassRef) (field : String) (hook : Hook) : Registries :=
  { r with after := r.after.set cls.key field (r.afterHooks cls.key field ++ [hook]) }

end Registries

end ApiGraph
