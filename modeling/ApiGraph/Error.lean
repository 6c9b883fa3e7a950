import ApiGraph.Inference

/-!
# What can go wrong

Errors are causes; the wording of each is in its `message`, and its `code` is for machines.

## What is here

* `RegistrationError`, `InferenceError`, `ResolveError`, `ArgumentError`, `TypeError`,
  `UnionError`, `EngineFault`, `AssemblyError`: by the stage that raises them.
* `CompileError`: any of these, or the loss of the session.
* `CastError` and `FieldError`: what can go wrong while a field is resolved.
-/

set_option autoImplicit false

namespace ApiGraph

/-! ## Compiling -/

/-- Errors of registering. -/
inductive RegistrationError where
  /-- The field is registered already, and not as the other operation. -/
  | duplicateField (cls field : String)
  /-- The enum is registered already. -/
  | duplicateEnum (name : String)
  /-- A root field without a method. -/
  | rootFieldNotMethod (cls field : String)
deriving DecidableEq, Repr

/-- The text of a registration error. -/
def RegistrationError.message : RegistrationError → String
  | .duplicateField cls field => s!"Field {cls}.{field} is already registered"
  | .duplicateEnum name => s!"Enum {name} is already registered"
  | .rootFieldNotMethod cls field =>
    s!"Every root schema field must be a method ({cls}.{field})"

/-- The code of a registration error. -/
def RegistrationError.code : RegistrationError → String
  | .duplicateField .. => "DuplicateField"
  | .duplicateEnum .. => "DuplicateEnum"
  | .rootFieldNotMethod .. => "RootFieldNotMethod"

/-- A field type that is neither given nor inferred. -/
inductive InferenceError where
  /-- The signature is a shape that says nothing. -/
  | uninferable (cls field : String) (shape : Uninferable)
  /-- There is no signature, or a union of unrelated types. -/
  | undetermined (cls field : String)
deriving DecidableEq, Repr

/-- The text of an inference error. -/
def InferenceError.message : InferenceError → String
  | .uninferable cls field shape =>
    s!"{cls}.{field}: the " ++ shape.describe ++
      " type cannot be inferred, provide an explicit type for this field"
  | .undetermined cls field =>
    s!"{cls}.{field}: could not determine the type, provide an explicit type for this field"

/-- The code of an inference error. -/
def InferenceError.code : InferenceError → String
  | .uninferable .. => "Uninferable"
  | .undetermined .. => "Undetermined"

/-- Errors of resolving a type reference. -/
inductive ResolveError where
  | unresolvable (reference : String)
  | listArity (count : Nat)
  | nestedThunk
  | unregisteredEnum (reference : String)
  /-- The failure of a field's type reference. -/
  | inField (cls field : String) (source : ResolveError)
  | notOutputType (cls field type : String)
deriving DecidableEq, Repr

/-- The text of a resolve error. -/
def ResolveError.message : ResolveError → String
  | .unresolvable reference =>
    "Cannot resolve type \x60" ++ reference ++
      "\x60: it is neither a registered type nor a thunk returning one"
  | .listArity count =>
    "List types must declare exactly one item type, got " ++ toString count
  | .nestedThunk =>
    "A type thunk returned another thunk; a thunk must return a concrete type reference. " ++
      "If the referenced type is not declared yet, reference it through a single thunk"
  | .unregisteredEnum reference => s!"Enum {reference} is used as a type but was never registered"
  | .inField cls field source => s!"{cls}.{field}: " ++ source.message
  | .notOutputType cls field type =>
    s!"{cls}.{field} resolves to {type}, which is not an output type"

/-- The code of a resolve error. -/
def ResolveError.code : ResolveError → String
  | .unresolvable .. => "Unresolvable"
  | .listArity .. => "ListArity"
  | .nestedThunk => "NestedThunk"
  | .unregisteredEnum .. => "UnregisteredEnum"
  | .inField _ _ source => "InField." ++ source.code
  | .notOutputType .. => "NotOutputType"

/-- Why an argument has no type. -/
inductive ArgumentFault where
  /-- The signature is a shape that says nothing. -/
  | uninferable (shape : Uninferable)
  /-- There is neither a type nor a signature that says one. -/
  | undetermined
  /-- The type does not resolve, for the reason that the text gives. -/
  | unresolved (text : String)
deriving DecidableEq, Repr

/-- The text of a fault. -/
def ArgumentFault.message : ArgumentFault → String
  | .uninferable shape =>
    "the " ++ shape.describe ++ " type cannot be inferred, provide an explicit type"
  | .undetermined => "no explicit type and no inferable signature"
  | .unresolved text => text

/-- Errors of compiling the arguments of a field. -/
inductive ArgumentError where
  | unresolvable (cls field : String) (index : Nat) (reason : ArgumentFault)
  | notInputType (cls field : String) (index : Nat) (type : String)
  /-- The parameter is registered both as injected and as an argument. -/
  | injectedArgument (cls field : String) (index : Nat)
deriving DecidableEq, Repr

/-- The text of an argument error. -/
def ArgumentError.message : ArgumentError → String
  | .unresolvable cls field index reason =>
    s!"{cls}.{field}: cannot resolve the type of argument #{index}: " ++ reason.message
  | .notInputType cls field index type =>
    s!"{cls}.{field}: argument #{index} resolves to {type}, which is not an input type"
  | .injectedArgument cls field index =>
    s!"{cls}.{field}: argument #{index} is injected and cannot also be a caller argument"

/-- The code of an argument error. -/
def ArgumentError.code : ArgumentError → String
  | .unresolvable .. => "Unresolvable"
  | .notInputType .. => "NotInputType"
  | .injectedArgument .. => "InjectedArgument"

/-- Errors of compiling objects, inputs and interfaces. -/
inductive TypeError where
  | unregistered (cls : String)
  | unregisteredMixin (cls mixin : String)
  | unregisteredInterface (cls interface : String)
  | rootFieldOnNonRoot (cls field : String)
  | emptyInputType (cls : String)
  | nonInputField (cls field type : String)
deriving DecidableEq, Repr

/-- The text of a type error. -/
def TypeError.message : TypeError → String
  | .unregistered cls => s!"{cls} is not registered as an object type"
  | .unregisteredMixin cls mixin => s!"{cls}: mixin {mixin} is not registered as an object type"
  | .unregisteredInterface cls interface =>
    s!"{cls}: interface {interface} is not registered as an interface type"
  | .rootFieldOnNonRoot cls field =>
    s!"{cls}.{field}: root fields can only be declared on a schema root"
  | .emptyInputType cls => s!"Input type {cls} has no fields"
  | .nonInputField cls field type =>
    s!"{cls}.{field} resolves to {type}, which is not an input type"

/-- The code of a type error. -/
def TypeError.code : TypeError → String
  | .unregistered .. => "Unregistered"
  | .unregisteredMixin .. => "UnregisteredMixin"
  | .unregisteredInterface .. => "UnregisteredInterface"
  | .rootFieldOnNonRoot .. => "RootFieldOnNonRoot"
  | .emptyInputType .. => "EmptyInputType"
  | .nonInputField .. => "NonInputField"

/-- Errors of compiling unions. -/
inductive UnionError where
  | nonObjectMember (union member : String)
deriving DecidableEq, Repr

/-- The text of a union error. -/
def UnionError.message : UnionError → String
  | .nonObjectMember union member => s!"Union {union}: member {member} is not an object type"

/-- The code of a union error. -/
def UnionError.code : UnionError → String
  | .nonObjectMember .. => "NonObjectMember"

/-- What the engine refuses in a lowered schema. -/
inductive EngineFault where
  /-- The engine has a type of the name already. -/
  | nameTaken (type : String)
  | noFields (object : String)
  | reservedField (owner field : String)
  | reservedArgument (owner field argument : String)
  | missingField (object field interface : String)
  | missingArgument (object field argument interface : String)
  | argumentNotCovered (interface field argument object : String)
  | fieldNotCovered (object field interface : String)
  | selfReference (input : String)
deriving DecidableEq, Repr

/-- The text of a fault. -/
def EngineFault.message : EngineFault → String
  | .nameTaken type => s!"Type \"{type}\" already exists"
  | .noFields object => s!"Object \"{object}\" must define one or more fields"
  | .reservedField owner field =>
    s!"Field \"{owner}.{field}\" must not have a name which begins with the characters " ++
      "\"__\" (two underscores)"
  | .reservedArgument owner field argument =>
    s!"Argument \"{owner}.{field}.{argument}\" must not have a name which begins with the " ++
      "characters \"__\" (two underscores)"
  | .missingField object field interface =>
    s!"Object \"{object}\" requires field \"{field}\" defined by interface \"{interface}\""
  | .missingArgument object field argument interface =>
    s!"Field \"{object}.{field}\" requires argument \"{argument}\" defined by interface " ++
      s!"\"{interface}.{field}\""
  | .argumentNotCovered interface field argument object =>
    s!"Argument \"{interface}.{field}.{argument}\" is not sub-type of " ++
      s!"\"{object}.{field}.{argument}\""
  | .fieldNotCovered object field interface =>
    s!"Field \"{object}.{field}\" is not sub-type of \"{interface}.{field}\""
  | .selfReference input =>
    s!"\"{input}\" references itself either directly or through referenced Input Objects, at " ++
      "least one of the fields in the chain of references must be either a nullable or a List type."

/-- Errors of assembling a schema. -/
inductive AssemblyError where
  | notSchemaRoot (cls : String)
  | noQueryFields
  | duplicateRootField (field first second : String)
  | duplicateTypeName (name : String)
  /-- The graph has more types than are registered. -/
  | unboundedGraph
  /-- The engine refuses the lowered schema. -/
  | engine (reason : String)
deriving DecidableEq, Repr

/-- The text of an assembly error. -/
def AssemblyError.message : AssemblyError → String
  | .notSchemaRoot cls => s!"{cls} is not registered as a schema root"
  | .noQueryFields => "The schema must expose at least one query field"
  | .duplicateRootField field first second =>
    "Root field \x60" ++ field ++ s!"\x60 is declared by both {first} and {second}"
  | .duplicateTypeName name =>
    "Type name \x60" ++ name ++ "\x60 is used by two different types"
  | .unboundedGraph => "The type graph has more types than are registered"
  | .engine reason => "Failed to build executable schema: " ++ reason

/-- The code of an assembly error. -/
def AssemblyError.code : AssemblyError → String
  | .notSchemaRoot .. => "NotSchemaRoot"
  | .noQueryFields => "NoQueryFields"
  | .duplicateRootField .. => "DuplicateRootField"
  | .duplicateTypeName .. => "DuplicateTypeName"
  | .unboundedGraph => "UnboundedGraph"
  | .engine _ => "Engine"

/-- Any error of compiling. -/
inductive CompileError where
  | registration (error : RegistrationError)
  | inference (error : InferenceError)
  | resolve (error : ResolveError)
  | argument (error : ArgumentError)
  | assembly (error : AssemblyError)
  | type (error : TypeError)
  | union (error : UnionError)
  /-- A node is asked for its fields after its session is gone. -/
  | sessionDropped
deriving DecidableEq, Repr

/-- The text of a compile error. -/
def CompileError.message : CompileError → String
  | .registration error => error.message
  | .inference error => error.message
  | .resolve error => error.message
  | .argument error => error.message
  | .assembly error => error.message
  | .type error => error.message
  | .union error => error.message
  | .sessionDropped =>
    "The compilation session was dropped before its types were fully compiled"

/-- The code of a compile error: its stage and the code within the stage. -/
def CompileError.code : CompileError → String
  | .registration error => "Registration." ++ error.code
  | .inference error => "Inference." ++ error.code
  | .resolve error => "Resolve." ++ error.code
  | .argument error => "Argument." ++ error.code
  | .assembly error => "Assembly." ++ error.code
  | .type error => "ObjectType." ++ error.code
  | .union error => "Union." ++ error.code
  | .sessionDropped => "SessionDropped"

/-! ## Resolving -/

/-- Errors of casting a value. -/
inductive CastError where
  | notAList (field found : String)
  | nestedList (field : String)
deriving DecidableEq, Repr

/-- The text of a cast error. -/
def CastError.message : CastError → String
  | .notAList field found => s!"{field}: expected a list, got {found}"
  | .nestedList field => s!"{field}: nested lists cannot be cast"

/-- The code of a cast error. -/
def CastError.code : CastError → String
  | .notAList .. => "NotAList"
  | .nestedList .. => "NestedList"

/-- Errors of resolving a field. -/
inductive FieldError where
  | cast (error : CastError)
  /-- A hook or a method failed. -/
  | failed (text : String)
  | discrimination (type : String)
  | invalidEnumValue (enum value : String)
  | compile (error : CompileError)
  /-- A default contains itself, so that its conversion has no end. -/
  | endlessDefault
deriving DecidableEq, Repr

/-- The text of a field error. -/
def FieldError.message : FieldError → String
  | .cast error => error.message
  | .failed text => text
  | .discrimination type => s!"Could not determine the concrete type of a {type} value"
  | .invalidEnumValue enum value => s!"{value} is not a value of enum {enum}"
  | .compile error => error.message
  | .endlessDefault => "A default contains itself"

/-- The code of a field error. -/
def FieldError.code : FieldError → String
  | .cast error => "Cast." ++ error.code
  | .failed _ => "Failed"
  | .discrimination _ => "Discrimination"
  | .invalidEnumValue .. => "InvalidEnumValue"
  | .compile error => "Compile." ++ error.code
  | .endlessDefault => "EndlessDefault"

end ApiGraph
