import ApiGraph.Compile.Reference

/-!
# Compiling fields and their arguments

## What is here

* `FieldSpec.collect`: the declarations that a type sees through a walk of classes.
* `compileArg`, `compileArgs`: the parameters of a field.
* `compileField`, `compileInputField`: a single field.
-/

set_option autoImplicit false

namespace ApiGraph

variable {σ : Type}

/-! ## Which declarations count -/

/-- The declarations of a walk of classes by exposed name, later ones replacing earlier ones, each
with the class that declares it.  Root fields are passed over on a schema root and refused on any
other type. -/
def collectFields (r : Registries) (cls : ClassRef) (walk : List ClassRef) :
    Except CompileError (OrderedMap String (ClassRef × FieldSpec)) :=
  let declared := walk.flatMap fun owner ↦
    (r.fields.getAll owner.key).map fun (_, spec) ↦ (owner, spec)
  declared.foldlM
    (fun found (owner, spec) ↦
      if spec.exposure.isSome then
        if r.isRoot cls.key then .ok found
        else .error (.type (.rootFieldOnNonRoot cls.name spec.property))
      else .ok (OrderedMap.put found spec.exposedName (owner, spec)))
    []

/-- The input declarations of a lineage by exposed name, later ones replacing earlier ones. -/
def collectInputFields (r : Registries) (walk : List ClassRef) :
    OrderedMap String InputFieldSpec :=
  OrderedMap.ofEntries <| walk.flatMap fun owner ↦
    (r.inputFields.getAll owner.key).map fun (_, spec) ↦ (spec.exposedName, spec)

/-! ## Errors of a field -/

/-- The error of a field that has neither a type nor a signature that says one. -/
def inferenceError (cls : ClassRef) (property : String) : Option Uninferable → CompileError
  | some shape => .inference (.uninferable cls.name property shape)
  | none => .inference (.undetermined cls.name property)

/-- A failure of a type reference, ascribed to the field that has it. -/
def inField (cls : ClassRef) (property : String) : CompileError → CompileError
  | .resolve (.inField c f source) => .resolve (.inField c f source)
  | .resolve source => .resolve (.inField cls.name property source)
  | other => other

/-! ## Arguments -/

/-- The type of a caller's argument, from its metadata and the parameter's signature. -/
def argumentType (owner : ClassRef) (property : String) (index : Nat) (arg : ArgSpec)
    (inferred : Inferred) : Except CompileError TypeRef :=
  match arg.type.or inferred.type with
  | some type => .ok type
  | none =>
    let reason := match inferred.uninferable with
      | some shape => ArgumentFault.uninferable shape
      | none => .undetermined
    .error (.argument (.unresolvable owner.name property index reason))

/-- Compiles an argument that callers supply. -/
def compileCallerArg (host : Host σ) (s : SessionId) (owner : ClassRef) (property : String)
    (index : Nat) (param : Param) (arg : ArgSpec) : Compile σ (CompiledArg × ParamBinding) := do
  let inferred := Signature.infer? param.signature
  let reference ← ExceptT.mk (pure (argumentType owner property index arg inferred))
  let options : ResolveOptions :=
    { argument := true, nullable := arg.nullable || inferred.nullable }
  let type ← tryCatch (resolveType host s reference options) fun e ↦
    throw (.argument (.unresolvable owner.name property index (.unresolved e.message)))
  if type.node.isInput then
    let name := arg.name.getD param.name
    let plan ← Compile.ofHost (castPlan host ((← get).registries s) reference)
    return ({ name, type, description := arg.description, default := arg.default },
      { name := param.name, position := index, binding := .argument name plan })
  else throw (.argument (.notInputType owner.name property index type.display))

/-- Compiles one parameter: to an argument and its binding, or to a binding only if the parameter is
injected or hidden. -/
def compileParam (host : Host σ) (s : SessionId) (owner : ClassRef) (spec : FieldSpec)
    (index : Nat) (param : Param) : Compile σ (Option CompiledArg × ParamBinding) := do
  let r := (← get).registries s
  let key := (spec.property, index)
  match r.args.get? owner.key key, r.injectors.get? owner.key key with
  | some _, some _ => throw (.argument (.injectedArgument owner.name spec.property index))
  | none, some injector =>
    return (none, { name := param.name, position := index, binding := .injected injector })
  | arg, none =>
    if arg.isNone && spec.onlyDeclaredArgs then
      return (none, { name := param.name, position := index, binding := .unbound })
    else
      let (compiled, binding) ←
        compileCallerArg host s owner spec.property index param (arg.getD {})
      return (some compiled, binding)

/-- Compiles parameters from a position on. -/
def compileParams (host : Host σ) (s : SessionId) (owner : ClassRef) (spec : FieldSpec) :
    Nat → List Param → Compile σ (List (Option CompiledArg × ParamBinding))
  | _, [] => return []
  | index, param :: rest => do
    let one ← compileParam host s owner spec index param
    let others ← compileParams host s owner spec (index + 1) rest
    return one :: others

/-- Compiles the parameters of a field: the arguments by name and all bindings in order. -/
def compileArgs (host : Host σ) (s : SessionId) (owner : ClassRef) (spec : FieldSpec) :
    Compile σ (OrderedMap String CompiledArg × List ParamBinding) := do
  let all ← compileParams host s owner spec 0 spec.params
  let args := all.filterMap Prod.fst
  return (OrderedMap.ofEntries (args.map fun a ↦ (a.name, a)), all.map Prod.snd)

/-! ## Fields -/

/-- Compiles an output field that a class declares.  A root field gets the instance that replaces
its source. -/
def compileField (host : Host σ) (s : SessionId) (owner : ClassRef) (spec : FieldSpec)
    (root : Option Instance) : Compile σ CompiledField := do
  let inferred := Signature.infer? spec.returns
  let options : ResolveOptions :=
    { nullable := spec.nullable.getD inferred.nullable, itemNullable := spec.itemNullable }
  match spec.type.or inferred.type with
  | none => throw (inferenceError owner spec.property inferred.uninferable)
  | some reference =>
    let type ← tryCatch (resolveType host s reference options) fun e ↦
      throw (inField owner spec.property e)
    if type.node.isOutput then
      let (args, params) ← compileArgs host s owner spec
      let r := (← get).registries s
      let resultCast ← match spec.type with
        | some explicit => Compile.ofHost (castPlan host r explicit)
        | none => pure .passthrough
      return {
        name := spec.exposedName
        property := spec.property
        type
        args
        resolver := {
          owner
          property := spec.property
          fieldName := spec.exposedName
          root
          method := spec.method
          params
          before := r.beforeHooks owner.key spec.property
          after := r.afterHooks owner.key spec.property
          resultCast }
        description := spec.description
        deprecation := spec.deprecation }
    else if inferred.uninferable.isSome then
      throw (inferenceError owner spec.property inferred.uninferable)
    else throw (.resolve (.notOutputType owner.name spec.property type.display))

/-- Compiles a field of the input type of a class. -/
def compileInputField (host : Host σ) (s : SessionId) (cls : ClassRef) (spec : InputFieldSpec) :
    Compile σ CompiledInputField := do
  let inferred := Signature.infer? spec.signature
  let options : ResolveOptions :=
    { argument := true
      nullable := spec.nullable.getD inferred.nullable
      itemNullable := spec.itemNullable }
  match spec.type.or inferred.type with
  | none => throw (inferenceError cls spec.property inferred.uninferable)
  | some reference =>
    let type ← tryCatch (resolveType host s reference options) fun e ↦
      throw (inField cls spec.property e)
    if type.node.isInput then
      return {
        name := spec.exposedName
        property := spec.property
        type
        description := spec.description
        default := spec.default
        deprecation := spec.deprecation }
    else throw (.type (.nonInputField cls.name spec.property type.display))

end ApiGraph
