import ApiGraph.Field.Compiled
import ApiGraph.Process.Join

/-!
# Resolving a field

A field is resolved in phases: the hooks before it, the look-up of its value or method, the binding
of the method's parameters, the method, the cast of the result, the hooks after it.  A phase that
fails ends the field.

## What is here

* `HookJoin`: ways to run what hooks have left side by side.
* `joinHooks`: a phase of hooks, called in order and then joined.
* `ParamBinding.bind`: the value of one parameter.
* `FieldResolver.target`: what a source resolves a field with.
* `FieldResolver.call`: all phases.
-/

set_option autoImplicit false

namespace ApiGraph

variable {σ : Type}

/-- A process of the host that can fail. -/
abbrev Resolve (σ : Type) := ExceptT FieldError (Process σ)

/-! ## Hooks -/

/-- A way to run side by side what the hooks of a phase have left. -/
abbrev HookJoin (σ : Type) :=
  List (Process σ (Except FieldError Unit)) → Process σ (Except FieldError (List Unit))

/-- A phase of hooks: all are called in order, and what they leave is joined.  Without hooks there
is nothing to join. -/
def joinHooks (join : HookJoin σ) (call : Hook → StateM σ (Process σ (Except FieldError Unit)))
    (hooks : List Hook) : Resolve σ Unit :=
  if hooks.isEmpty then pure ()
  else do
    let called ← (hooks.mapM call : StateM σ _)
    let _ ← ExceptT.mk (join called)
    return ()

@[simp] theorem joinHooks_nil (join : HookJoin σ)
    (call : Hook → StateM σ (Process σ (Except FieldError Unit))) :
    joinHooks join call [] = pure () := rfl

/-! ## Parameters -/

/-- The value that an injector supplies for the parameter at a position. -/
def Injector.supply (host : Host σ) (data : ResolverData) (position : Nat) :
    Injector → StateM σ HostValue
  | .context => pure ((data.context.map fun c ↦ HostValue.foreign (.context c)).getD .null)
  | .source => pure data.source
  | .info => pure (.foreign (.info data.info position))
  | .host id => host.inject id data

/-- The value that the caller supplied for a parameter: under its exposed name, or else under the
parameter's own name. -/
def ParamBinding.supplied (p : ParamBinding) (data : ResolverData) : Option HostValue :=
  match p.binding with
  | .argument exposed _ =>
    (OrderedMap.find data.args exposed).or (OrderedMap.find data.args p.name)
  | _ => OrderedMap.find data.args p.name

/-- How a supplied value of a parameter is cast. -/
def ParamBinding.plan (p : ParamBinding) : CastPlan :=
  match p.binding with
  | .argument _ plan => plan
  | _ => .passthrough

/-- The value of a parameter: injected, or supplied and cast, or undefined. -/
def ParamBinding.bind (host : Host σ) (data : ResolverData) (p : ParamBinding) :
    Resolve σ HostValue :=
  match p.binding with
  | .injected injector => injector.supply host data p.position
  | _ =>
    match p.supplied data with
    | some value => ExceptT.mk (pure ((p.plan.apply p.name value).mapError .cast))
    | none => pure .undefined

/-! ## The field -/

/-- What a field is resolved with. -/
inductive Target where
  | value (value : HostValue)
  | method (id : MethodId)

namespace FieldResolver

/-- What a source resolves the field with: a method of the instance itself, else a property, else
the declared method, else undefined. -/
def target (f : FieldResolver) (source : HostValue) : Target :=
  match source.instance?.bind fun i ↦ OrderedMap.find i.methods f.property with
  | some id => .method id
  | none =>
    match source.get f.property with
    | some value => .value value
    | none =>
      match f.method with
      | some id => .method id
      | none => .value .undefined

/-- The value of a field before its cast. -/
def produce (host : Host σ) (f : FieldResolver) (data : ResolverData) : Resolve σ HostValue :=
  match f.target data.source with
  | .value value => pure value
  | .method id => do
    let args ← f.params.mapM (ParamBinding.bind host data)
    ExceptT.mk (host.method id data.source args)

/-- The data that the callables of a field see: a schema root replaces the source. -/
def dataFor (f : FieldResolver) (source : HostValue) (args : OrderedMap String HostValue)
    (context : Option RequestContext) (info : ResolveInfo) : ResolverData :=
  { source := (f.root.map Instance.value).getD source, args, context, info }

/-- Resolves the field for a source: hooks before, value, cast, hooks after. -/
def call (host : Host σ) (f : FieldResolver) (source : HostValue)
    (args : OrderedMap String HostValue) (context : Option RequestContext) (info : ResolveInfo)
    (join : HookJoin σ := Process.join) : Resolve σ HostValue := do
  let data := f.dataFor source args context info
  joinHooks join (fun hook ↦ host.before hook data) f.before
  let raw ← f.produce host data
  let value ← ExceptT.mk (pure ((f.resultCast.apply f.fieldName raw).mapError .cast))
  joinHooks join (fun hook ↦ host.after hook value data) f.after
  pure value

end FieldResolver

end ApiGraph
