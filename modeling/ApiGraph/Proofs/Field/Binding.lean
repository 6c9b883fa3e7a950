import ApiGraph.Field.Resolver
import ApiGraph.Proofs.Session.Steps
import Mathlib

/-!
# The values of a method's parameters

A method takes its parameters by position, callers send arguments by exposed name.  When a field is
compiled every parameter gets a binding, in order, and when the field is resolved every binding
gives a value.  A parameter is promised nothing but its own argument.  What it gets can be more:
where nothing was sent under its exposed name, or where it has none, a look-up under its own name
follows, and that may be the exposed name of another parameter.

## What is here

* `BoundAs`: what becomes of a parameter when its field is compiled.
* `Registries.callerNames`: the names of the parameters that callers supply.
* `MadeOf`, `compileField_madeOf`: what a field is made of, its bindings and its arguments.
* `ParamBinding.promise`, `ParamBinding.stray` and `ParamBinding.bind_eq`: what a parameter is
  promised, what it gets beyond that, and that this is all.
* `ParamBinding.Owns` and `vector_eq_promise_iff`: the promise is kept for all that callers may send
  exactly if no parameter has another's exposed name.
* `compileField_binds`: all of it, for the fields that are compiled.
-/

set_option autoImplicit false

namespace ApiGraph

open OrderedMap (keys find)

variable {σ : Type} {d : Declarations} {host : Host σ}

/-! ## Bindings -/

/-- The name under which callers send a value for a parameter. -/
def ParamBinding.exposed? (p : ParamBinding) : Option String :=
  match p.binding with
  | .argument exposed _ => some exposed
  | _ => none

/-- The metadata of a parameter: what is registered for it, or else nothing in particular. -/
def FieldSpec.argSpec (r : Registries) (owner : ClassRef) (spec : FieldSpec) (index : Nat) :
    ArgSpec :=
  (r.args.get? owner.key (spec.property, index)).getD {}

/-- What becomes of a parameter when its field is compiled. -/
inductive BoundAs (host : Host σ) (r : Registries) (owner : ClassRef) (spec : FieldSpec)
    (index : Nat) (param : Param) : ParamBinding → Prop
  /-- It is injected. -/
  | injected {injector : Injector}
    (ha : r.args.get? owner.key (spec.property, index) = none)
    (hi : r.injectors.get? owner.key (spec.property, index) = some injector) :
    BoundAs host r owner spec index param
      { name := param.name, position := index, binding := .injected injector }
  /-- It is hidden from callers. -/
  | hidden
    (ha : r.args.get? owner.key (spec.property, index) = none)
    (hi : r.injectors.get? owner.key (spec.property, index) = none)
    (ho : spec.onlyDeclaredArgs = true) :
    BoundAs host r owner spec index param
      { name := param.name, position := index, binding := .unbound }
  /-- It is exposed, under the name of its metadata or else under its own. -/
  | exposed {arg : ArgSpec} {reference : TypeRef} {plan : CastPlan}
    (ha : r.args.get? owner.key (spec.property, index) = some arg ∨
      r.args.get? owner.key (spec.property, index) = none ∧ spec.onlyDeclaredArgs = false ∧
        arg = {})
    (hi : r.injectors.get? owner.key (spec.property, index) = none)
    (ht : argumentType owner spec.property index arg (Signature.infer? param.signature) =
      .ok reference)
    (hp : ∀ state, (castPlan host r reference state).1 = plan) :
    BoundAs host r owner spec index param
      { name := param.name, position := index,
        binding := .argument (arg.name.getD param.name) plan }

/-- What the parameters of a field are compiled to: to bindings, one for each, and to arguments, one
for each that is exposed, of which the last of a name is in the map. -/
structure MadeOfParams (host : Host σ) (r : Registries) (owner : ClassRef) (spec : FieldSpec)
    (args : OrderedMap String CompiledArg) (params : List ParamBinding) : Prop where
  bound : List.Forall₂ (fun x b ↦ BoundAs host r owner spec x.2 x.1 b) spec.params.zipIdx params
  args : ∃ compiled : List CompiledArg,
    compiled.map CompiledArg.name = params.filterMap ParamBinding.exposed? ∧
      args = OrderedMap.ofEntries (compiled.map fun a ↦ (a.name, a))

theorem MadeOfParams.keys_eq {r : Registries} {owner : ClassRef} {spec : FieldSpec}
    {args : OrderedMap String CompiledArg} {params : List ParamBinding}
    (h : MadeOfParams host r owner spec args params) :
    keys args = (params.filterMap ParamBinding.exposed?).eraseDups := by
  obtain ⟨compiled, hnames, rfl⟩ := h.args
  rw [OrderedMap.keys_ofEntries, List.map_map, ← hnames]
  rfl

/-- The name under which callers send a value for a parameter, unless it is injected or hidden. -/
def Registries.callerName? (r : Registries) (owner : ClassRef) (spec : FieldSpec) (index : Nat)
    (param : Param) : Option String :=
  match r.injectors.get? owner.key (spec.property, index),
    r.args.get? owner.key (spec.property, index) with
  | some _, _ => none
  | none, some arg => some (arg.name.getD param.name)
  | none, none => if spec.onlyDeclaredArgs then none else some param.name

/-- The names of the parameters of a field that are neither injected nor hidden, in order. -/
def Registries.callerNames (r : Registries) (owner : ClassRef) (spec : FieldSpec) : List String :=
  spec.params.zipIdx.filterMap fun x ↦ r.callerName? owner spec x.2 x.1

theorem BoundAs.exposed?_eq {r : Registries} {owner : ClassRef} {spec : FieldSpec} {index : Nat}
    {param : Param} {b : ParamBinding} (h : BoundAs host r owner spec index param b) :
    b.exposed? = r.callerName? owner spec index param := by
  cases h with
  | injected ha hi =>
    rw [Registries.callerName?, hi]
    rfl
  | hidden ha hi ho =>
    rw [Registries.callerName?, hi, ha]
    exact (if_pos ho).symm
  | exposed ha hi =>
    rcases ha with ha | ⟨ha, ho, rfl⟩ <;> rw [Registries.callerName?, hi, ha]
    · rfl
    · exact (if_neg (Bool.eq_false_iff.1 ho)).symm

/-- The arguments of a field are those of its parameters, by name. -/
theorem MadeOfParams.keys_eq_callerNames {r : Registries} {owner : ClassRef} {spec : FieldSpec}
    {args : OrderedMap String CompiledArg} {params : List ParamBinding}
    (h : MadeOfParams host r owner spec args params) :
    keys args = (r.callerNames owner spec).eraseDups := by
  have hnames : ∀ {l : List (Param × Nat)} {params : List ParamBinding},
      List.Forall₂ (fun x b ↦ BoundAs host r owner spec x.2 x.1 b) l params →
        params.filterMap ParamBinding.exposed? =
          l.filterMap fun x ↦ r.callerName? owner spec x.2 x.1 := by
    intro l params h
    induction h with
    | nil => rfl
    | cons hb _ ih => rw [List.filterMap_cons, List.filterMap_cons, hb.exposed?_eq, ih]
  rw [h.keys_eq, hnames h.bound, Registries.callerNames]

/-- What a field is compiled to: it has the names of the declaration, the class that declares it for
its owner, and what is registered for a field of this class. -/
structure MadeOf (host : Host σ) (r : Registries) (owner : ClassRef) (spec : FieldSpec)
    (field : CompiledField) : Prop where
  name_eq : field.name = spec.exposedName
  property_eq : field.property = spec.property
  owner_eq : field.resolver.owner = owner
  source : field.resolver.property = spec.property
  method : field.resolver.method = spec.method
  before : field.resolver.before = r.beforeHooks owner.key spec.property
  after : field.resolver.after = r.afterHooks owner.key spec.property
  params : MadeOfParams host r owner spec field.args field.resolver.params

/-- A parameter that callers supply has a reference, from its metadata or else from its signature,
which resolves to a type for arguments. -/
structure TypedAs (host : Host σ) (w : Workspace σ) (s : SessionId) (owner : ClassRef)
    (property : String) (index : Nat) (param : Param) (arg : ArgSpec) (reference : TypeRef)
    (type : GraphType) : Prop where
  reference_eq :
    argumentType owner property index arg (Signature.infer? param.signature) = .ok reference
  resolved : ((resolveType host s reference {
    argument := true
    nullable := arg.nullable || (Signature.infer? param.signature).nullable }).runIn w).1 = .ok type
  isInput : type.node.isInput = true

section Compile

variable {w₀ w w' : Workspace σ} (hw₀ : w₀.Coherent d) {s : SessionId}
  (hs : s < w₀.sessions.length) (hw : w₀.Filled d host w)
include hw₀ hs hw

theorem compileCallerArg_ok {owner : ClassRef} {property : String} {index : Nat} {param : Param}
    {arg : ArgSpec} (hparam : param.Within d) (harg : arg.Within d (w₀.Offers d))
    {r : CompiledArg × ParamBinding}
    (h : (compileCallerArg host s owner property index param arg).runIn w = (.ok r, w')) :
    ∃ reference plan, TypedAs host w₀ s owner property index param arg reference r.1.type ∧
      (∀ state, (castPlan host (w₀.registries s) reference state).1 = plan) ∧
      r.2 =
        { name := param.name, position := index,
          binding := .argument (arg.name.getD param.name) plan } ∧
      r.1.name = arg.name.getD param.name := by
  rw [compileCallerArg] at h
  dsimp only at h
  cases href : argumentType owner property index arg (Signature.infer? param.signature) with
  | error e =>
    rw [href] at h
    cases h
  | ok reference =>
    rw [href, Compile.runIn_bind_of_ok (Compile.runIn_mk_pure (.ok reference) w)] at h
    obtain ⟨type, w₂, htype, h⟩ := Compile.runIn_bind_eq_ok h
    replace htype := Compile.runIn_eq_ok_of_tryCatch htype
    have hsettles : Compile.Settles d host w₀ [] (resolveType host s reference _) _ :=
      resolveType_settles hw₀ hs (argumentType_within harg hparam href)
        { argument := true, nullable := arg.nullable ||
          (Signature.infer? param.signature).nullable }
    have hw₂ := hsettles.filled_of_run hw htype
    have hresolved := (hsettles.runIn_eq (.refl hw₀) hw).symm.trans (congrArg Prod.fst htype)
    obtain ⟨plan, hplan⟩ := castPlan_eq host (w₀.registries s) reference
    split at h
    · rename_i hinput
      rw [Compile.runIn_get_bind, hw₂.grows.registries] at h
      obtain ⟨plan', w₃, hp, h⟩ := Compile.runIn_bind_eq_ok h
      cases h
      rw [Compile.runIn_ofHost, hplan] at hp
      cases hp
      exact ⟨reference, plan, ⟨href, hresolved, hinput⟩, hplan, rfl, rfl⟩
    · cases h

theorem compileParam_ok {owner : ClassRef} {spec : FieldSpec} {index : Nat} {param : Param}
    (hparam : param.Within d) {r : Option CompiledArg × ParamBinding}
    (h : (compileParam host s owner spec index param).runIn w = (.ok r, w')) :
    BoundAs host (w₀.registries s) owner spec index param r.2 ∧
      r.1.map CompiledArg.name = r.2.exposed? ∧
      ∀ a, r.1 = some a → ∃ reference, TypedAs host w₀ s owner spec.property index param
        (spec.argSpec (w₀.registries s) owner index) reference a.type := by
  rw [compileParam, Compile.runIn_get_bind, hw.grows.registries] at h
  dsimp only at h
  split at h
  · cases h
  · rename_i ha hi
    cases h
    exact ⟨.injected ha hi, rfl, fun a hnone ↦ absurd hnone.symm (Option.some_ne_none a)⟩
  · rename_i hi
    split at h
    · rename_i hhidden
      cases h
      rw [Bool.and_eq_true, Option.isNone_iff_eq_none] at hhidden
      exact ⟨.hidden hhidden.1 hi hhidden.2, rfl,
        fun a hnone ↦ absurd hnone.symm (Option.some_ne_none a)⟩
    · rename_i hshown
      obtain ⟨⟨a, b⟩, w₁, hr, h⟩ := Compile.runIn_bind_eq_ok h
      cases h
      cases ha : (w₀.registries s).args.get? owner.key (spec.property, index) with
      | none =>
        rw [ha] at hr hshown
        have hplain : ArgSpec.Within d (w₀.Offers d) {} := by simp [ArgSpec.Within]
        obtain ⟨reference, plan, ht, hp, rfl, hname⟩ :=
          compileCallerArg_ok hw₀ hs hw hparam hplain hr
        refine ⟨.exposed (.inr ⟨ha, ?_, rfl⟩) hi ht.reference_eq hp, congrArg some hname, ?_⟩
        · simpa using hshown
        · rintro a ⟨⟩
          rw [FieldSpec.argSpec, ha]
          exact ⟨reference, ht⟩
      | some arg =>
        rw [ha] at hr
        obtain ⟨reference, plan, ht, hp, rfl, hname⟩ :=
          compileCallerArg_ok hw₀ hs hw hparam ((hw₀.registries s).args.get? ha) hr
        refine ⟨.exposed (.inl ha) hi ht.reference_eq hp, congrArg some hname, ?_⟩
        rintro a ⟨⟩
        rw [FieldSpec.argSpec, ha]
        exact ⟨reference, ht⟩

theorem compileParams_ok {owner : ClassRef} {spec : FieldSpec} {index : Nat} {params : List Param}
    (hparams : ∀ p ∈ params, p.Within d) {all : List (Option CompiledArg × ParamBinding)}
    (h : (compileParams host s owner spec index params).runIn w = (.ok all, w')) :
    List.Forall₂ (fun x r ↦ BoundAs host (w₀.registries s) owner spec x.2 x.1 r.2 ∧
      r.1.map CompiledArg.name = r.2.exposed? ∧
      ∀ a, r.1 = some a → ∃ reference, TypedAs host w₀ s owner spec.property x.2 x.1
        (spec.argSpec (w₀.registries s) owner x.2) reference a.type) (params.zipIdx index) all := by
  induction params generalizing index w all with
  | nil =>
    cases h
    exact .nil
  | cons param rest ih =>
    obtain ⟨r, w₁, hr, h⟩ := Compile.runIn_bind_eq_ok h
    obtain ⟨others, w₂, hothers, h⟩ := Compile.runIn_bind_eq_ok h
    cases h
    have hparam := hparams param List.mem_cons_self
    have hw₁ : w₀.Filled d host w₁ := by
      have hsettles : Compile.Settles d host w₀ [] _ argNodes :=
        compileParam_settles hw₀ hs owner spec index hparam
      exact hsettles.filled_of_run hw hr
    exact .cons (compileParam_ok hw₀ hs hw hparam hr)
      (ih hw₁ (fun p hp ↦ hparams p (List.mem_cons_of_mem _ hp)) hothers)

theorem compileArgs_madeOf {owner : ClassRef} {spec : FieldSpec}
    (hparams : ∀ p ∈ spec.params, p.Within d)
    {r : OrderedMap String CompiledArg × List ParamBinding}
    (h : (compileArgs host s owner spec).runIn w = (.ok r, w')) :
    MadeOfParams host (w₀.registries s) owner spec r.1 r.2 := by
  obtain ⟨all, w₁, hall, h⟩ := Compile.runIn_bind_eq_ok h
  cases h
  have hall := compileParams_ok hw₀ hs hw hparams hall
  refine ⟨List.forall₂_map_right_iff.2 (hall.imp fun _ _ ↦ And.left), all.filterMap Prod.fst,
    ?_, rfl⟩
  rw [List.map_filterMap, List.filterMap_map]
  refine List.filterMap_congr fun r hr ↦ ?_
  obtain ⟨x, -, -, hname, -⟩ := exists_left_of_forall₂ hall hr
  exact hname

/-- The plan by which the results of a field are cast: that of its declared type, if it has one. -/
def FieldSpec.resultPlan (host : Host σ) (r : Registries) (spec : FieldSpec) : StateM σ CastPlan :=
  spec.type.elim (pure .passthrough) (castPlan host r)

/-- A field that compiles: its parameters do, in a workspace that has been filled further. -/
theorem compileField_eq_ok {owner : ClassRef} {spec : FieldSpec}
    (hspec : spec.Within d (w₀.Offers d)) {root : Option Instance} {field : CompiledField}
    (h : (compileField host s owner spec root).runIn w = (.ok field, w')) :
    ∃ type args params resultCast w₁ w₂, w₀.Filled d host w₁ ∧
      (compileArgs host s owner spec).runIn w₁ = (.ok (args, params), w₂) ∧
      (∀ state, (spec.resultPlan host (w₀.registries s) state).1 = resultCast) ∧
      field = {
        name := spec.exposedName
        property := spec.property
        type
        args
        resolver := {
          owner
          property := spec.property
          fieldName := spec.exposedName
          root
          method := spec.method
          params
          before := (w₀.registries s).beforeHooks owner.key spec.property
          after := (w₀.registries s).afterHooks owner.key spec.property
          resultCast }
        description := spec.description
        deprecation := spec.deprecation } := by
  rw [compileField] at h
  dsimp only at h
  split at h
  · cases h
  rename_i reference href
  have ht := TypeRef.Within.of_or_infer hspec.type hspec.returns href
  obtain ⟨type, w₁, htype, h⟩ := Compile.runIn_bind_eq_ok h
  have hw₁ : w₀.Filled d host w₁ := by
    have hsettles : Compile.Settles d host w₀ [] _ fun t : GraphType ↦ [t.node] :=
      (resolveType_settles hw₀ hs ht
        { nullable := spec.nullable.getD (Signature.infer? spec.returns).nullable
          itemNullable := spec.itemNullable }).tryCatch_throw
        (g := inField owner spec.property) fun _ ↦ inField_ne _ _
    exact hsettles.filled_of_run hw htype
  split at h
  · obtain ⟨⟨args, params⟩, w₂, hargs, h⟩ := Compile.runIn_bind_eq_ok h
    have hw₂ : w₀.Filled d host w₂ := by
      have hsettles : Compile.Settles d host w₀ [] _ _ :=
        compileArgs_settles hw₀ hs owner hspec.params
      exact hsettles.filled_of_run hw₁ hargs
    rw [Compile.runIn_get_bind, hw₂.grows.registries] at h
    dsimp only at h
    split at h
    · rename_i explicit hexplicit
      obtain ⟨plan, hplan⟩ := castPlan_eq host (w₀.registries s) explicit
      obtain ⟨plan', w₃, hp, h⟩ := Compile.runIn_bind_eq_ok h
      cases h
      rw [Compile.runIn_ofHost, hplan] at hp
      cases hp
      refine ⟨type, args, params, plan, w₁, w₂, hw₁, hargs, fun state ↦ ?_, rfl⟩
      rw [FieldSpec.resultPlan, hexplicit]
      exact hplan state
    · rename_i hnone
      cases h
      refine ⟨type, args, params, .passthrough, w₁, _, hw₁, hargs, fun state ↦ ?_, rfl⟩
      rw [FieldSpec.resultPlan, hnone]
      rfl
  · split at h <;> cases h

/-- What a field is made of, with the instance that replaces its source and the plan by which its
results are cast. -/
theorem compileField_parts {owner : ClassRef} {spec : FieldSpec}
    (hspec : spec.Within d (w₀.Offers d)) {root : Option Instance} {field : CompiledField}
    (h : (compileField host s owner spec root).runIn w = (.ok field, w')) :
    MadeOf host (w₀.registries s) owner spec field ∧ field.resolver.root = root ∧
      ∀ state, (spec.resultPlan host (w₀.registries s) state).1 = field.resolver.resultCast := by
  obtain ⟨type, args, params, resultCast, w₁, w₂, hw₁, hargs, hplan, rfl⟩ :=
    compileField_eq_ok hw₀ hs hw hspec h
  exact ⟨⟨rfl, rfl, rfl, rfl, rfl, rfl, rfl, compileArgs_madeOf hw₀ hs hw₁ hspec.params hargs⟩,
    rfl, hplan⟩

/-- The parameters of a field that callers supply, each with its reference and its type. -/
theorem compileField_typed {owner : ClassRef} {spec : FieldSpec}
    (hspec : spec.Within d (w₀.Offers d)) {root : Option Instance} {field : CompiledField}
    (h : (compileField host s owner spec root).runIn w = (.ok field, w')) :
    List.Forall₂ (fun x b ↦ BoundAs host (w₀.registries s) owner spec x.2 x.1 b ∧
      (b.exposed?.isSome = true → ∃ reference type, TypedAs host w₀ s owner spec.property x.2 x.1
        (spec.argSpec (w₀.registries s) owner x.2) reference type))
      spec.params.zipIdx field.resolver.params := by
  obtain ⟨type, args, params, resultCast, w₁, w₂, hw₁, hargs, -, rfl⟩ :=
    compileField_eq_ok hw₀ hs hw hspec h
  obtain ⟨all, w₃, hall, hargs⟩ := Compile.runIn_bind_eq_ok hargs
  cases hargs
  refine List.forall₂_map_right_iff.2 ((compileParams_ok hw₀ hs hw₁ hspec.params hall).imp ?_)
  rintro x r ⟨hbound, hname, htyped⟩
  refine ⟨hbound, fun hexposed ↦ ?_⟩
  rw [← hname, Option.isSome_map, Option.isSome_iff_exists] at hexposed
  obtain ⟨a, ha⟩ := hexposed
  obtain ⟨reference, ht⟩ := htyped a ha
  exact ⟨reference, a.type, ht⟩

theorem compileField_madeOf {owner : ClassRef} {spec : FieldSpec}
    (hspec : spec.Within d (w₀.Offers d)) {root : Option Instance} {field : CompiledField}
    (h : (compileField host s owner spec root).runIn w = (.ok field, w')) :
    MadeOf host (w₀.registries s) owner spec field :=
  (compileField_parts hw₀ hs hw hspec h).1

/-- One binding for each parameter, in order, and the arguments are those of the exposed ones. -/
theorem compileField_ok {owner : ClassRef} {spec : FieldSpec} (hspec : spec.Within d (w₀.Offers d))
    {root : Option Instance} {field : CompiledField}
    (h : (compileField host s owner spec root).runIn w = (.ok field, w')) :
    List.Forall₂ (fun x b ↦ BoundAs host (w₀.registries s) owner spec x.2 x.1 b)
        spec.params.zipIdx field.resolver.params ∧
      ∀ name, name ∈ keys field.args ↔ ∃ p ∈ field.resolver.params, p.exposed? = some name := by
  have hparams := (compileField_madeOf hw₀ hs hw hspec h).params
  refine ⟨hparams.bound, fun name ↦ ?_⟩
  rw [hparams.keys_eq, List.mem_eraseDups, List.mem_filterMap]

end Compile

/-! ## Values -/

/-- The vector of positional values for the method of a field. -/
def FieldResolver.vector (host : Host σ) (f : FieldResolver) (data : ResolverData) :
    Resolve σ (List HostValue) :=
  f.params.mapM (ParamBinding.bind host data)

/-- A value that was sent for a parameter, cast. -/
def ParamBinding.cast (p : ParamBinding) (value : HostValue) : Resolve σ HostValue :=
  ExceptT.mk (pure ((p.plan.apply p.name value).mapError .cast))

/-- What a parameter is promised: what its injector supplies, or the value that was sent under its
exposed name, cast, or undefined. -/
def ParamBinding.promise (host : Host σ) (data : ResolverData) (p : ParamBinding) :
    Resolve σ HostValue :=
  match p.binding with
  | .injected injector => injector.supply host data p.position
  | .argument exposed _ => ((find data.args exposed).map p.cast).getD (pure .undefined)
  | .unbound => pure .undefined

/-- What a parameter gets although it was not sent under its exposed name: it was sent under the
parameter's own name, and is meant for another parameter that is exposed under it. -/
def ParamBinding.stray (p : ParamBinding) (args : OrderedMap String HostValue) :
    Option HostValue :=
  match p.binding with
  | .injected _ => none
  | .argument exposed _ => if OrderedMap.has args exposed then none else find args p.name
  | .unbound => find args p.name

/-- A parameter gets what it is promised, unless something strays to it. -/
theorem ParamBinding.bind_eq (host : Host σ) (data : ResolverData) (p : ParamBinding) :
    p.bind host data = ((p.stray data.args).map p.cast).getD (p.promise host data) := by
  obtain ⟨name, position, binding⟩ := p
  cases binding with
  | injected injector => rfl
  | argument exposed plan =>
    rcases hexposed : find data.args exposed with _ | value <;>
      simp only [bind, stray, promise, supplied, OrderedMap.has, hexposed]
    · rcases find data.args name with _ | value <;> rfl
    · rfl
  | unbound =>
    simp only [bind, stray, promise, supplied]
    rcases find data.args name with _ | value <;> rfl

/-- No argument of a list of names can stray to a parameter. -/
def ParamBinding.Owns (names : List String) (p : ParamBinding) : Prop :=
  match p.binding with
  | .injected _ => True
  | .argument exposed _ => exposed = p.name ∨ p.name ∉ names
  | .unbound => p.name ∉ names

theorem ParamBinding.Owns.stray_eq_none {names : List String} {p : ParamBinding}
    (hp : p.Owns names) {args : OrderedMap String HostValue}
    (hargs : ∀ name ∈ keys args, name ∈ names) : p.stray args = none := by
  have hnone : p.name ∉ names → find args p.name = none := fun h ↦
    OrderedMap.find_eq_none_iff.2 fun hmem ↦ h (hargs _ hmem)
  obtain ⟨name, position, binding⟩ := p
  cases binding with
  | injected injector => rfl
  | argument exposed plan =>
    rw [stray]
    dsimp only
    split
    · rfl
    · rename_i hhas
      rcases hp with rfl | hp
      · rwa [OrderedMap.has, Bool.not_eq_true, Option.isSome_eq_false_iff,
          Option.isNone_iff_eq_none] at hhas
      · exact hnone hp
  | unbound => exact hnone hp

/-- Where it can stray, null strays if it is all that is sent. -/
theorem ParamBinding.stray_of_not_owns {names : List String} {p : ParamBinding}
    (hp : ¬p.Owns names) : p.name ∈ names ∧ p.stray [(p.name, .null)] = some .null := by
  obtain ⟨name, position, binding⟩ := p
  cases binding with
  | injected injector => exact absurd trivial hp
  | argument exposed plan =>
    rw [Owns, not_or, not_not] at hp
    refine ⟨hp.2, ?_⟩
    simp only [stray, OrderedMap.has, find, if_neg (Ne.symm hp.1), Option.isSome_none,
      Bool.false_eq_true, if_false, if_true]
  | unbound =>
    rw [Owns, not_not] at hp
    exact ⟨hp, if_pos rfl⟩

/-- What strays to a parameter was sent for another one. -/
theorem ParamBinding.meant_of_stray {f : CompiledField}
    (hf : ∀ name, name ∈ keys f.args ↔ ∃ p ∈ f.resolver.params, p.exposed? = some name)
    {args : OrderedMap String HostValue} (hargs : ∀ name ∈ keys args, name ∈ keys f.args)
    {p : ParamBinding} {value : HostValue} (h : p.stray args = some value) :
    p.exposed? ≠ some p.name ∧ find args p.name = some value ∧
      ∃ q ∈ f.resolver.params, q.exposed? = some p.name := by
  have hmeant : find args p.name = some value → ∃ q ∈ f.resolver.params,
      q.exposed? = some p.name := fun h ↦
    (hf p.name).1 (hargs p.name (List.mem_map.2 ⟨_, OrderedMap.mem_of_find h, rfl⟩))
  obtain ⟨name, position, binding⟩ := p
  cases binding with
  | injected injector => cases h
  | argument exposed plan =>
    rw [stray] at h
    dsimp only at h
    split at h
    · cases h
    · rename_i hhas
      refine ⟨fun heq ↦ hhas ?_, h, hmeant h⟩
      rw [Option.some.inj heq]
      exact OrderedMap.has_of_find h
  | unbound => exact ⟨by simp [exposed?], h, hmeant h⟩

/-! ### A vector as a whole -/

theorem mapM_congr_of_mem {α β : Type} {f g : α → Resolve σ β} {l : List α}
    (h : ∀ a ∈ l, f a = g a) : l.mapM f = l.mapM g := by
  induction l with
  | nil => rfl
  | cons a rest ih =>
    rw [List.mapM_cons, List.mapM_cons, h a List.mem_cons_self,
      ih fun b hb ↦ h b (List.mem_cons_of_mem _ hb)]

/-- A step of a field that ends with a value. -/
def Resolve.Ends {α : Type} (x : Resolve σ α) : Prop :=
  ∀ state, ∃ a state', x.run state = .done (.ok a) state'

theorem Resolve.run_bind {α β : Type} {x : Resolve σ α} {state state' : σ} {a : α}
    (h : x.run state = .done (.ok a) state') (next : α → Resolve σ β) :
    (x >>= next).run state = (next a).run state' := by
  show Run.andThen (x.run state) _ = _
  rw [h]
  rfl

section Vector

variable {f g : ParamBinding → Resolve σ HostValue}

theorem Resolve.Ends.mapM {params : List ParamBinding} (hf : ∀ p ∈ params, (f p).Ends) :
    (params.mapM f).Ends := by
  induction params with
  | nil => exact fun state ↦ ⟨[], state, rfl⟩
  | cons p rest ih =>
    intro state
    obtain ⟨v, state₁, hv⟩ := hf p List.mem_cons_self state
    obtain ⟨vs, state₂, hvs⟩ := ih (fun q hq ↦ hf q (List.mem_cons_of_mem _ hq)) state₁
    refine ⟨v :: vs, state₂, ?_⟩
    rw [List.mapM_cons, run_bind hv, run_bind hvs]
    rfl

/-- Two vectors that differ in null for undefined at most are equal only if they agree in each
entry. -/
theorem forall_eq_of_mapM_eq {params : List ParamBinding} (hf : ∀ p ∈ params, (f p).Ends)
    (hg : ∀ p ∈ params, f p = g p ∨ f p = pure .null ∧ g p = pure .undefined) {state : σ}
    (h : (params.mapM f).run state = (params.mapM g).run state) : ∀ p ∈ params, f p = g p := by
  induction params generalizing state with
  | nil => exact fun p hp ↦ absurd hp List.not_mem_nil
  | cons p rest ih =>
    have hrest : ∀ q ∈ rest, (f q).Ends := fun q hq ↦ hf q (List.mem_cons_of_mem _ hq)
    have hgrest : ∀ q ∈ rest, (g q).Ends := by
      intro q hq
      rcases hg q (List.mem_cons_of_mem _ hq) with heq | ⟨-, heq⟩
      · exact heq ▸ hrest q hq
      · exact heq ▸ fun state ↦ ⟨.undefined, state, rfl⟩
    have hcons : ∀ {x : ParamBinding → Resolve σ HostValue} {v : HostValue} {state₁ : σ},
        (∀ q ∈ rest, (x q).Ends) → (x p).run state = .done (.ok v) state₁ →
        ∃ vs state₂, (rest.mapM x).run state₁ = .done (.ok vs) state₂ ∧
          ((p :: rest).mapM x).run state = .done (.ok (v :: vs)) state₂ := by
      intro x v state₁ hx hv
      obtain ⟨vs, state₂, hvs⟩ := Resolve.Ends.mapM hx state₁
      refine ⟨vs, state₂, hvs, ?_⟩
      rw [List.mapM_cons, Resolve.run_bind hv, Resolve.run_bind hvs]
      rfl
    rcases hg p List.mem_cons_self with heq | ⟨hnull, hundefined⟩
    · obtain ⟨v, state₁, hv⟩ := hf p List.mem_cons_self state
      obtain ⟨vs, state₂, hvs, hall⟩ := hcons hrest hv
      obtain ⟨vs', state₂', hvs', hall'⟩ := hcons hgrest (heq ▸ hv)
      rw [hall, hall'] at h
      cases h
      intro q hq
      rcases List.mem_cons.1 hq with rfl | hq
      · exact heq
      · exact ih hrest (fun q hq ↦ hg q (List.mem_cons_of_mem _ hq)) (hvs.trans hvs'.symm) q hq
    · have hv : (f p).run state = .done (.ok .null) state := by rw [hnull]; rfl
      have hv' : (g p).run state = .done (.ok .undefined) state := by rw [hundefined]; rfl
      obtain ⟨vs, state₂, -, hall⟩ := hcons hrest hv
      obtain ⟨vs', state₂', -, hall'⟩ := hcons hgrest hv'
      rw [hall, hall'] at h
      cases h

end Vector

theorem ParamBinding.cast_null (p : ParamBinding) :
    p.cast .null = (pure .null : Resolve σ HostValue) := by
  rw [cast, CastPlan.apply_of_isNullish _ _ rfl]
  rfl

/-- With nothing but null sent, nothing strays to a parameter, or null does where undefined was
promised. -/
theorem ParamBinding.stray_of_null (host : Host σ) {data : ResolverData} {name : String}
    (hdata : data.args = [(name, .null)]) (p : ParamBinding) :
    p.stray data.args = none ∧ (p.promise host data).Ends ∨
      p.stray data.args = some .null ∧ p.promise host data = pure .undefined := by
  have hfind : ∀ other v, find data.args other = some v → v = .null := by
    intro other v h
    rw [hdata, find] at h
    split at h <;> cases h
    rfl
  have hends : ∀ v : HostValue, (pure v : Resolve σ HostValue).Ends := fun v state ↦ ⟨v, state, rfl⟩
  obtain ⟨own, position, binding⟩ := p
  cases binding with
  | injected injector => exact .inl ⟨rfl, fun state ↦ ⟨_, _, rfl⟩⟩
  | argument exposed plan =>
    rcases hexposed : find data.args exposed with _ | value
    · rcases hown : find data.args own with _ | value <;>
        simp only [stray, promise, OrderedMap.has, hexposed, hown]
      · exact .inl ⟨rfl, hends _⟩
      · cases hfind own value hown
        exact .inr ⟨rfl, rfl⟩
    · cases hfind exposed value hexposed
      simp only [stray, promise, OrderedMap.has, hexposed, Option.map_some, Option.getD_some,
        cast_null]
      exact .inl ⟨rfl, hends _⟩
  | unbound =>
    rcases hown : find data.args own with _ | value <;> simp only [stray, promise, hown]
    · exact .inl ⟨trivial, hends _⟩
    · cases hfind own value hown
      exact .inr ⟨rfl, trivial⟩

/-- With nothing but null sent, a parameter ends with a value, and gets what it is promised or null
for undefined. -/
theorem ParamBinding.bind_of_null (host : Host σ) {data : ResolverData} {name : String}
    (hdata : data.args = [(name, .null)]) (p : ParamBinding) :
    (p.bind host data).Ends ∧
      (p.bind host data = p.promise host data ∨
        p.bind host data = pure .null ∧ p.promise host data = pure .undefined) := by
  rw [bind_eq]
  rcases p.stray_of_null host hdata with ⟨hstray, hends⟩ | ⟨hstray, hpromise⟩
  · rw [hstray]
    exact ⟨hends, .inl rfl⟩
  · rw [hstray, Option.map_some, Option.getD_some, cast_null]
    exact ⟨fun state ↦ ⟨.null, state, rfl⟩, .inr ⟨rfl, hpromise⟩⟩

/-- **When the promise is kept.**  All parameters get what they are promised, whatever is sent under
some names, exactly if none of these names can stray to any of them. -/
theorem vector_eq_promise_iff (host : Host σ) (f : FieldResolver) (names : List String) (state : σ) :
    (∀ data : ResolverData, (∀ name ∈ keys data.args, name ∈ names) →
        f.vector host data = f.params.mapM (ParamBinding.promise host data)) ↔
      ∀ p ∈ f.params, p.Owns names := by
  constructor
  · intro h p hp
    by_contra hown
    obtain ⟨hname, hstray⟩ := ParamBinding.stray_of_not_owns hown
    -- null is sent under the parameter's name, and nothing else
    let data : ResolverData := { source := .null, args := [(p.name, .null)] }
    have heq := h data fun name hmem ↦ by rwa [List.mem_singleton.1 hmem]
    have hbind : p.bind host data = p.promise host data := forall_eq_of_mapM_eq
      (fun q _ ↦ (q.bind_of_null host rfl).1) (fun q _ ↦ (q.bind_of_null host rfl).2)
      (congrArg (fun x : Resolve σ _ ↦ x.run state) heq) p hp
    have hdata : data.args = [(p.name, .null)] := rfl
    rcases p.stray_of_null host hdata with ⟨hnone, -⟩ | ⟨-, hpromise⟩
    · cases hstray.symm.trans hnone
    · rw [ParamBinding.bind_eq, hstray, Option.map_some, Option.getD_some,
        ParamBinding.cast_null, hpromise] at hbind
      cases congrArg (fun x : Resolve σ _ ↦ x.run state) hbind
  · intro h data hdata
    refine mapM_congr_of_mem fun p hp ↦ ?_
    rw [ParamBinding.bind_eq, (h p hp).stray_eq_none hdata]
    rfl

/-! ## Compiled fields -/

/-- **The values of a compiled method's parameters.**  Whatever field a session of a run compiles,
every declared parameter has one binding, in order, made as the registries say, and the arguments of
the field are the exposed ones.  The method is called with the vector of their values.  Each is what
the parameter is promised, except where a value that was sent for another parameter strays to it
under its own name; and this happens for no map of arguments exactly if no parameter that is hidden
or exposed under another name has an argument's name. -/
theorem compileField_binds {w w' : Workspace σ} (hw : w.Reachable d host) {s : SessionId}
    (hs : w.isOpen s = true) {owner : ClassRef} {spec : FieldSpec}
    (hspec : spec.Within d (w.Offers d)) {root : Option Instance} {field : CompiledField}
    (h : (compileField host s owner spec root).runIn w = (.ok field, w')) :
    List.Forall₂ (fun x b ↦ BoundAs host (w.registries s) owner spec x.2 x.1 b)
      spec.params.zipIdx field.resolver.params ∧
    (∀ name, name ∈ keys field.args ↔ ∃ p ∈ field.resolver.params, p.exposed? = some name) ∧
    (∀ data id, field.resolver.target data.source = .method id →
      field.resolver.produce host data = do
        let args ← field.resolver.vector host data
        ExceptT.mk (host.method id data.source args)) ∧
    (∀ data : ResolverData, ∀ p ∈ field.resolver.params,
      p.bind host data = ((p.stray data.args).map p.cast).getD (p.promise host data)) ∧
    (∀ args : OrderedMap String HostValue, (∀ name ∈ keys args, name ∈ keys field.args) →
      ∀ p ∈ field.resolver.params, ∀ value, p.stray args = some value →
        p.exposed? ≠ some p.name ∧ find args p.name = some value ∧
          ∃ q ∈ field.resolver.params, q.exposed? = some p.name) ∧
    ((∀ data : ResolverData, (∀ name ∈ keys data.args, name ∈ keys field.args) →
        field.resolver.vector host data =
          field.resolver.params.mapM (ParamBinding.promise host data)) ↔
      ∀ p ∈ field.resolver.params, p.Owns (keys field.args)) := by
  have hw₀ := hw.sound.coherent
  obtain ⟨hbound, hnames⟩ :=
    compileField_ok hw₀ (Workspace.lt_length_of_isOpen hs) (.refl hw₀) hspec h
  refine ⟨hbound, hnames, fun data id htarget ↦ ?_, fun data p _ ↦ p.bind_eq host data,
    fun args hargs p _ value hstray ↦ ParamBinding.meant_of_stray hnames hargs hstray,
    vector_eq_promise_iff host field.resolver _ w.host⟩
  rw [FieldResolver.produce, htarget]
  rfl

/-! ### An instance -/

namespace Hidden

/-- A class with a field of two parameters. -/
def owner : ClassRef := .base ⟨1⟩ "Owner"

/-- The class. -/
def declared : Declarations := .ofClasses [owner] (List.nodup_singleton _)

/-- A field with two parameters, of which the first is hidden. -/
def spec : FieldSpec where
  property := "f"
  type := some (.scalar .string)
  onlyDeclaredArgs := true
  params := [
    { name := "x", signature := some (.scalar .int) },
    { name := "y", signature := some (.scalar .int) }]
  method := some ⟨0⟩

/-- A session in which the second parameter is exposed under the name of the first. -/
def workspace : Workspace Unit :=
  (Workspace.openSession { host := () } {}).2.modifyRegistries 0
    (·.arg owner "f" 1 { name := some "x" })

theorem reachable : workspace.Reachable declared .idle :=
  (Workspace.Reachable.opened () {}).registered (s := 0) rfl (.arg owner "f" 1 nofun)

theorem spec_within (offered : GraphNode → Prop) : spec.Within declared offered := by
  refine ⟨fun t ht ↦ ?_, fun p hp g hg ↦ ?_, nofun⟩
  · cases ht
    exact .scalar _
  · rcases List.mem_pair.1 hp with rfl | rfl <;> cases hg <;> exact .scalar _

end Hidden

open Hidden in
/-- The hidden parameter gets the value that is sent for the other one. -/
theorem compileField_binds_hidden :
    ∃ field w', (compileField .idle 0 owner spec none).runIn workspace = (.ok field, w') ∧
      keys field.args = ["x"] ∧
      ¬∀ data : ResolverData, (∀ name ∈ keys data.args, name ∈ keys field.args) →
        field.resolver.vector .idle data =
          field.resolver.params.mapM (ParamBinding.promise .idle data) := by
  have hfacts : ((compileField .idle 0 owner spec none).runIn workspace).1.toOption.map
      (fun field ↦ (keys field.args, field.resolver.params.any fun p ↦
        (p.stray [("x", .null)]).isSome)) = some (["x"], true) := by cbv
  rcases hrun : (compileField .idle 0 owner spec none).runIn workspace with ⟨e | field, w'⟩ <;>
    rw [hrun] at hfacts
  · cases hfacts
  obtain ⟨hkeys, hstray⟩ := Prod.mk.inj (Option.some.inj hfacts)
  obtain ⟨-, -, -, -, -, hiff⟩ := compileField_binds reachable rfl (spec_within _) hrun
  refine ⟨field, w', rfl, hkeys, fun hall ↦ ?_⟩
  obtain ⟨p, hp, hsome⟩ := List.any_eq_true.1 hstray
  have hnone : p.stray [("x", .null)] = none := (hiff.1 hall p hp).stray_eq_none fun name hname ↦ by
    rw [List.mem_singleton.1 hname, hkeys]
    exact List.mem_singleton_self _
  rw [hnone] at hsome
  cases hsome

end ApiGraph
