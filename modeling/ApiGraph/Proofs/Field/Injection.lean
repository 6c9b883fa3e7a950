import ApiGraph.Proofs.Field.Binding
import Mathlib

/-!
# Injected parameters are out of reach of callers

A parameter with an injector is not an argument of its field.  Callers may still send whatever they
like: a name that nobody declared, the parameter's own name, or the name of another argument that is
the same.  None of it arrives where the injector supplies the value, provided that the injector
looks at nothing but the place at which the field is resolved.

## What is here

* `Injector.ReadsPlace`: an injector whose value is determined by the source, the context and the
  info, as that of each predefined one is.
* `Resolve.Straight`: a step of a field without pauses, with a rule for lists of steps.
* `FieldSpec.callerParams` and `compileField_callerParams`: the parameters that callers supply, and
  that the arguments of a compiled field are made of them and of nothing else.
* `Host.giving`: a program whose method sees one value whatever it is given, and
  `FieldResolver.call_giving`: a field that cannot tell.
* `compileField_injected`: all of it, for the fields that are compiled.
-/

set_option autoImplicit false

namespace ApiGraph

open OrderedMap (keys find)

variable {σ : Type} {d : Declarations} {host : Host σ}

/-! ## Injectors that look at the place only -/

/-- What an injector supplies for a parameter is determined by the source, the context and the info.
It does not depend on the arguments, nor on the state of the program. -/
def Injector.ReadsPlace (host : Host σ) (injector : Injector) : Prop :=
  ∃ value : Nat → HostValue → Option RequestContext → ResolveInfo → HostValue,
    ∀ position data state, (injector.supply host data position state).1 =
      value position data.source data.context data.info

/-- Every predefined injector looks at the place only. -/
theorem Injector.readsPlace_of_ne_host {injector : Injector} (h : ∀ id, injector ≠ .host id) :
    injector.ReadsPlace host := by
  cases injector with
  | context =>
    exact ⟨fun _ _ context _ ↦ (context.map fun c ↦ .foreign (.context c)).getD .null,
      fun _ _ _ ↦ rfl⟩
  | source => exact ⟨fun _ source _ _ ↦ source, fun _ _ _ ↦ rfl⟩
  | info => exact ⟨fun position _ _ info ↦ .foreign (.info info position), fun _ _ _ ↦ rfl⟩
  | host id => exact absurd rfl (h id)

/-! ## Steps without pauses -/

/-- A step of a field that ends without a pause, in an error or in a value of which something
holds. -/
def Resolve.Straight {α : Type} (post : α → Prop) (x : Resolve σ α) : Prop :=
  ∀ state, ∃ r state', x.run state = .done r state' ∧ ∀ a, r = .ok a → post a

namespace Resolve.Straight

variable {α β : Type} {post : α → Prop} {x : Resolve σ α}

theorem pure {a : α} (ha : post a) : Straight post (pure a : Resolve σ α) :=
  fun state ↦ ⟨.ok a, state, rfl, fun _ h ↦ Except.ok.inj h ▸ ha⟩

theorem bind (hx : x.Straight post) {next : α → Resolve σ β} {post' : β → Prop}
    (hnext : ∀ a, post a → (next a).Straight post') : (x >>= next).Straight post' := by
  intro state
  obtain ⟨r, state₁, hr, hpost⟩ := hx state
  have hrun : (x >>= next).run state = (ExceptT.bindCont next r : Process σ _) state₁ := by
    show Run.andThen (x.run state) _ = _
    rw [hr]
    rfl
  cases r with
  | ok a =>
    obtain ⟨r', state₂, hr', hpost'⟩ := hnext a (hpost a rfl) state₁
    exact ⟨r', state₂, hrun.trans hr', hpost'⟩
  | error e => exact ⟨.error e, state₁, hrun, nofun⟩

/-- Steps in a row give a list of values, each of which is as it should be. -/
theorem mapM {f : α → Resolve σ β} {posts : α → β → Prop} {l : List α}
    (h : ∀ a ∈ l, (f a).Straight (posts a)) : (l.mapM f).Straight (List.Forall₂ posts l) := by
  induction l with
  | nil => exact pure .nil
  | cons a rest ih =>
    rw [List.mapM_cons]
    refine (h a List.mem_cons_self).bind fun b hb ↦ ?_
    refine (ih fun a ha ↦ h a (List.mem_cons_of_mem _ ha)).bind fun bs hbs ↦ ?_
    exact pure (.cons hb hbs)

/-- What follows a step without pauses matters only for the values that the step can have. -/
theorem bind_congr (hx : x.Straight post) {next next' : α → Resolve σ β}
    (h : ∀ a, post a → next a = next' a) : x >>= next = x >>= next' := by
  refine funext fun state ↦ ?_
  obtain ⟨r, state', hr, hpost⟩ := hx state
  show Run.andThen (x.run state) _ = Run.andThen (x.run state) _
  rw [hr]
  cases r with
  | ok a => exact congrFun (h a (hpost a rfl)) state'
  | error e => rfl

end Resolve.Straight

/-- What a value is for a parameter: one that its injector supplies, if it has one. -/
def ParamBinding.Suits (host : Host σ) (data : ResolverData) (p : ParamBinding)
    (value : HostValue) : Prop :=
  ∀ injector, p.binding = .injected injector →
    ∃ state, value = (injector.supply host data p.position state).1

theorem ParamBinding.bind_straight (host : Host σ) (data : ResolverData) (p : ParamBinding) :
    (p.bind host data).Straight (p.Suits host data) := by
  intro state
  obtain ⟨name, position, binding⟩ := p
  cases binding with
  | injected injector =>
    refine ⟨.ok (injector.supply host data position state).1, _, rfl, fun v hv ↦ ?_⟩
    cases hv
    rintro injector ⟨⟩
    exact ⟨state, rfl⟩
  | argument exposed plan =>
    rw [bind]
    dsimp only
    split
    · exact ⟨_, state, rfl, fun _ _ _ h ↦ by cases h⟩
    · exact ⟨_, state, rfl, fun _ _ _ h ↦ by cases h⟩
  | unbound =>
    rw [bind]
    dsimp only
    split
    · exact ⟨_, state, rfl, fun _ _ _ h ↦ by cases h⟩
    · exact ⟨_, state, rfl, fun _ _ _ h ↦ by cases h⟩

/-- At the position of an injected parameter the vector of values has what is supplied, if the
injector looks at the place only. -/
theorem FieldResolver.vector_injected {f : FieldResolver} {i : Nat} {p : ParamBinding}
    (hp : f.params[i]? = some p) {injector : Injector} (hinjector : p.binding = .injected injector)
    (hplace : injector.ReadsPlace host) (source : HostValue) (context : Option RequestContext)
    (info : ResolveInfo) :
    ∃ v, ∀ args, (f.vector host (f.dataFor source args context info)).Straight
      fun vs ↦ vs[i]? = some v := by
  obtain ⟨value, hvalue⟩ := hplace
  refine ⟨value p.position ((f.root.map Instance.value).getD source) context info,
    fun args state ↦ ?_⟩
  have hvector : (f.vector host (f.dataFor source args context info)).Straight
      (List.Forall₂ (ParamBinding.Suits host (f.dataFor source args context info)) f.params) :=
    .mapM fun p _ ↦ p.bind_straight host _
  obtain ⟨r, state', hr, hsuits⟩ := hvector state
  refine ⟨r, state', hr, fun vs hvs ↦ ?_⟩
  obtain ⟨v, hv, hsuit⟩ := exists_getElem?_of_forall₂ (hsuits vs hvs) hp
  obtain ⟨state₁, rfl⟩ := hsuit injector hinjector
  rw [hv, hvalue]
  rfl

/-! ## A method that is given a value -/

/-- The same program, where methods see a value at one position whatever they are given there. -/
def Host.giving (host : Host σ) (i : Nat) (v : HostValue) : Host σ :=
  { host with method := fun id source vs ↦ host.method id source (vs.set i v) }

theorem ParamBinding.bind_giving (host : Host σ) (i : Nat) (v : HostValue) :
    ParamBinding.bind (host.giving i v) = ParamBinding.bind host := by
  funext data p
  obtain ⟨name, position, binding⟩ := p
  cases binding with
  | injected injector => cases injector <;> rfl
  | argument exposed plan => rfl
  | unbound => rfl

/-- A field cannot tell whether its methods are given a value that they get anyway. -/
theorem FieldResolver.call_giving (f : FieldResolver) {i : Nat} {v : HostValue}
    {source : HostValue} {args : OrderedMap String HostValue} {context : Option RequestContext}
    {info : ResolveInfo} {join : HookJoin σ}
    (h : (f.vector host (f.dataFor source args context info)).Straight fun vs ↦ vs[i]? = some v) :
    f.call (host.giving i v) source args context info join =
      f.call host source args context info join := by
  have hproduce : f.produce (host.giving i v) (f.dataFor source args context info) =
      f.produce host (f.dataFor source args context info) := by
    rw [produce, produce]
    split
    · rfl
    · rw [ParamBinding.bind_giving]
      refine Resolve.Straight.bind_congr h fun vs hvs ↦ ?_
      obtain ⟨hi, rfl⟩ := List.getElem?_eq_some_iff.1 hvs
      show ExceptT.mk (host.method _ _ (vs.set i vs[i])) = _
      rw [List.set_getElem_self]
  rw [call, call, hproduce]
  rfl

/-! ## Arguments -/

/-- The parameters that callers supply, each with its position. -/
def FieldSpec.callerParams (r : Registries) (owner : ClassRef) (spec : FieldSpec) :
    List (Param × Nat) :=
  spec.params.zipIdx.filter fun x ↦ (r.callerName? owner spec x.2 x.1).isSome

/-- What a parameter that callers supply adds to the arguments of its field. -/
structure ArgOf (host : Host σ) (w : Workspace σ) (s : SessionId) (owner : ClassRef)
    (spec : FieldSpec) (x : Param × Nat) (arg : CompiledArg) : Prop where
  name_eq : (w.registries s).callerName? owner spec x.2 x.1 = some arg.name
  typed : ∃ reference, TypedAs host w s owner spec.property x.2 x.1
    (spec.argSpec (w.registries s) owner x.2) reference arg.type

/-- Callers do not supply what is injected. -/
theorem Registries.callerName?_of_injector {r : Registries} {owner : ClassRef} {spec : FieldSpec}
    {index : Nat} {injector : Injector}
    (hi : r.injectors.get? owner.key (spec.property, index) = some injector) (param : Param) :
    r.callerName? owner spec index param = none := by
  rw [callerName?, hi]

theorem BoundAs.eq_injected {r : Registries} {owner : ClassRef} {spec : FieldSpec} {index : Nat}
    {param : Param} {p : ParamBinding} (h : BoundAs host r owner spec index param p)
    {injector : Injector}
    (hi : r.injectors.get? owner.key (spec.property, index) = some injector) :
    p.binding = .injected injector ∧ r.args.get? owner.key (spec.property, index) = none := by
  cases h with
  | injected ha hi' => exact ⟨by rw [Option.some.inj (hi'.symm.trans hi)], ha⟩
  | hidden _ hi' => simp [hi'] at hi
  | exposed _ hi' => simp [hi'] at hi

section Compile

variable {w₀ w w' : Workspace σ} (hw₀ : w₀.Coherent d) {s : SessionId}
  (hs : s < w₀.sessions.length) (hw : w₀.Filled d host w)
include hw₀ hs hw

/-- The arguments of a field are made of the parameters that callers supply, and of nothing else. -/
theorem compileField_callerParams {owner : ClassRef} {spec : FieldSpec}
    (hspec : spec.Within d (w₀.Offers d)) {root : Option Instance} {field : CompiledField}
    (h : (compileField host s owner spec root).runIn w = (.ok field, w')) :
    ∃ compiled, List.Forall₂ (ArgOf host w₀ s owner spec)
        (spec.callerParams (w₀.registries s) owner) compiled ∧
      field.args = OrderedMap.ofEntries (compiled.map fun a ↦ (a.name, a)) := by
  obtain ⟨type, args, params, resultCast, w₁, w₂, hw₁, hargs, -, rfl⟩ :=
    compileField_eq_ok hw₀ hs hw hspec h
  obtain ⟨all, w₃, hall, hargs⟩ := Compile.runIn_bind_eq_ok hargs
  cases hargs
  have hparams := compileParams_ok hw₀ hs hw₁ hspec.params hall
  refine ⟨all.filterMap Prod.fst, forall₂_filter_filterMap hparams ?_ ?_, rfl⟩
  · rintro x r ⟨hbound, hname, -⟩ hx
    rw [hbound.exposed?_eq, Option.isSome_eq_false_iff, Option.isNone_iff_eq_none] at *
    simpa [hx] using hname
  · rintro x r ⟨hbound, hname, htyped⟩ hx
    obtain ⟨name, hx⟩ := Option.isSome_iff_exists.1 hx
    rw [hbound.exposed?_eq, hx, Option.map_eq_some_iff] at hname
    obtain ⟨a, ha, rfl⟩ := hname
    exact ⟨a, ha, hx, htyped a ha⟩

end Compile

/-! ## Compiled fields -/

/-- **Callers cannot reach injected parameters.**  Let a session of a run compile a field, of which
one parameter is injected.  The field's method is called with the vector of the positional values.
If the injector looks at the place only, there is for every place one value that the vector has at
the parameter's position, whatever is sent and in whatever state it is read; and the whole call is
the one of a program whose methods are given this value there.  The arguments of the field are made
of the parameters that callers supply, to which no injected one belongs.  If the parameter has been
declared as an argument too, the field does not compile. -/
theorem compileField_injected {w : Workspace σ} (hw : w.Reachable d host) {s : SessionId}
    (hs : w.isOpen s = true) {owner : ClassRef} {spec : FieldSpec}
    (hspec : spec.Within d (w.Offers d)) {i : Nat} (hi : i < spec.params.length)
    {injector : Injector}
    (hinjector : (w.registries s).injectors.get? owner.key (spec.property, i) = some injector)
    (root : Option Instance) :
    (∀ field w', (compileField host s owner spec root).runIn w = (.ok field, w') →
      (∀ data id, field.resolver.target data.source = .method id →
        field.resolver.produce host data = do
          let args ← field.resolver.vector host data
          ExceptT.mk (host.method id data.source args)) ∧
      (injector.ReadsPlace host → ∀ source context info, ∃ v, ∀ args,
        (∀ state vs state',
          (field.resolver.vector host (field.resolver.dataFor source args context info)).run state =
            .done (.ok vs) state' → vs[i]? = some v) ∧
        ∀ join, field.resolver.call (host.giving i v) source args context info join =
          field.resolver.call host source args context info join) ∧
      (∃ compiled, List.Forall₂ (ArgOf host w s owner spec)
          (spec.callerParams (w.registries s) owner) compiled ∧
        field.args = OrderedMap.ofEntries (compiled.map fun a ↦ (a.name, a))) ∧
      ∀ param, (param, i) ∉ spec.callerParams (w.registries s) owner) ∧
    ((w.registries s).args.get? owner.key (spec.property, i) ≠ none →
      ∃ e w', (compileField host s owner spec root).runIn w = (.error e, w')) := by
  have hw₀ := hw.sound.coherent
  have hlength := Workspace.lt_length_of_isOpen hs
  have hbinding : ∀ field w', (compileField host s owner spec root).runIn w = (.ok field, w') →
      ∃ p, field.resolver.params[i]? = some p ∧ p.binding = .injected injector ∧
        (w.registries s).args.get? owner.key (spec.property, i) = none := by
    intro field w' h
    obtain ⟨hbound, -⟩ := compileField_ok hw₀ hlength (.refl hw₀) hspec h
    obtain ⟨p, hp, hb⟩ := exists_getElem?_of_forall₂ hbound (i := i) (a := (spec.params[i], i))
      (by simp [hi])
    exact ⟨p, hp, hb.eq_injected hinjector⟩
  constructor
  · intro field w' h
    obtain ⟨p, hp, hinjected, -⟩ := hbinding field w' h
    refine ⟨fun data id htarget ↦ ?_, fun hplace source context info ↦ ?_,
      compileField_callerParams hw₀ hlength (.refl hw₀) hspec h, fun param hmem ↦ ?_⟩
    · rw [FieldResolver.produce, htarget]
      rfl
    · obtain ⟨v, hv⟩ := FieldResolver.vector_injected hp hinjected hplace source context info
      refine ⟨v, fun args ↦ ⟨fun state vs state' hrun ↦ ?_,
        fun join ↦ FieldResolver.call_giving _ (hv args)⟩⟩
      obtain ⟨r, state'', hr, hpost⟩ := hv args state
      cases hr.symm.trans hrun
      exact hpost vs rfl
    · have := (List.mem_filter.1 hmem).2
      simp [Registries.callerName?_of_injector hinjector] at this
  · intro hdeclared
    rcases hrun : (compileField host s owner spec root).runIn w with ⟨e | field, w'⟩
    · exact ⟨e, w', rfl⟩
    · obtain ⟨p, -, -, hnone⟩ := hbinding field w' hrun
      exact absurd hnone hdeclared

/-! ### An instance -/

namespace Injected

open Hidden (owner declared spec spec_within)

/-- A session in which the first parameter is injected, and the second one is exposed under the name
of the first. -/
def workspace : Workspace Unit := Hidden.workspace.modifyRegistries 0 (·.inject owner "f" 0 .source)

/-- The same, where the first parameter is declared as an argument too. -/
def clashing : Workspace Unit := workspace.modifyRegistries 0 (·.arg owner "f" 0 {})

theorem reachable : workspace.Reachable declared .idle :=
  Hidden.reachable.registered (s := 0) rfl (.inject owner "f" 0 .source)

theorem clashing_reachable : clashing.Reachable declared .idle :=
  reachable.registered (s := 0) rfl (.arg owner "f" 0 nofun)

end Injected

open Hidden Injected in
/-- What is sent under the name of the injected parameter goes to the other one alone. -/
theorem compileField_injected_source :
    (∃ field w', (compileField .idle 0 owner spec none).runIn Injected.workspace = (.ok field, w') ∧
      keys field.args = ["x"] ∧
      ∃ v, ∀ args state vs state',
        (field.resolver.vector .idle (field.resolver.dataFor .null args none {})).run state =
          .done (.ok vs) state' → vs[0]? = some v) ∧
    ∃ e w', (compileField .idle 0 owner spec none).runIn clashing = (.error e, w') := by
  constructor
  · have hfacts : ((compileField .idle 0 owner spec none).runIn Injected.workspace).1.toOption.map
        (fun field ↦ keys field.args) = some ["x"] := by cbv
    rcases hrun : (compileField .idle 0 owner spec none).runIn Injected.workspace with
      ⟨e | field, w'⟩ <;> rw [hrun] at hfacts
    · cases hfacts
    have hinjector : (Injected.workspace.registries 0).injectors.get? owner.key (spec.property, 0) =
        some .source := rfl
    obtain ⟨hok, -⟩ := compileField_injected Injected.reachable rfl (spec_within _) (by decide)
      hinjector none
    obtain ⟨-, hplace, -⟩ := hok field w' hrun
    have hsource : ∀ id, Injector.source ≠ .host id := by simp
    obtain ⟨v, hv⟩ := hplace (Injector.readsPlace_of_ne_host hsource) .null none {}
    exact ⟨field, w', rfl, Option.some.inj hfacts, v, fun args ↦ (hv args).1⟩
  · have hinjector : (clashing.registries 0).injectors.get? owner.key (spec.property, 0) =
        some .source := rfl
    have hdeclared : (clashing.registries 0).args.get? owner.key (spec.property, 0) = some {} := rfl
    exact (compileField_injected clashing_reachable rfl (spec_within _) (by decide)
      hinjector none).2 (by simp [hdeclared])

end ApiGraph
