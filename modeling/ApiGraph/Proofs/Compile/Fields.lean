import ApiGraph.Proofs.Compile.Nodes

/-!
# Compiling fields

The fields of a type settle too: parameters, arguments, single fields, the whole map of a type that
a workspace knows.  So does the step from a node to those it leads to, which is all that a walk over
the graph asks for.

## What is here

* `castPlan_eq`: a cast plan does not depend on the state of the program.
* `compileField_settles` and `compileInputField_settles`: single fields.
* `ObjectNode.fields_settles`, `InterfaceNode.fields_settles`, `InputNode.fields_settles`: the maps
  of nodes that are known.
* `GraphNode.successors_settles`: the nodes that a node leads to.
-/

set_option autoImplicit false

namespace ApiGraph

open Compile (Settles)

variable {σ : Type} {d : Declarations} {host : Host σ} {w₀ : Workspace σ}

/-- A cast plan does not depend on the state of the program. -/
theorem castPlan_eq (host : Host σ) (r : Registries) (t : TypeRef) :
    ∃ plan, ∀ st, (castPlan host r t st).1 = plan := by
  fun_induction castPlan host r t with
  | case3 item _ ih =>
    obtain ⟨plan, h⟩ := ih
    exact ⟨.list plan, fun st ↦ congrArg CastPlan.list (h st)⟩
  | case5 label target ih =>
    obtain ⟨plan, h⟩ := ih
    by_cases ht : target.isThunk = true
    · exact ⟨.passthrough, fun st ↦ by rw [if_pos ht]; rfl⟩
    · exact ⟨plan, fun st ↦ by rw [if_neg ht]; exact h _⟩
  | _ => exact ⟨_, fun _ ↦ rfl⟩

section Fields

variable (hw₀ : w₀.Coherent d) {s : SessionId} (hs : s < w₀.sessions.length)
  {given : List GraphNode}

/-! ## Arguments -/

/-- The type of an argument refers to declarations, be it declared or read off a signature. -/
theorem argumentType_within {owner : ClassRef} {property : String} {index : Nat} {arg : ArgSpec}
    {param : Param} (harg : arg.Within d (w₀.Offers d)) (hparam : param.Within d) {t : TypeRef}
    (h : argumentType owner property index arg (Signature.infer? param.signature) = .ok t) :
    t.Within d (w₀.Offers d) := by
  rw [argumentType] at h
  split at h
  · rename_i t' ht
    cases h
    rcases Option.or_eq_some_iff.1 ht with ht | ⟨-, ht⟩
    · exact harg t ht
    · cases hg : param.signature with
      | none => rw [hg] at ht; cases ht
      | some g => rw [hg] at ht; exact (hparam g hg).infer ht
  · cases h

/-- The nodes of the argument of a parameter, if it becomes one. -/
def argNodes (r : Option CompiledArg × ParamBinding) : List GraphNode :=
  r.1.toList.map fun a ↦ a.type.node

include hw₀ hs

/-- The only node of an argument is that of its type. -/
theorem compileCallerArg_settles (owner : ClassRef) (property : String) (index : Nat)
    {param : Param} {arg : ArgSpec} (hparam : param.Within d) (harg : arg.Within d (w₀.Offers d)) :
    Settles d host w₀ given (compileCallerArg host s owner property index param arg)
      fun r ↦ [r.1.type.node] := by
  have href : Settles d host w₀ given
      (ExceptT.mk (pure (argumentType owner property index arg (Signature.infer? param.signature))))
      (fun _ ↦ []) (TypeRef.Within d (w₀.Offers d)) := by
    refine .mk_pure (fun e he ↦ ?_) (by simp) fun t ↦ argumentType_within harg hparam
    rw [argumentType] at he
    split at he <;> cases he
    simp
  refine href.bind fun t ht ↦ ?_
  refine ((resolveType_settles hw₀ hs ht _).tryCatch_throw (by simp)).bind fun type _ ↦ ?_
  split
  · refine .get (fun w hw ↦ by simp only [hw.registries]) ?_
    refine (Settles.ofHost (castPlan_eq host _ t)).bind fun plan _ ↦
      .pure (fun n hn ↦ .inl ?_) trivial
    cases List.mem_singleton.1 hn
    exact List.mem_cons_self
  · exact .throw (by simp)

/-- A parameter has the nodes of the argument that it becomes, and else none. -/
theorem compileParam_settles (owner : ClassRef) (spec : FieldSpec) (index : Nat) {param : Param}
    (hparam : param.Within d) :
    Settles d host w₀ given (compileParam host s owner spec index param) argNodes := by
  refine .get (fun w hw ↦ by simp only [hw.registries]) ?_
  dsimp only
  split
  · exact .throw nofun
  · exact .value rfl trivial
  split
  · exact .value rfl trivial
  · have harg : (((w₀.registries s).args.get? owner.key (spec.property, index)).getD {}).Within d
        (w₀.Offers d) := by
      cases ha : (w₀.registries s).args.get? owner.key (spec.property, index) with
      | none => exact nofun
      | some a => exact (hw₀.registries s).args.get? ha
    refine (compileCallerArg_settles hw₀ hs owner spec.property index hparam harg).bind
      fun r _ ↦ .pure (fun n hn ↦ .inl ?_) trivial
    exact List.mem_append_left _ hn

/-- By induction on the parameters that are left, at any position. -/
theorem compileParams_settles (owner : ClassRef) (spec : FieldSpec) (index : Nat)
    {params : List Param} (h : ∀ p ∈ params, p.Within d) :
    Settles d host w₀ given (compileParams host s owner spec index params)
      fun rs ↦ rs.flatMap argNodes := by
  induction params generalizing index given with
  | nil => exact .value rfl trivial
  | cons p rest ih =>
    rw [compileParams]
    refine (compileParam_settles hw₀ hs owner spec index (h p List.mem_cons_self)).bind
      fun one _ ↦ ?_
    refine (ih (index + 1) fun q hq ↦ h q (List.mem_cons_of_mem _ hq)).bind fun others _ ↦
      .pure (fun n hn ↦ .inl ?_) trivial
    rcases List.mem_append.1 (List.flatMap_cons ▸ hn) with hn | hn
    · exact List.mem_append_right _ (List.mem_append_left _ hn)
    · exact List.mem_append_left _ hn

/-- The nodes of arguments by name are among those of all arguments. -/
theorem compileArgs_settles (owner : ClassRef) {spec : FieldSpec}
    (h : ∀ p ∈ spec.params, p.Within d) :
    Settles d host w₀ given (compileArgs host s owner spec)
      fun r ↦ (OrderedMap.values r.1).map fun a ↦ a.type.node := by
  refine (compileParams_settles hw₀ hs owner spec 0 h).bind fun all _ ↦
    .pure (fun n hn ↦ .inl (List.mem_append_left _ ?_)) trivial
  obtain ⟨_, hv, rfl⟩ := List.mem_map.1 hn
  obtain ⟨_, he, rfl⟩ := List.mem_map.1 hv
  obtain ⟨a, hm, rfl⟩ := List.mem_map.1 (OrderedMap.mem_of_mem_ofEntries he)
  obtain ⟨r, hr, ha⟩ := List.mem_filterMap.1 hm
  exact List.mem_flatMap.2 ⟨r, hr, List.mem_map.2 ⟨a, Option.mem_toList.2 ha, rfl⟩⟩

/-! ## Fields -/

omit hw₀ hs in
theorem inferenceError_ne (cls : ClassRef) (property : String) (shape : Option Uninferable)
    (fault : AssemblyError) : inferenceError cls property shape ≠ .assembly fault := by
  cases shape <;> nofun

omit hw₀ hs in
theorem inField_ne (cls : ClassRef) (property : String) {e : CompileError}
    (he : ∀ fault, e ≠ .assembly fault) (fault : AssemblyError) :
    inField cls property e ≠ .assembly fault := by
  rw [inField.eq_def]
  split
  · nofun
  · nofun
  · exact he fault

omit hw₀ hs in
/-- The type of a field refers to declarations, whether it is written or read off a signature. -/
theorem TypeRef.Within.of_or_infer {type : Option TypeRef} {signature : Option Signature}
    (htype : ∀ t ∈ type, t.Within d (w₀.Offers d)) (hsig : ∀ g ∈ signature, g.Within d)
    {t : TypeRef} (h : type.or (Signature.infer? signature).type = some t) :
    t.Within d (w₀.Offers d) := by
  rcases Option.or_eq_some_iff.1 h with h | ⟨-, h⟩
  · exact htype t h
  · cases signature with
    | none => cases h
    | some g => exact (hsig g rfl).infer h

/-- The nodes of a field are that of its type and those of its arguments. -/
theorem compileField_settles (owner : ClassRef) {spec : FieldSpec}
    (hspec : spec.Within d (w₀.Offers d)) (root : Option Instance) :
    Settles d host w₀ given (compileField host s owner spec root) CompiledField.nodes := by
  rw [compileField]
  split
  · exact .throw (inferenceError_ne _ _ _)
  rename_i t ht
  have ht := TypeRef.Within.of_or_infer hspec.type hspec.returns ht
  refine ((resolveType_settles hw₀ hs ht _).tryCatch_throw ?_).bind fun type _ ↦ ?_
  · exact fun e ↦ inField_ne _ _
  split
  · refine (compileArgs_settles hw₀ hs owner hspec.params).bind fun args _ ↦ ?_
    refine .get (fun w hw ↦ by simp only [hw.registries]) ?_
    have hnodes : ∀ n ∈ type.node :: (OrderedMap.values args.1).map fun a ↦ a.type.node,
        n ∈ ((OrderedMap.values args.1).map fun a ↦ a.type.node) ++ ([type.node] ++ given) := by
      intro n hn
      rcases List.mem_cons.1 hn with rfl | hn
      · exact List.mem_append_right _ List.mem_cons_self
      · exact List.mem_append_left _ hn
    dsimp only
    split
    · exact (Settles.ofHost (castPlan_eq host _ _)).bind fun _ _ ↦
        .pure (fun n hn ↦ .inl (hnodes n hn)) trivial
    · exact .pure (fun n hn ↦ .inl (hnodes n hn)) trivial
  · split
    · exact .throw (inferenceError_ne _ _ _)
    · exact .throw (by simp)

/-- The only node of an input field is that of its type. -/
theorem compileInputField_settles (cls : ClassRef) {spec : InputFieldSpec}
    (hspec : spec.Within d (w₀.Offers d)) :
    Settles d host w₀ given (compileInputField host s cls spec) fun f ↦ [f.type.node] := by
  rw [compileInputField]
  split
  · exact .throw (inferenceError_ne _ _ _)
  rename_i t ht
  have ht := TypeRef.Within.of_or_infer hspec.type hspec.signature ht
  refine ((resolveType_settles hw₀ hs ht _).tryCatch_throw ?_).bind fun type _ ↦ ?_
  · exact fun e ↦ inField_ne _ _
  split
  · refine .pure (fun n hn ↦ .inl ?_) trivial
    exact List.mem_append_left _ hn
  · exact .throw nofun

/-! ## The maps of a type -/

omit hw₀ hs in
/-- What is collected from a walk was registered, and a failure is one of a type. -/
theorem collectFields_spec {r : Registries} {cls : ClassRef} {walk : List ClassRef}
    {p : FieldSpec → Prop} (hr : r.fields.All p) :
    (∀ declared, collectFields r cls walk = .ok declared → ∀ e ∈ declared, p e.2.2) ∧
      ∀ e, collectFields r cls walk = .error e → ∀ fault, e ≠ .assembly fault := by
  refine foldlM_invariant
    (p := fun found : OrderedMap String (ClassRef × FieldSpec) ↦ ∀ e ∈ found, p e.2.2) ?_ ?_ ?_
  · rintro found ⟨owner, spec⟩ hmem hfound found' h
    obtain ⟨c, -, he⟩ := List.mem_flatMap.1 hmem
    obtain ⟨⟨key, spec'⟩, hspec, heq⟩ := List.mem_map.1 he
    cases heq
    dsimp only at h
    split at h
    · split at h <;> cases h
      exact hfound
    · cases h
      intro e he
      rcases OrderedMap.mem_put he with rfl | he
      · exact hr owner.key spec (List.mem_map_of_mem hspec)
      · exact hfound e he
  · rintro found ⟨owner, spec⟩ - e h
    dsimp only at h
    split at h
    · split at h <;> cases h
      nofun
    · cases h
  · exact fun _ h ↦ absurd h List.not_mem_nil

/-- The nodes of a field map are those of the fields that are declared on the walk. -/
theorem compileFields_settles (cls : ClassRef) (walk : List ClassRef) :
    Settles d host w₀ given (compileFields host s cls walk) FieldMap.nodes := by
  refine .get (fun w hw ↦ by simp only [hw.registries]) ?_
  obtain ⟨hok, herr⟩ := collectFields_spec (hw₀.registries s).fields
  have hdeclared : Settles d host w₀ given
      (ExceptT.mk (pure (collectFields (w₀.registries s) cls walk))) (fun _ ↦ [])
      (fun declared ↦ ∀ e ∈ declared, e.2.2.Within d (w₀.Offers d)) :=
    .mk_pure herr (fun _ _ ↦ List.forall_mem_nil _) hok
  refine hdeclared.bind fun declared hd ↦ ?_
  have hfields : ∀ e ∈ declared, Settles d host w₀ [] (do
      let field ← compileField host s e.2.1 e.2.2 none
      return (e.1, field)) fun e ↦ e.2.nodes := fun e he ↦
    (compileField_settles hw₀ hs e.2.1 (hd e he) none).bind fun f _ ↦
      .pure (fun n hn ↦ .inl (List.mem_append_left _ hn)) trivial
  refine (Settles.mapM hfields).weaken (fun _ ↦ id) (fun fields n hn ↦ ?_) fun _ _ ↦ trivial
  rwa [FieldMap.nodes, OrderedMap.values, List.flatMap_map] at hn

omit hw₀ hs in
/-- What a registry has for an owner makes it one of its owners. -/
theorem Registry.mem_owners_of_getAll {κ ν : Type} {r : Registry κ ν} {owner : TypeKey} {e : κ × ν}
    (h : e ∈ r.getAll owner) : e ∈ r.owners.flatMap Prod.snd := by
  rw [Registry.getAll] at h
  cases hf : OrderedMap.find r.owners owner with
  | none => rw [hf] at h; cases h
  | some m =>
    rw [hf] at h
    exact List.mem_flatMap.2 ⟨(owner, m), OrderedMap.mem_of_find hf, h⟩

omit hw₀ hs in
/-- An input type sees no more fields than have been registered. -/
theorem length_collectInputFields_le (r : Registries) (walk : List ClassRef) :
    (collectInputFields r walk).length ≤ r.inputFieldTotal := by
  have hnodup : (OrderedMap.keys (collectInputFields r walk)).Nodup :=
    OrderedMap.nodup_keys_ofEntries _
  have hsub : OrderedMap.keys (collectInputFields r walk) ⊆
      (r.inputFields.owners.flatMap Prod.snd).map fun e ↦ e.2.exposedName := by
    intro name hname
    obtain ⟨e, he, rfl⟩ := List.mem_map.1 hname
    obtain ⟨owner, -, he⟩ := List.mem_flatMap.1 (OrderedMap.mem_of_mem_ofEntries he)
    obtain ⟨entry, hentry, rfl⟩ := List.mem_map.1 he
    exact List.mem_map_of_mem (Registry.mem_owners_of_getAll hentry)
  simpa [OrderedMap.keys, Registries.inputFieldTotal] using
    List.Nodup.length_le_of_subset hnodup hsub

/-- The nodes of an input map are those of the input fields that the lineage declares. -/
theorem compileInputFields_settles (cls : ClassRef) :
    Settles d host w₀ given (compileInputFields host s cls)
      (fun fields ↦ (OrderedMap.values fields).map fun f ↦ f.type.node)
      (fun fields ↦ fields.length ≤ (w₀.registries s).inputFieldTotal) := by
  refine .get (fun w hw ↦ by simp only [hw.registries]) ?_
  have hfields : ∀ e ∈ collectInputFields (w₀.registries s) cls.oldestFirst,
      Settles d host w₀ [] (do
        let field ← compileInputField host s cls e.2
        return (e.1, field)) fun e ↦ [e.2.type.node] := by
    intro e he
    obtain ⟨owner, -, he⟩ := List.mem_flatMap.1 (OrderedMap.mem_of_mem_ofEntries he)
    obtain ⟨entry, hentry, rfl⟩ := List.mem_map.1 he
    have hspec := (hw₀.registries s).inputFields owner.key entry.2 (List.mem_map_of_mem hentry)
    exact (compileInputField_settles hw₀ hs cls hspec).bind fun f _ ↦
      .pure (fun n hn ↦ .inl (List.mem_append_left _ hn)) trivial
  refine (Settles.mapM hfields).weaken (fun _ ↦ id) (fun fields n hn ↦ ?_) fun fields h ↦ ?_
  · obtain ⟨f, hf, rfl⟩ := List.mem_map.1 hn
    obtain ⟨e, he, rfl⟩ := List.mem_map.1 hf
    exact List.mem_flatMap.2 ⟨e, he, List.mem_singleton_self _⟩
  · exact h.1 ▸ length_collectInputFields_le _ _

end Fields

/-! ## The maps of known nodes -/

section Known

variable (hw₀ : w₀.Coherent d) {given : List GraphNode} {w : Workspace σ}
  (hw : w₀.Filled d host w)
include hw₀ hw

omit hw₀ hw in
/-- The fields of a root are those published with its schema. -/
theorem ObjectNode.fields_root {n : ObjectNode} {serial : Nat} {operation : Operation}
    (hid : n.id = .root serial operation) :
    n.fields host = (do
      match OrderedMap.find (← get).roots (serial, operation) with
      | some (_, known) => return known
      | none => throw .sessionDropped) := by
  obtain ⟨id, name, description, cls, interfaces, mixins⟩ := n
  cases hid
  rfl

/-- The fields of a root are known; those of a compiled object type settle in their table. -/
theorem ObjectNode.fields_settles {n : ObjectNode} (hn : w.Holds d (.object n)) :
    Settles d host w₀ given (n.fields host) FieldMap.nodes := by
  rcases hn with ⟨s, key, h⟩ | ⟨⟨serial, operation⟩, fields, h⟩
  · have hs : s < w₀.sessions.length :=
      hw.grows.sessions_length ▸ Workspace.lt_length_of_entry h
    obtain ⟨c, hc, hk, hrun⟩ := hw.answered h
    obtain ⟨hid, ⟨c', hcls, hc', hk'⟩, -⟩ := hw.coherent.entries h
    cases d.classes_inj hc hc' (hk.trans hk'.symm)
    have hfields : n.fields host = Compile.remember s .objectFields key (do
        Compile.requireOpen s
        compileFields host s c n.walk) := by
      rw [ObjectNode.fields, hid, hcls]
    rw [hfields]
    refine .remember FieldMap.nodes (fun _ ↦ True) hs (fun v ↦ ⟨fun h ↦ ?_, ?_⟩) ?_ ?_ (.refl hw₀)
    · exact hfields ▸ h c n hc hk hid hcls hrun
    · intro h c' n' hc' hk' _ _ hrun'
      cases d.classes_inj hc hc' (hk.trans hk'.symm)
      cases hrun.symm.trans hrun'
      rw [hfields]
      exact h
    · exact (Settles.requireOpen s).bind fun _ _ ↦ compileFields_settles hw₀ hs c _
    · exact fun v w _ _ hv ↦ hv
  · have hroot := (hw.coherent.roots h).1
    rw [hw.grows.roots] at h
    rw [ObjectNode.fields_root (congrArg ObjectNode.id hroot)]
    refine .get (fun w hw ↦ by rw [hw.roots]) ?_
    rw [h]
    exact .pure (fun m hm ↦ .inr ((hw₀.roots h).2 m hm)) trivial

/-- The fields of an interface settle in their table. -/
theorem InterfaceNode.fields_settles {n : InterfaceNode} (hn : w.Holds d (.interface n)) :
    Settles d host w₀ given (n.fields host) FieldMap.nodes := by
  obtain ⟨s, key, h⟩ := hn
  have hs : s < w₀.sessions.length :=
    hw.grows.sessions_length ▸ Workspace.lt_length_of_entry h
  obtain ⟨c, hc, hk, hrun⟩ := hw.answered h
  obtain ⟨hid, ⟨hc', hk'⟩, -⟩ := hw.coherent.entries h
  cases d.classes_inj hc hc' (hk.trans hk'.symm)
  have hfields : n.fields host = Compile.remember s .interfaceFields key (do
      Compile.requireOpen s
      compileFields host s n.cls n.cls.oldestFirst) := by
    rw [InterfaceNode.fields, hid]
  rw [hfields]
  refine .remember FieldMap.nodes (fun _ ↦ True) hs (fun v ↦ ⟨fun h ↦ ?_, ?_⟩) ?_ ?_ (.refl hw₀)
  · exact hfields ▸ h n.cls n hc hk hid rfl hrun
  · intro h c' n' hc' hk' _ _ hrun'
    cases d.classes_inj hc hc' (hk.trans hk'.symm)
    cases hrun.symm.trans hrun'
    rw [hfields]
    exact h
  · exact (Settles.requireOpen s).bind fun _ _ ↦ compileFields_settles hw₀ hs _ _
  · exact fun v w _ _ hv ↦ hv

/-- So do those of an input type. -/
theorem InputNode.fields_settles {n : InputNode} (hn : w.Holds d (.input n)) :
    Settles d host w₀ given (n.fields host)
      fun fields ↦ (OrderedMap.values fields).map fun f ↦ f.type.node := by
  obtain ⟨s, key, h⟩ := hn
  have hs : s < w₀.sessions.length :=
    hw.grows.sessions_length ▸ Workspace.lt_length_of_entry h
  obtain ⟨c, hc, hk, hrun⟩ := hw.answered h
  obtain ⟨hid, ⟨hc', hk'⟩, -⟩ := hw.coherent.entries h
  cases d.classes_inj hc hc' (hk.trans hk'.symm)
  have hfields : n.fields host = Compile.remember s .inputFields key (do
      Compile.requireOpen s
      compileInputFields host s n.cls) := by
    rw [InputNode.fields, hid]
  rw [hfields]
  refine .remember (CacheTable.nodes .inputFields)
    (fun fields ↦ fields.length ≤ (w₀.registries s).inputFieldTotal)
    hs (fun v ↦ ⟨fun h ↦ ?_, ?_⟩) ?_ ?_ (.refl hw₀)
  · exact hfields ▸ h n.cls n hc hk hid rfl hrun
  · intro h c' n' hc' hk' _ _ hrun'
    cases d.classes_inj hc hc' (hk.trans hk'.symm)
    cases hrun.symm.trans hrun'
    rw [hfields]
    exact h
  · exact (Settles.requireOpen s).bind fun _ _ ↦
      (compileInputFields_settles hw₀ hs _).weaken (fun _ h ↦ h) (fun _ _ h ↦ h) fun _ h ↦ h
  · exact fun v w hl hg hv ↦ ⟨hv, hg.registries s ▸ hl⟩

/-- Whoever claims an interface settles as an object type. -/
theorem InterfaceNode.implementations_settles {n : InterfaceNode}
    (hn : w.Holds d (.interface n)) :
    Settles d host w₀ given n.implementations fun ms ↦ ms.map .object := by
  obtain ⟨s, key, h⟩ := hn
  have hs : s < w₀.sessions.length :=
    hw.grows.sessions_length ▸ Workspace.lt_length_of_entry h
  rw [InterfaceNode.implementations, (hw.coherent.entries h).1]
  refine (Settles.requireOpen s).bind fun _ _ ↦ ?_
  refine .get (fun w hw ↦ by simp only [hw.registries]) ?_
  have hmembers : ∀ c ∈ (w₀.registries s).implementorsOf n.cls,
      Settles d host w₀ [] (compileObject s c) (fun n ↦ [.object n]) := by
    exact fun c hc ↦ compileObject_settles hw₀ hs ((hw₀.registries s).of_implementorsOf hc)
  refine (Settles.mapM hmembers).weaken (fun _ h ↦ h) (fun ms n hn ↦ ?_) fun _ _ ↦ trivial
  obtain ⟨m, hm, rfl⟩ := List.mem_map.1 hn
  exact List.mem_flatMap.2 ⟨m, hm, List.mem_singleton_self _⟩

/-! ## From a node to the next -/

omit hw₀ hw in
/-- The nodes that a node itself contains. -/
def GraphNode.parts : GraphNode → List GraphNode
  | .object n => n.interfaces.map .interface
  | .union n => n.members.map .object
  | .interface _ | .input _ | .enum _ | .scalar _ => []

omit hw₀ hw in
theorem Workspace.Coherent.offers_parts (hw : w.Coherent d) {n : GraphNode} (hn : w.Holds d n) :
    ∀ m ∈ n.parts, w.Offers d m := by
  intro m hm
  cases n with
  | object n =>
    obtain ⟨i, hi, rfl⟩ := List.mem_map.1 hm
    rcases hn with ⟨s, key, h⟩ | ⟨⟨serial, operation⟩, fields, h⟩
    · exact (hw.entries h).2.2.2 i hi
    · rw [(hw.roots h).1] at hi
      cases hi
  | union n =>
    obtain ⟨o, ho, rfl⟩ := List.mem_map.1 hm
    obtain ⟨s, key, h⟩ := hn
    exact (hw.entries h).2.2.2 o ho
  | interface n | input n | enum n | scalar n => cases hm

/-- What the walk goes on to settles, and is known when it goes there. -/
theorem GraphNode.successors_settles {n : GraphNode} (hn : w.Holds d n) :
    Settles d host w₀ n.parts (n.successors host) fun ms ↦ ms := by
  cases n with
  | object n =>
    refine (ObjectNode.fields_settles hw₀ hw hn).bind fun fields _ ↦ .pure (fun m hm ↦ ?_) trivial
    exact .inl hm
  | interface n =>
    refine (InterfaceNode.fields_settles hw₀ hw hn).bind fun fields _ ↦ ?_
    refine (InterfaceNode.implementations_settles hw₀ hw hn).bind fun objects _ ↦
      .pure (fun m hm ↦ .inl ?_) trivial
    rcases List.mem_append.1 hm with hm | hm
    · exact List.mem_append_right _ (List.mem_append_left _ hm)
    · exact List.mem_append_left _ hm
  | union n => exact .pure (fun m hm ↦ .inl hm) trivial
  | input n =>
    exact (InputNode.fields_settles hw₀ hw hn).bind fun fields _ ↦
      .pure (fun m hm ↦ .inl (List.mem_append_left _ hm)) trivial
  | enum n | scalar n => exact .value rfl trivial

end Known
end ApiGraph
