import ApiGraph.Proofs.Compile.Settles

/-!
# Compiling nodes and references

Each node of a class or an enum settles, and so does each graph type of a reference.  The proofs
follow the definitions; what they have to supply is that the new node is one that its table may
keep.

## What is here

* `Workspace.Filled.refl`: a coherent workspace is filled with what it answers.
* `compileEnum_settles`, `compileInterface_settles`, `compileObject_settles`,
  `compileUnion_settles`, `compileInput_settles`: the nodes.
* `resolveType_settles`: the type of a reference to declarations.
-/

set_option autoImplicit false

namespace ApiGraph

open Compile (Settles)

variable {σ : Type} {d : Declarations} {host : Host σ} {w₀ : Workspace σ}

/-! ## Filled workspaces -/

namespace Workspace

/-- A coherent workspace is filled with what it answers. -/
theorem Filled.refl (hw : w₀.Coherent d) : w₀.Filled d host w₀ := by
  refine ⟨.refl w₀, hw, fun {s t key v} h ↦ ?_⟩
  have hv := hw.entries h
  cases t with
  | objects =>
    obtain ⟨-, ⟨c, hc, hd, rfl⟩, -⟩ := hv
    exact ⟨c, hd, rfl, congrArg Prod.fst (Compile.runIn_remember_of_entry h)⟩
  | inputs | unions | interfaces =>
    obtain ⟨-, ⟨hd, rfl⟩, -⟩ := hv
    exact ⟨v.cls, hd, rfl, congrArg Prod.fst (Compile.runIn_remember_of_entry h)⟩
  | enums =>
    obtain ⟨-, hd, rfl⟩ := hv
    exact ⟨v.definition, hd, rfl, congrArg Prod.fst (Compile.runIn_remember_of_entry h)⟩
  | objectFields =>
    intro c n hd hk hid hcls hn
    rw [ObjectNode.fields, hid, hcls]
    exact congrArg Prod.fst (Compile.runIn_remember_of_entry h)
  | interfaceFields =>
    intro c n hd hk hid hcls hn
    rw [InterfaceNode.fields, hid]
    exact congrArg Prod.fst (Compile.runIn_remember_of_entry h)
  | inputFields =>
    intro c n hd hk hid hcls hn
    rw [InputNode.fields, hid]
    exact congrArg Prod.fst (Compile.runIn_remember_of_entry h)

/-- A step of the program makes no entries that would have to be answered. -/
theorem Filled.ofHost (hw : w₀.Coherent d) (state : σ) :
    w₀.Filled d host { w₀ with host := state } :=
  ⟨.ofHost w₀ state, hw.ofHost state, (Filled.refl hw).answered⟩

end Workspace

/-- A native scalar is always offered. -/
theorem Workspace.offers_native (w : Workspace σ) (scalar : NativeScalar) :
    w.Offers d (.scalar scalar.node) := by
  refine ⟨.inr ⟨scalar, rfl⟩, fun serial operation h ↦ ?_⟩
  rw [GraphNode.id, Workspace.id_native] at h
  cases h

/-- Options change what is around a node only. -/
theorem ResolveOptions.node_wrap (o : ResolveOptions) (t : GraphType) :
    (o.wrap t).node = t.node := by
  rw [ResolveOptions.wrap]
  split
  · rfl
  · exact GraphType.node_required t

section Nodes

variable (hw₀ : w₀.Coherent d) {s : SessionId} (hs : s < w₀.sessions.length)
  {given : List GraphNode}
include hw₀ hs

/-- The node of an enum may be kept, for it is made of a declared one. -/
theorem compileEnum_settles {e : EnumDef} (he : d.enums e) :
    Settles d host w₀ given (compileEnum s e) fun n ↦ [.enum n] := by
  refine .remember (fun _ ↦ [])
    (fun n ↦ n.id = .compiled s .enum e.key ∧ n.definition = e)
    hs (fun v ↦ ⟨?_, fun h ↦ ⟨e, he, rfl, h⟩⟩) ?_ ?_ (.refl hw₀)
  · rintro ⟨e', he', hk, h⟩
    exact d.enums_inj he' he hk ▸ h
  · refine .get (fun w hw ↦ by simp only [hw.registries]) ?_
    split
    · exact .throw nofun
    · exact .value rfl ⟨rfl, rfl⟩
  · rintro v w ⟨hid, rfl⟩ - -
    exact ⟨hid, he, rfl⟩

/-- The node of an interface may be kept, for its class is declared and registered. -/
theorem compileInterface_settles {c : ClassRef} (hc : d.classes c) :
    Settles d host w₀ given (compileInterface s c) fun n ↦ [.interface n] := by
  refine .remember (fun _ ↦ [])
    (fun n ↦ n.id = .compiled s .interface c.key ∧ n.cls = c ∧
      (w₀.registries s).isInterface c.key = true)
    hs (fun v ↦ ⟨?_, fun h ↦ ⟨c, hc, rfl, h⟩⟩) ?_ ?_ (.refl hw₀)
  · rintro ⟨c', hc', hk, h⟩
    exact d.classes_inj hc' hc hk ▸ h
  · refine .get (fun w hw ↦ by simp only [hw.registries]) ?_
    split
    · exact .throw nofun
    · rename_i spec hspec
      exact .value rfl ⟨rfl, rfl, OrderedMap.has_of_find hspec⟩
  · rintro v w ⟨hid, rfl, hr⟩ hg -
    exact ⟨hid, ⟨hc, rfl⟩, hg.registries s ▸ hr⟩

/-- A claimed interface settles as an interface does. -/
theorem compileClaimed_settles (cls : ClassRef) {i : ClassRef} (hi : d.classes i) :
    Settles d host w₀ given (compileClaimed s cls i) fun n ↦ [.interface n] := by
  refine .get (fun w hw ↦ by simp only [hw.registries]) ?_
  split
  · exact compileInterface_settles hw₀ hs hi
  · exact .throw nofun

/-- The node of an object type may be kept, for its interfaces are known before it. -/
theorem compileObject_settles {c : ClassRef} (hc : d.classes c) :
    Settles d host w₀ given (compileObject s c) fun n ↦ [.object n] := by
  refine .remember (fun n ↦ n.interfaces.map .interface)
    (fun n ↦ n.id = .compiled s .object c.key ∧ n.cls = some c ∧
      (w₀.registries s).isObject c.key = true)
    hs (fun v ↦ ⟨?_, fun h ↦ ⟨c, hc, rfl, h⟩⟩) ?_ ?_ (.refl hw₀)
  · rintro ⟨c', hc', hk, h⟩
    exact d.classes_inj hc' hc hk ▸ h
  · refine .get (fun w hw ↦ by simp only [hw.registries]) ?_
    dsimp only
    split
    · exact .throw nofun
    rename_i spec hspec
    split
    · exact .throw nofun
    have hclaims : ∀ i ∈ spec.implements, Settles d host w₀ [] (compileClaimed s c i)
        (fun n ↦ [.interface n]) := fun i hi ↦
      compileClaimed_settles hw₀ hs c
        ((hw₀.registries s).implements spec (OrderedMap.mem_values_of_find hspec) i hi)
    refine (Settles.mapM hclaims).bind fun interfaces _ ↦ .pure (fun n hn ↦ .inl ?_)
      ⟨rfl, rfl, OrderedMap.has_of_find hspec⟩
    obtain ⟨i, hi, rfl⟩ := List.mem_map.1 hn
    exact List.mem_append_left _ (List.mem_flatMap.2 ⟨i, hi, List.mem_singleton_self _⟩)
  · rintro v w ⟨hid, hcls, hr⟩ hg hn
    exact ⟨hid, ⟨c, hcls, hc, rfl⟩, hg.registries s ▸ hr,
      fun i hi ↦ hn _ (List.mem_map_of_mem hi)⟩

/-- A member of a union settles as an object type does. -/
theorem compileMember_settles (union : String) {m : ClassRef} (hm : d.classes m) :
    Settles d host w₀ given (compileMember s union m) fun n ↦ [.object n] := by
  refine .get (fun w hw ↦ by simp only [hw.registries]) ?_
  dsimp only
  split
  · exact .throw nofun
  · split
    · exact compileObject_settles hw₀ hs hm
    · exact .throw nofun

/-- The node of a union may be kept, for its members are known before it. -/
theorem compileUnion_settles {c : ClassRef} (hc : d.classes c) :
    Settles d host w₀ given (compileUnion s c) fun n ↦ [.union n] := by
  refine .remember (fun n ↦ n.members.map .object)
    (fun n ↦ n.id = .compiled s .union c.key ∧ n.cls = c ∧
      (w₀.registries s).isUnion c.key = true)
    hs (fun v ↦ ⟨?_, fun h ↦ ⟨c, hc, rfl, h⟩⟩) ?_ ?_ (.refl hw₀)
  · rintro ⟨c', hc', hk, h⟩
    exact d.classes_inj hc' hc hk ▸ h
  · refine .get (fun w hw ↦ by simp only [hw.registries]) ?_
    split
    · exact .throw nofun
    rename_i spec hspec
    have hmembers : ∀ m ∈ spec.members,
        Settles d host w₀ [] (compileMember s (spec.name.getD c.name) m)
          (fun n ↦ [.object n]) := fun m hm ↦
      compileMember_settles hw₀ hs _
        ((hw₀.registries s).members spec (OrderedMap.mem_values_of_find hspec) m hm)
    refine (Settles.mapM hmembers).bind fun members _ ↦ .pure (fun n hn ↦ .inl ?_)
      ⟨rfl, rfl, OrderedMap.has_of_find hspec⟩
    obtain ⟨m, hm, rfl⟩ := List.mem_map.1 hn
    exact List.mem_append_left _ (List.mem_flatMap.2 ⟨m, hm, List.mem_singleton_self _⟩)
  · rintro v w ⟨hid, rfl, hr⟩ hg hn
    exact ⟨hid, ⟨hc, rfl⟩, hg.registries s ▸ hr, fun m hm ↦ hn _ (List.mem_map_of_mem hm)⟩

/-- So may that of an input type. -/
theorem compileInput_settles {c : ClassRef} (hc : d.classes c) :
    Settles d host w₀ given (compileInput s c) fun n ↦ [.input n] := by
  refine .remember (fun _ ↦ [])
    (fun n ↦ n.id = .compiled s .input c.key ∧ n.cls = c ∧
      (w₀.registries s).isInput c.key = true)
    hs (fun v ↦ ⟨?_, fun h ↦ ⟨c, hc, rfl, h⟩⟩) ?_ ?_ (.refl hw₀)
  · rintro ⟨c', hc', hk, h⟩
    exact d.classes_inj hc' hc hk ▸ h
  · refine .get (fun w hw ↦ by simp only [hw.registries]) ?_
    dsimp only
    split
    · exact .throw nofun
    rename_i spec hspec
    split
    · exact .throw nofun
    · exact .value rfl ⟨rfl, rfl, OrderedMap.has_of_find hspec⟩
  · rintro v w ⟨hid, rfl, hr⟩ hg -
    exact ⟨hid, ⟨hc, rfl⟩, hg.registries s ▸ hr⟩

/-- A class settles in whichever role it is compiled. -/
theorem compileClass_settles {c : ClassRef} (hc : d.classes c) (argument : Bool) :
    Settles d host w₀ given (compileClass s c argument) fun n ↦ [n] := by
  refine .get (fun w hw ↦ by simp only [hw.registries]) ?_
  dsimp only
  split
  · exact (compileUnion_settles hw₀ hs hc).map (fun _ _ ↦ id) fun _ ↦ id
  split
  · exact (compileInterface_settles hw₀ hs hc).map (fun _ _ ↦ id) fun _ ↦ id
  split
  · exact (compileInput_settles hw₀ hs hc).map (fun _ _ ↦ id) fun _ ↦ id
  split
  · exact (compileObject_settles hw₀ hs hc).map (fun _ _ ↦ id) fun _ ↦ id
  · exact .throw nofun

/-! ## References -/

/-- By induction on how the reference is within declarations: its node is new, or is offered. -/
theorem resolveType_settles {t : TypeRef} (ht : t.Within d (w₀.Offers d)) (o : ResolveOptions) :
    Settles d host w₀ given (resolveType host s t o) fun t ↦ [t.node] := by
  induction ht generalizing o given with
  | node h =>
    rw [resolveType]
    refine .pure (fun n hn ↦ .inr ?_) trivial
    rw [o.node_wrap, List.mem_singleton] at hn
    exact hn ▸ h
  | scalar scalar =>
    rw [resolveType]
    refine .pure (fun n hn ↦ .inr ?_) trivial
    rw [o.node_wrap, List.mem_singleton] at hn
    exact hn ▸ w₀.offers_native scalar
  | cls h =>
    rw [resolveType]
    refine (compileClass_settles hw₀ hs h _).bind fun n _ ↦ .pure (fun m hm ↦ .inl ?_) trivial
    rw [o.node_wrap] at hm
    exact List.mem_append_left _ hm
  | enum h =>
    rw [resolveType]
    refine (compileEnum_settles hw₀ hs h).bind fun n _ ↦ .pure (fun m hm ↦ .inl ?_) trivial
    rw [o.node_wrap] at hm
    exact List.mem_append_left _ hm
  | @array items _ ih =>
    match items with
    | [item] =>
      rw [resolveType]
      refine (ih item (List.mem_singleton_self _) _).bind fun t _ ↦
        .pure (fun m hm ↦ .inl ?_) trivial
      rw [o.node_wrap] at hm
      exact List.mem_append_left _ hm
    | [] | _ :: _ :: _ =>
      rw [resolveType]
      · exact .throw nofun
      · nofun
  | thunk _ ih =>
    rw [resolveType]
    split
    · refine (Settles.ofHost ⟨(), fun _ ↦ rfl⟩).bind fun _ _ ↦ ?_
      split
      · exact .throw nofun
      · exact ih _
    · exact .throw nofun

end Nodes
end ApiGraph
