import ApiGraph.Proofs.Compile.Ensures
import ApiGraph.Schema.Assembly

/-!
# What may stand where

A field may not have an input type, and an argument or an input field may have nothing but a
scalar, an enum or an input type.  One class can be registered in all roles at once, a reference
can be explicit, inferred or deferred, and nodes can be handed in as they are; but whatever a
reference resolves to is looked at before a field is made of it, and nothing else makes fields.  So
the fields of all maps that are kept are in their places.

## What is here

* `GraphType.Normal`: no non-null type is made non-null again.
* `CompiledField.Placed`, `CompiledInputField.Placed`, `CompiledArg.Placed`: types that may stand
  where they stand.
* `Workspace.Placed`: an invariant of everything that the compiler does, from
  `compileEnum_placed` to `GraphNode.successors_placed`.
-/

set_option autoImplicit false

namespace ApiGraph

open Compile (Ensures)

variable {σ : Type}

/-! ## Types in their places -/

/-- No non-null type is made non-null again. -/
def GraphType.Normal : GraphType → Prop
  | .named _ => True
  | .nonNull inner => inner.isNonNull = false ∧ inner.Normal
  | .list item => item.Normal

/-- A type that is non-null already is left as it is. -/
theorem GraphType.Normal.required {t : GraphType} (h : t.Normal) : t.required.Normal := by
  cases t with
  | nonNull inner => exact h
  | named n | list item => exact ⟨rfl, h⟩

/-- So the options of a place keep a type normal. -/
theorem ResolveOptions.normal_wrap (o : ResolveOptions) {t : GraphType} (h : t.Normal) :
    (o.wrap t).Normal := by
  rw [wrap]
  split
  · exact h
  · exact h.required

/-- The type of an argument may stand where it stands. -/
structure CompiledArg.Placed (a : CompiledArg) : Prop where
  input : a.type.node.isInput = true
  normal : a.type.Normal

/-- The types of a field and of its arguments may stand where they stand. -/
structure CompiledField.Placed (f : CompiledField) : Prop where
  output : f.type.node.isOutput = true
  normal : f.type.Normal
  args : ∀ a ∈ OrderedMap.values f.args, a.Placed

/-- The type of an input field may stand where it stands. -/
structure CompiledInputField.Placed (f : CompiledInputField) : Prop where
  input : f.type.node.isInput = true
  normal : f.type.Normal

/-- Every field of a map is in its place. -/
def FieldMap.Placed (fields : FieldMap) : Prop := ∀ f ∈ OrderedMap.values fields, f.Placed

/-- Every input field of a map is in its place. -/
def InputMap.Placed (fields : InputMap) : Prop := ∀ f ∈ OrderedMap.values fields, f.Placed

/-- Every field of a map that a table keeps is in its place. -/
def CacheTable.Placed : (t : CacheTable) → t.Value → Prop
  | .objects, _ | .inputs, _ | .enums, _ | .unions, _ | .interfaces, _ => True
  | .objectFields, fields | .interfaceFields, fields => FieldMap.Placed fields
  | .inputFields, fields => InputMap.Placed fields

/-- Every field that a workspace keeps is in its place. -/
structure Workspace.Placed (w : Workspace σ) : Prop where
  entries : ∀ {s : SessionId} {t : CacheTable} {key : TypeKey} {v : t.Value},
    w.entry s t key = some v → t.Placed v
  roots : ∀ {key : Nat × Operation} {n : ObjectNode} {fields : FieldMap},
    OrderedMap.find w.roots key = some (n, fields) → FieldMap.Placed fields

namespace Workspace.Placed

variable {w : Workspace σ} {s : SessionId}

/-- Steps of the program keep no fields. -/
theorem ofHost (w : Workspace σ) (state : σ) (hw : w.Placed) : Placed { w with host := state } :=
  ⟨hw.entries, hw.roots⟩

/-- One more map of fields in their places. -/
theorem keep (hw : w.Placed) {t : CacheTable} {key : TypeKey} {v : t.Value} (hv : t.Placed v) :
    (w.keep s t key v).Placed := by
  refine ⟨fun {b u other x} hx ↦ ?_, hw.roots⟩
  by_cases heq : s = b ∧ t = u ∧ key = other
  · obtain ⟨rfl, rfl, rfl⟩ := heq
    have hs := lt_length_of_entry hx
    rw [Workspace.keep, modifyCache, length_modifySession] at hs
    rw [w.entry_keep_self hs] at hx
    exact Option.some.inj hx ▸ hv
  · exact hw.entries (w.entry_keep_of_ne heq v ▸ hx)

/-- A table that is filled with maps in their places gives such maps. -/
theorem remember {t : CacheTable} {key : TypeKey} {make : Compile σ t.Value}
    (hmake : Ensures Placed make t.Placed) :
    Ensures Placed (Compile.remember s t key make) t.Placed :=
  .remember (fun _ _ hw h ↦ hw.entries h) (fun _ _ hw hv ↦ hw.keep hv) hmake

end Workspace.Placed

open Workspace (Placed)

/-! ## Nodes -/

section Session

variable (s : SessionId)

/-- The table of enums has no fields to be in their places. -/
theorem compileEnum_placed (e : EnumDef) : Ensures (σ := σ) Placed (compileEnum s e) := by
  refine Placed.remember (t := .enums) (.get fun w _ ↦ ?_)
  split
  · exact .throw _
  · exact .pure trivial

/-- Nor has that of the interfaces, whose fields have a table of their own. -/
theorem compileInterface_placed (c : ClassRef) :
    Ensures (σ := σ) Placed (compileInterface s c) := by
  refine Placed.remember (t := .interfaces) (.get fun w _ ↦ ?_)
  split
  · exact .throw _
  · exact .pure trivial

/-- A claimed interface is one of these. -/
theorem compileClaimed_placed (c interface : ClassRef) :
    Ensures (σ := σ) Placed (compileClaimed s c interface) := by
  refine .get fun w _ ↦ ?_
  split
  · exact compileInterface_placed s interface
  · exact .throw _

/-- An object type fills the tables of object types and interfaces. -/
theorem compileObject_placed (c : ClassRef) : Ensures (σ := σ) Placed (compileObject s c) := by
  refine Placed.remember (t := .objects) (.get fun w _ ↦ ?_)
  dsimp only
  split
  · exact .throw _
  split
  · exact .throw _
  · exact (Ensures.mapM fun i _ ↦ compileClaimed_placed s c i).bind fun _ _ ↦ .pure trivial

/-- A member is an object type, or there is an error. -/
theorem compileMember_placed (union : String) (c : ClassRef) :
    Ensures (σ := σ) Placed (compileMember s union c) := by
  refine .get fun w _ ↦ ?_
  dsimp only
  split
  · exact .throw _
  split
  · exact compileObject_placed s c
  · exact .throw _

/-- A union fills the tables of its members and its own. -/
theorem compileUnion_placed (c : ClassRef) : Ensures (σ := σ) Placed (compileUnion s c) := by
  refine Placed.remember (t := .unions) (.get fun w _ ↦ ?_)
  split
  · exact .throw _
  · exact (Ensures.mapM fun m _ ↦ compileMember_placed s _ m).bind fun _ _ ↦ .pure trivial

/-- The node of an input type is made before its fields. -/
theorem compileInput_placed (c : ClassRef) : Ensures (σ := σ) Placed (compileInput s c) := by
  refine Placed.remember (t := .inputs) (.get fun w _ ↦ ?_)
  dsimp only
  split
  · exact .throw _
  split
  · exact .throw _
  · exact .pure trivial

/-- So no role of a class brings in fields. -/
theorem compileClass_placed (c : ClassRef) (argument : Bool) :
    Ensures (σ := σ) Placed (compileClass s c argument) := by
  refine .get fun w _ ↦ ?_
  dsimp only
  split
  · exact (compileUnion_placed s c).map fun _ _ ↦ trivial
  split
  · exact (compileInterface_placed s c).map fun _ _ ↦ trivial
  split
  · exact (compileInput_placed s c).map fun _ _ ↦ trivial
  split
  · exact (compileObject_placed s c).map fun _ _ ↦ trivial
  · exact .throw _

/-! ## References -/

variable (host : Host σ)

/-- Whatever a reference is, the type that it resolves to is normal. -/
theorem resolveType_placed (t : TypeRef) (o : ResolveOptions) :
    Ensures Placed (resolveType host s t o) GraphType.Normal := by
  induction t, o using resolveType.induct with
  | case1 node o =>
    rw [resolveType]
    exact .pure (o.normal_wrap trivial)
  | case2 scalar o =>
    rw [resolveType]
    exact .pure (o.normal_wrap trivial)
  | case3 item o ih =>
    rw [resolveType]
    exact ih.bind fun t ht ↦ .pure (o.normal_wrap ht)
  | case4 items o hitems =>
    match items with
    | [item] => exact absurd rfl (hitems item)
    | [] | _ :: _ :: _ =>
      rw [resolveType]
      · exact .throw _
      · nofun
  | case5 e o =>
    rw [resolveType]
    exact (compileEnum_placed s e).bind fun _ _ ↦ .pure (o.normal_wrap trivial)
  | case6 c o =>
    rw [resolveType]
    exact (compileClass_placed s c _).bind fun _ _ ↦ .pure (o.normal_wrap trivial)
  | case7 label target o ho ih =>
    rw [resolveType, if_pos ho]
    refine (Ensures.ofHost Placed.ofHost _).bind fun _ _ ↦ ?_
    split
    · exact .throw _
    · exact ih
  | case8 label target o ho =>
    rw [resolveType, if_neg ho]
    exact .throw _

/-! ## Fields -/

/-- An argument is made only after its node was found to be one for input. -/
theorem compileCallerArg_placed (owner : ClassRef) (property : String) (index : Nat)
    (param : Param) (arg : ArgSpec) :
    Ensures Placed (compileCallerArg host s owner property index param arg) fun r ↦
      r.1.Placed := by
  refine (Ensures.mk_pure _).bind fun t _ ↦ ?_
  refine ((resolveType_placed s host t _).tryCatch fun e ↦ .throw _).bind fun type ht ↦ ?_
  split
  · rename_i hinput
    refine .get fun w _ ↦ ?_
    exact (Ensures.ofHost Placed.ofHost _).bind fun _ _ ↦ .pure ⟨hinput, ht⟩
  · exact .throw _

/-- A parameter that becomes an argument becomes such an argument. -/
theorem compileParam_placed (owner : ClassRef) (spec : FieldSpec) (index : Nat) (param : Param) :
    Ensures Placed (compileParam host s owner spec index param) fun r ↦
      ∀ a ∈ r.1, a.Placed := by
  refine .get fun w _ ↦ ?_
  dsimp only
  split
  · exact .throw _
  · exact .pure nofun
  split
  · exact .pure nofun
  · refine (compileCallerArg_placed s host owner _ index param _).bind fun r hr ↦ .pure ?_
    rintro a ⟨⟩
    exact hr

/-- By induction on the parameters that are left, at any position. -/
theorem compileParams_placed (owner : ClassRef) (spec : FieldSpec) (index : Nat)
    (params : List Param) :
    Ensures Placed (compileParams host s owner spec index params) fun rs ↦
      ∀ r ∈ rs, ∀ a ∈ r.1, a.Placed := by
  induction params generalizing index with
  | nil => exact .pure (List.forall_mem_nil _)
  | cons p rest ih =>
    refine (compileParam_placed s host owner spec index p).bind fun one hone ↦ ?_
    exact (ih (index + 1)).bind fun others hothers ↦
      .pure (List.forall_mem_cons.2 ⟨hone, hothers⟩)

/-- The arguments by name are among those compiled, whichever of one name is kept. -/
theorem compileArgs_placed (owner : ClassRef) (spec : FieldSpec) :
    Ensures Placed (compileArgs host s owner spec) fun r ↦
      ∀ a ∈ OrderedMap.values r.1, a.Placed := by
  refine (compileParams_placed s host owner spec 0 spec.params).bind fun all hall ↦ .pure ?_
  intro a ha
  obtain ⟨e, he, rfl⟩ := List.mem_map.1 ha
  obtain ⟨a, hm, rfl⟩ := List.mem_map.1 (OrderedMap.mem_of_mem_ofEntries he)
  obtain ⟨r, hr, ha⟩ := List.mem_filterMap.1 hm
  exact hall r hr a ha

/-- A field is made only after its node was found to be one for output. -/
theorem compileField_placed (owner : ClassRef) (spec : FieldSpec) (root : Option Instance) :
    Ensures Placed (compileField host s owner spec root) CompiledField.Placed := by
  rw [compileField]
  split
  · exact .throw _
  refine ((resolveType_placed s host _ _).tryCatch fun e ↦ .throw _).bind fun type ht ↦ ?_
  split
  · rename_i houtput
    refine (compileArgs_placed s host owner spec).bind fun args hargs ↦ ?_
    refine .get fun w _ ↦ ?_
    dsimp only
    split
    · exact (Ensures.ofHost Placed.ofHost _).bind fun _ _ ↦ .pure ⟨houtput, ht, hargs⟩
    · exact .pure ⟨houtput, ht, hargs⟩
  · split <;> exact .throw _

/-- An input field is made only after its node was found to be one for input. -/
theorem compileInputField_placed (cls : ClassRef) (spec : InputFieldSpec) :
    Ensures Placed (compileInputField host s cls spec) CompiledInputField.Placed := by
  rw [compileInputField]
  split
  · exact .throw _
  refine ((resolveType_placed s host _ _).tryCatch fun e ↦ .throw _).bind fun type ht ↦ ?_
  split
  · rename_i hinput
    exact .pure ⟨hinput, ht⟩
  · exact .throw _

/-- A map compiled entry by entry has good values if every entry compiled has one. -/
theorem mapM_values {α ν : Type} {p : ν → Prop} {f : α → Compile σ (String × ν)} {l : List α}
    (h : ∀ a, Ensures Placed (f a) fun e ↦ p e.2) :
    Ensures Placed (l.mapM f) fun entries ↦ ∀ v ∈ OrderedMap.values entries, p v := by
  refine (Ensures.mapM fun a _ ↦ h a).weaken fun entries hentries v hv ↦ ?_
  obtain ⟨e, he, rfl⟩ := List.mem_map.1 hv
  exact hentries e he

/-- The map of a type that a table is to keep. -/
theorem compileFields_placed (cls : ClassRef) (walk : List ClassRef) :
    Ensures Placed (compileFields host s cls walk) FieldMap.Placed := by
  refine .get fun w _ ↦ ?_
  refine (Ensures.mk_pure _).bind fun declared _ ↦ ?_
  refine mapM_values fun e ↦ ?_
  exact (compileField_placed s host e.2.1 e.2.2 none).bind fun f hf ↦ .pure hf

/-- The map of an input type that a table is to keep. -/
theorem compileInputFields_placed (cls : ClassRef) :
    Ensures Placed (compileInputFields host s cls) InputMap.Placed := by
  refine .get fun w _ ↦ ?_
  refine mapM_values fun e ↦ ?_
  exact (compileInputField_placed s host cls e.2).bind fun f hf ↦ .pure hf

/-- The map of a root, which is kept with the roots. -/
theorem compileRootFields_placed (fields : OrderedMap String RootField) :
    Ensures Placed (compileRootFields host s fields) FieldMap.Placed := by
  refine mapM_values fun e ↦ ?_
  exact (compileField_placed s host e.2.owner e.2.spec _).bind fun f hf ↦ .pure hf

end Session

/-! ## The fields of a node -/

section Graph

variable (host : Host σ)

/-- The fields of a root were in their places when it was published, and still are. -/
theorem ObjectNode.fields_placed (n : ObjectNode) :
    Ensures Placed (n.fields host) FieldMap.Placed := by
  rw [ObjectNode.fields]
  split
  · exact Placed.remember (t := .objectFields)
      ((Ensures.requireOpen _).bind fun _ _ ↦ compileFields_placed _ host _ _)
  · refine .get fun w hw ↦ ?_
    split
    · rename_i hfind
      exact .pure (hw.roots hfind)
    · exact .throw _
  · exact .throw _

/-- An interface gives the map that its table keeps, or one that it may keep. -/
theorem InterfaceNode.fields_placed (n : InterfaceNode) :
    Ensures Placed (n.fields host) FieldMap.Placed := by
  rw [InterfaceNode.fields]
  split
  · exact Placed.remember (t := .interfaceFields)
      ((Ensures.requireOpen _).bind fun _ _ ↦ compileFields_placed _ host _ _)
  · exact .throw _

/-- An input type does so too. -/
theorem InputNode.fields_placed (n : InputNode) :
    Ensures Placed (n.fields host) InputMap.Placed := by
  rw [InputNode.fields]
  split
  · exact Placed.remember (t := .inputFields)
      ((Ensures.requireOpen _).bind fun _ _ ↦ compileInputFields_placed _ host _)
  · exact .throw _

/-- To look for the object types of an interface is to make nodes. -/
theorem InterfaceNode.implementations_placed (n : InterfaceNode) :
    Ensures (σ := σ) Placed n.implementations := by
  rw [InterfaceNode.implementations]
  split
  · refine (Ensures.requireOpen _).bind fun _ _ ↦ .get fun w _ ↦ ?_
    exact (Ensures.mapM fun c _ ↦ compileObject_placed _ c).weaken fun _ _ ↦ trivial
  · exact .throw _

/-- The step of the walk through the types, and so all that the walk does. -/
theorem GraphNode.successors_placed (n : GraphNode) :
    Ensures Placed (n.successors host) := by
  cases n with
  | object n => exact (n.fields_placed host).bind fun _ _ ↦ .pure trivial
  | interface n =>
    exact (n.fields_placed host).bind fun _ _ ↦ n.implementations_placed.bind fun _ _ ↦
      .pure trivial
  | input n => exact (n.fields_placed host).bind fun _ _ ↦ .pure trivial
  | union n | enum n | scalar n => exact .pure trivial

end Graph
end ApiGraph
