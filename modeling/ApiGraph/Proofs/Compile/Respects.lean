import ApiGraph.Proofs.Compile.Fields

/-!
# What compiling looks at

Compiling in a session looks at the registries of that session, at its tables, and at whether it is
open.  It changes the tables and runs steps of the program whose outcome does not depend on the
state of the program.  So workspaces that agree in these things cannot be told apart by it: from two
of them it comes to the same outcome, and it leaves two that agree again.

What the two are allowed to differ in depends on the use.  The relation between them is therefore a
parameter, of which only this is asked: that it is a congruence for compiling.

## What is here

* `Workspace.Congruence`: a relation of workspaces that agree for a session; `Workspace.Concord`,
  which is all that single fields need; and `Workspace.Accord`, which is all that nodes need.
* `Compile.Respects`: a computation that cannot tell related workspaces apart, with a rule for each
  way of putting computations together.
* `compileObject_respects` and its like for the other nodes, `resolveType_respects`,
  `compileField_respects`, `GraphNode.successors_respects`: all that the compiler does.
-/

set_option autoImplicit false

namespace ApiGraph

variable {σ α β : Type} {s : SessionId} {R : Workspace σ → Workspace σ → Prop}

/-- Two registries that differ at most in what belongs to fields, in roots and implementors, and in
how the same classes are registered as unions. -/
structure Registries.Alike (r r' : Registries) : Prop where
  objects : r'.objects = r.objects
  inputs : r'.inputs = r.inputs
  interfaces : r'.interfaces = r.interfaces
  enums : r'.enums = r.enums
  fields : r'.fields = r.fields
  inputFields : r'.inputFields = r.inputFields
  isUnion : ∀ key, r'.isUnion key = r.isUnion key

namespace Registries.Alike

variable {r r' : Registries}

theorem of_eq (h : r' = r) : r.Alike r' := by
  subst h
  exact ⟨rfl, rfl, rfl, rfl, rfl, rfl, fun _ ↦ rfl⟩

theorem isObject (h : r.Alike r') : r'.isObject = r.isObject := by
  funext key
  rw [Registries.isObject, Registries.isObject, h.objects]

theorem isInput (h : r.Alike r') : r'.isInput = r.isInput := by
  funext key
  rw [Registries.isInput, Registries.isInput, h.inputs]

theorem isInterface (h : r.Alike r') : r'.isInterface = r.isInterface := by
  funext key
  rw [Registries.isInterface, Registries.isInterface, h.interfaces]

theorem canMix (h : r.Alike r') : r'.canMix = r.canMix := by
  funext mixin
  rw [Registries.canMix, Registries.canMix, h.isObject, h.fields]

end Registries.Alike

/-- A relation of workspaces that agree in what compiling in a session looks at.  It survives what
compiling does to them. -/
structure Workspace.Congruence (s : SessionId) (R : Workspace σ → Workspace σ → Prop) :
    Prop where
  registries : ∀ {w v : Workspace σ}, R w v → v.registries s = w.registries s
  cache : ∀ {w v : Workspace σ}, R w v → v.cache s = w.cache s
  isOpen : ∀ {w v : Workspace σ}, R w v → v.isOpen s = w.isOpen s
  modifyCache : ∀ {w v : Workspace σ}, R w v → ∀ f, R (w.modifyCache s f) (v.modifyCache s f)
  ofHost : ∀ {w v : Workspace σ}, R w v → ∀ {α : Type} (step : StateM σ α),
    R { w with host := (step w.host).2 } { v with host := (step v.host).2 }

/-- A relation of workspaces that agree in what making nodes in a session looks at, unless these are
unions: of registries they need not have the same, and what steps of the program do to them does not
matter. -/
structure Workspace.Accord (s : SessionId) (R : Workspace σ → Workspace σ → Prop) : Prop where
  alike : ∀ {w v : Workspace σ}, R w v → (w.registries s).Alike (v.registries s)
  nodes : ∀ {w v : Workspace σ}, R w v → ∀ {t : CacheTable}, t.ofNodes = true →
    ∀ key, v.entry s t key = w.entry s t key
  keep : ∀ {w v : Workspace σ}, R w v → ∀ {t : CacheTable}, t.ofNodes = true →
    ∀ key x, R (w.keep s t key x) (v.keep s t key x)

/-- A relation of workspaces that agree in what making nodes and fields in a session looks at: that
is less, since field maps do not matter to it, nor whether the session is open. -/
structure Workspace.Concord (s : SessionId) (R : Workspace σ → Workspace σ → Prop) : Prop where
  registries : ∀ {w v : Workspace σ}, R w v → v.registries s = w.registries s
  nodes : ∀ {w v : Workspace σ}, R w v → ∀ {t : CacheTable}, t.ofNodes = true →
    ∀ key, v.entry s t key = w.entry s t key
  keep : ∀ {w v : Workspace σ}, R w v → ∀ {t : CacheTable}, t.ofNodes = true →
    ∀ key x, R (w.keep s t key x) (v.keep s t key x)
  ofHost : ∀ {w v : Workspace σ}, R w v → ∀ {α : Type} (step : StateM σ α),
    R { w with host := (step w.host).2 } { v with host := (step v.host).2 }

/-- A congruence agrees in all tables, so in those of nodes. -/
theorem Workspace.Congruence.concord (hR : Workspace.Congruence s R) : Workspace.Concord s R where
  registries := hR.registries
  nodes h t _ key := by rw [entry, entry, hR.cache h]
  keep h t _ key x := hR.modifyCache h (·.enter t key x)
  ofHost := hR.ofHost

/-- Equal registries differ in nothing. -/
theorem Workspace.Concord.accord (hR : Workspace.Concord s R) : Workspace.Accord s R where
  alike h := .of_eq (hR.registries h)
  nodes := hR.nodes
  keep := hR.keep

theorem Workspace.Congruence.accord (hR : Workspace.Congruence s R) : Workspace.Accord s R :=
  hR.concord.accord

theorem Workspace.Concord.unions (hR : Workspace.Concord s R) {w v : Workspace σ} (h : R w v) :
    (v.registries s).unions = (w.registries s).unions := by
  rw [hR.registries h]

namespace Compile

/-- A computation comes to the same outcome from related workspaces, and leaves related ones. -/
def Respects (R : Workspace σ → Workspace σ → Prop) (x : Compile σ α) : Prop :=
  ∀ w v, R w v → (x.runIn v).1 = (x.runIn w).1 ∧ R (x.runIn w).2 (x.runIn v).2

namespace Respects

protected theorem pure (a : α) : Respects R (pure a : Compile σ α) := fun _ _ h ↦ ⟨rfl, h⟩

protected theorem throw (e : CompileError) : Respects R (throw e : Compile σ α) :=
  fun _ _ h ↦ ⟨rfl, h⟩

theorem mk_pure (r : Except CompileError α) :
    Respects R (ExceptT.mk (pure r) : Compile σ α) :=
  fun _ _ h ↦ ⟨rfl, h⟩

/-- The second computation starts from related workspaces again. -/
theorem bind {x : Compile σ α} {f : α → Compile σ β} (hx : Respects R x)
    (hf : ∀ a, Respects R (f a)) : Respects R (x >>= f) := by
  intro w v h
  obtain ⟨hout, hR⟩ := hx w v h
  rcases hw : x.runIn w with ⟨e | a, w'⟩ <;> rcases hv : x.runIn v with ⟨r, v'⟩ <;>
    rw [hw, hv] at hout hR <;> cases hout
  · rw [runIn_bind_of_error hw, runIn_bind_of_error hv]
    exact ⟨rfl, hR⟩
  · rw [runIn_bind_of_ok hw, runIn_bind_of_ok hv]
    exact hf a w' v' hR

theorem map {x : Compile σ α} (hx : Respects R x) (f : α → β) : Respects R (f <$> x) := by
  rw [← bind_pure_comp]
  exact hx.bind fun a ↦ .pure _

/-- Whatever is read of a workspace must be the same in related ones. -/
protected theorem get {f : Workspace σ → Compile σ α} (hf : ∀ {w v}, R w v → f v = f w)
    (h : ∀ w, Respects R (f w)) : Respects R (get >>= f) := by
  intro w v hR
  rw [runIn_get_bind, runIn_get_bind, hf hR]
  exact h w w v hR

/-- Item by item. -/
theorem mapM {f : α → Compile σ β} (h : ∀ a, Respects R (f a)) (l : List α) :
    Respects R (l.mapM f) := by
  induction l with
  | nil => exact .pure _
  | cons a rest ih =>
    rw [List.mapM_cons]
    exact (h a).bind fun _ ↦ ih.bind fun _ ↦ .pure _

theorem foldlM {f : β → α → Compile σ β} (h : ∀ b a, Respects R (f b a)) (l : List α) (b : β) :
    Respects R (l.foldlM f b) := by
  induction l generalizing b with
  | nil => exact .pure _
  | cons a rest ih =>
    rw [List.foldlM_cons]
    exact (h b a).bind ih

/-- To give an error another form is to leave the workspace alone. -/
theorem tryCatch_throw {x : Compile σ α} (hx : Respects R x) (g : CompileError → CompileError) :
    Respects R (tryCatch x fun e ↦ throw (g e)) := by
  intro w v h
  obtain ⟨hout, hR⟩ := hx w v h
  rcases hw : x.runIn w with ⟨e | a, w'⟩ <;> rcases hv : x.runIn v with ⟨r, v'⟩ <;>
    rw [hw, hv] at hout hR <;> cases hout
  · rw [runIn_tryCatch_of_error hw, runIn_tryCatch_of_error hv]
    exact ⟨rfl, hR⟩
  · rw [runIn_tryCatch_of_ok hw, runIn_tryCatch_of_ok hv]
    exact ⟨rfl, hR⟩

/-- A step of the program whose outcome does not depend on the state of the program. -/
theorem ofHost {step : StateM σ α} (h : ∃ a, ∀ st, (step st).1 = a)
    (hR : ∀ {w v : Workspace σ}, R w v →
      R { w with host := (step w.host).2 } { v with host := (step v.host).2 }) :
    Respects R (Compile.ofHost step) := by
  obtain ⟨a, h⟩ := h
  intro w v hwv
  rw [runIn_ofHost, runIn_ofHost, h, h]
  exact ⟨rfl, hR hwv⟩

section Congruence

variable (hR : Workspace.Congruence s R)
include hR

/-- Related workspaces have the session open alike. -/
theorem requireOpen : Respects R (requireOpen s) := by
  refine .get (fun h ↦ by rw [hR.isOpen h]) fun w ↦ ?_
  split
  · exact .pure _
  · exact .throw _

/-- Tables that are the same have the same under a key, and are filled with the same. -/
theorem remember {t : CacheTable} {key : TypeKey} {make : Compile σ t.Value}
    (hmake : Respects R make) : Respects R (remember s t key make) := by
  refine .get (fun h ↦ by rw [hR.cache h]) fun w ↦ ?_
  cases OrderedMap.find ((w.cache s).table t) key with
  | some known => exact .pure known
  | none =>
    have hkeep (v : t.Value) :
        Respects R (modify fun w ↦ w.modifyCache s (·.enter t key v) : Compile σ Unit) :=
      fun _ _ h ↦ ⟨rfl, hR.modifyCache h (·.enter t key v)⟩
    exact hmake.bind fun v ↦ (hkeep v).bind fun _ ↦ .pure v

end Congruence

/-- A table of nodes is filled alike. -/
theorem rememberNode (hR : Workspace.Accord s R) {t : CacheTable} (ht : t.ofNodes = true)
    {key : TypeKey} {make : Compile σ t.Value} (hmake : Respects R make) :
    Respects R (Compile.remember s t key make) := by
  intro w v h
  have hsame := hR.nodes h ht key
  cases hentry : w.entry s t key with
  | some known =>
    rw [runIn_remember_of_entry hentry, runIn_remember_of_entry (hsame.trans hentry)]
    exact ⟨rfl, h⟩
  | none =>
    rw [runIn_remember_of_none hentry, runIn_remember_of_none (hsame.trans hentry)]
    obtain ⟨hout, hrel⟩ := hmake w v h
    rcases hw : make.runIn w with ⟨e | a, w'⟩ <;> rcases hv : make.runIn v with ⟨r, v'⟩ <;>
      rw [hw, hv] at hout hrel <;> cases hout
    · exact ⟨rfl, hrel⟩
    · exact ⟨rfl, hR.keep hrel ht key a⟩

end Respects
end Compile

open Compile (Respects)

section Nodes

variable (hR : Workspace.Accord s R)
include hR

/-! ## Nodes -/

/-- An enum is looked up in its registry only. -/
theorem compileEnum_respects (e : EnumDef) : Respects R (compileEnum s e) := by
  refine .rememberNode hR rfl (.get (fun h ↦ by rw [(hR.alike h).enums]) fun w ↦ ?_)
  cases OrderedMap.find (w.registries s).enums e.key with
  | none => exact .throw _
  | some spec => exact .pure _

/-- So is an interface. -/
theorem compileInterface_respects (c : ClassRef) : Respects R (compileInterface s c) := by
  refine .rememberNode hR rfl (.get (fun h ↦ by rw [(hR.alike h).interfaces]) fun w ↦ ?_)
  cases OrderedMap.find (w.registries s).interfaces c.key with
  | none => exact .throw _
  | some spec => exact .pure _

/-- A claimed interface is looked up in the same registry. -/
theorem compileClaimed_respects (c interface : ClassRef) :
    Respects R (compileClaimed s c interface) := by
  refine .get (fun h ↦ by rw [(hR.alike h).isInterface]) fun w ↦ ?_
  split
  · exact compileInterface_respects hR interface
  · exact .throw _

/-- An object type looks at registered object types, at mixins and at interfaces. -/
theorem compileObject_respects (c : ClassRef) : Respects R (compileObject s c) := by
  refine .rememberNode hR rfl
    (.get (fun h ↦ by simp only [(hR.alike h).objects, (hR.alike h).canMix]) fun w ↦ ?_)
  dsimp only
  split
  · exact .throw _
  split
  · exact .throw _
  · exact (Respects.mapM (compileClaimed_respects hR c) _).bind fun _ ↦ .pure _

/-- A member looks at the roles of its class, among which is whether it is a union. -/
theorem compileMember_respects (union : String) (c : ClassRef) :
    Respects R (compileMember s union c) := by
  refine .get (fun h ↦ by
    simp only [(hR.alike h).isUnion, (hR.alike h).isInterface, (hR.alike h).isObject]) fun w ↦ ?_
  dsimp only
  split
  · exact .throw _
  split
  · exact compileObject_respects hR c
  · exact .throw _

/-- An input type looks at whether its lineage has input fields. -/
theorem compileInput_respects (c : ClassRef) : Respects R (compileInput s c) := by
  refine .rememberNode hR rfl
    (.get (fun h ↦ by simp only [(hR.alike h).inputs, (hR.alike h).inputFields]) fun w ↦ ?_)
  dsimp only
  split
  · exact .throw _
  split
  · exact .throw _
  · exact .pure _

variable (hunions : ∀ {w v : Workspace σ}, R w v →
  (v.registries s).unions = (w.registries s).unions)
include hunions

/-- A union alone looks at how it is registered as one, hence the assumption. -/
theorem compileUnion_respects (c : ClassRef) : Respects R (compileUnion s c) := by
  refine .rememberNode hR rfl (.get (fun h ↦ by rw [hunions h]) fun w ↦ ?_)
  cases OrderedMap.find (w.registries s).unions c.key with
  | none => exact .throw _
  | some spec => exact (Respects.mapM (compileMember_respects hR _) _).bind fun _ ↦ .pure _

/-- A class may be a union, so the assumption is inherited. -/
theorem compileClass_respects (c : ClassRef) (argument : Bool) :
    Respects R (compileClass s c argument) := by
  refine .get (fun h ↦ by
    simp only [(hR.alike h).isUnion, (hR.alike h).isInterface, (hR.alike h).isInput,
      (hR.alike h).isObject]) fun w ↦ ?_
  dsimp only
  split
  · exact (compileUnion_respects hR hunions c).map _
  split
  · exact (compileInterface_respects hR c).map _
  split
  · exact (compileInput_respects hR c).map _
  split
  · exact (compileObject_respects hR c).map _
  · exact .throw _

end Nodes

section Session

variable (hR : Workspace.Concord s R)
include hR

/-! ## References -/

variable (host : Host σ)

/-- The induction is that of the reference.  What forcing a deferred one does to the state of the
program may differ, but there is only one outcome of it. -/
theorem resolveType_respects (t : TypeRef) (o : ResolveOptions) :
    Respects R (resolveType host s t o) := by
  fun_induction resolveType host s t o with
  | case1 | case2 => exact .pure _
  | case3 item o ih => exact ih.bind fun _ ↦ .pure _
  | case4 => exact .throw _
  | case5 e o => exact (compileEnum_respects hR.accord e).bind fun _ ↦ .pure _
  | case6 c o => exact (compileClass_respects hR.accord hR.unions c _).bind fun _ ↦ .pure _
  | case7 label target o ho ih =>
    refine (Respects.ofHost ⟨(), fun _ ↦ rfl⟩ fun h ↦ hR.ofHost h _).bind fun _ ↦ ?_
    split
    · exact .throw _
    · exact ih
  | case8 => exact .throw _

/-! ## Fields -/

/-- A plan does not depend on the state of the program. -/
theorem castPlan_respects (r : Registries) (t : TypeRef) :
    Respects R (Compile.ofHost (castPlan host r t)) :=
  .ofHost (castPlan_eq host r t) fun h ↦ hR.ofHost h _

/-- The plan of an argument looks at which classes are interfaces. -/
theorem compileCallerArg_respects (owner : ClassRef) (property : String) (index : Nat)
    (param : Param) (arg : ArgSpec) :
    Respects R (compileCallerArg host s owner property index param arg) := by
  refine (Respects.mk_pure _).bind fun t ↦ ?_
  refine ((resolveType_respects hR host t _).tryCatch_throw _).bind fun type ↦ ?_
  split
  · refine .get (fun h ↦ by rw [hR.registries h]) fun w ↦ ?_
    exact (castPlan_respects hR host _ t).bind fun _ ↦ .pure _
  · exact .throw _

/-- A parameter looks at what is registered for its position. -/
theorem compileParam_respects (owner : ClassRef) (spec : FieldSpec) (index : Nat)
    (param : Param) : Respects R (compileParam host s owner spec index param) := by
  refine .get (fun h ↦ by rw [hR.registries h]) fun w ↦ ?_
  dsimp only
  split
  · exact .throw _
  · exact .pure _
  split
  · exact .pure _
  · exact (compileCallerArg_respects hR host owner _ index param _).bind fun _ ↦ .pure _

/-- By induction on the parameters that are left, at any position. -/
theorem compileParams_respects (owner : ClassRef) (spec : FieldSpec) (index : Nat)
    (params : List Param) : Respects R (compileParams host s owner spec index params) := by
  induction params generalizing index with
  | nil => exact .pure _
  | cons p rest ih =>
    exact (compileParam_respects hR host owner spec index p).bind fun _ ↦
      (ih (index + 1)).bind fun _ ↦ .pure _

/-- Putting the arguments together looks at nothing. -/
theorem compileArgs_respects (owner : ClassRef) (spec : FieldSpec) :
    Respects R (compileArgs host s owner spec) :=
  (compileParams_respects hR host owner spec 0 spec.params).bind fun _ ↦ .pure _

/-- A field looks at what its type, its arguments and its plan look at, and at its hooks. -/
theorem compileField_respects (owner : ClassRef) (spec : FieldSpec) (root : Option Instance) :
    Respects R (compileField host s owner spec root) := by
  rw [compileField]
  split
  · exact .throw _
  refine ((resolveType_respects hR host _ _).tryCatch_throw _).bind fun type ↦ ?_
  split
  · refine (compileArgs_respects hR host owner spec).bind fun args ↦ ?_
    refine .get (fun h ↦ by rw [hR.registries h]) fun w ↦ ?_
    dsimp only
    split
    · exact (castPlan_respects hR host _ _).bind fun _ ↦ .pure _
    · exact .pure _
  · split <;> exact .throw _

/-- An input field looks at what its type looks at. -/
theorem compileInputField_respects (cls : ClassRef) (spec : InputFieldSpec) :
    Respects R (compileInputField host s cls spec) := by
  rw [compileInputField]
  split
  · exact .throw _
  refine ((resolveType_respects hR host _ _).tryCatch_throw _).bind fun type ↦ ?_
  split
  · exact .pure _
  · exact .throw _

/-- The fields of a type look at what is declared on its walk. -/
theorem compileFields_respects (cls : ClassRef) (walk : List ClassRef) :
    Respects R (compileFields host s cls walk) := by
  refine .get (fun h ↦ by rw [hR.registries h]) fun w ↦ ?_
  refine (Respects.mk_pure _).bind fun declared ↦ .mapM (fun e ↦ ?_) _
  exact (compileField_respects hR host e.2.1 e.2.2 none).bind fun _ ↦ .pure _

/-- The input fields of a type look at what is declared in its lineage. -/
theorem compileInputFields_respects (cls : ClassRef) :
    Respects R (compileInputFields host s cls) := by
  refine .get (fun h ↦ by rw [hR.registries h]) fun w ↦ ?_
  refine .mapM (fun e ↦ ?_) _
  exact (compileInputField_respects hR host cls e.2).bind fun _ ↦ .pure _

/-- The fields of a root have been gathered before, so only compiling them looks at anything. -/
theorem compileRootFields_respects (fields : OrderedMap String RootField) :
    Respects R (compileRootFields host s fields) := by
  refine Respects.mapM (fun e ↦ ?_) fields
  exact (compileField_respects hR host e.2.owner e.2.spec _).bind fun _ ↦ .pure _

end Session

/-! ## The fields of a node -/

section Graph

variable (hR : ∀ s, Workspace.Congruence s R) (host : Host σ)
include hR

/-- The fields of a root are found among the roots of the workspace. -/
theorem ObjectNode.fields_respects {n : ObjectNode}
    (hroot : ∀ {serial operation}, n.id = .root serial operation → ∀ {w v : Workspace σ}, R w v →
      OrderedMap.find v.roots (serial, operation) = OrderedMap.find w.roots (serial, operation)) :
    Respects R (n.fields host) := by
  cases hid : n.id with
  | root serial operation =>
    rw [ObjectNode.fields_root hid]
    refine .get (fun h ↦ by rw [hroot hid h]) fun w ↦ ?_
    split
    · exact .pure _
    · exact .throw _
  | compiled s role key =>
    cases hcls : n.cls with
    | some c =>
      rw [ObjectNode.fields, hid, hcls]
      exact .remember (hR s) ((Respects.requireOpen (hR s)).bind fun _ ↦
        compileFields_respects (hR s).concord host c _)
    | none =>
      rw [ObjectNode.fields, hid, hcls]
      exact .throw _
  | native | custom =>
    rw [ObjectNode.fields, hid]
    exact .throw _

/-- An interface looks at its table, then at whether its session is open. -/
theorem InterfaceNode.fields_respects (n : InterfaceNode) : Respects R (n.fields host) := by
  rw [InterfaceNode.fields]
  split
  · exact .remember (hR _) ((Respects.requireOpen (hR _)).bind fun _ ↦
      compileFields_respects (hR _).concord host n.cls _)
  · exact .throw _

/-- So does an input type. -/
theorem InputNode.fields_respects (n : InputNode) : Respects R (n.fields host) := by
  rw [InputNode.fields]
  split
  · exact .remember (hR _) ((Respects.requireOpen (hR _)).bind fun _ ↦
      compileInputFields_respects (hR _).concord host n.cls)
  · exact .throw _

/-- An interface looks at who claims it. -/
theorem InterfaceNode.implementations_respects (n : InterfaceNode) :
    Respects R n.implementations := by
  rw [InterfaceNode.implementations]
  split
  · refine (Respects.requireOpen (hR _)).bind fun _ ↦ ?_
    refine .get (fun h ↦ by rw [(hR _).registries h]) fun w ↦ ?_
    exact .mapM (compileObject_respects (hR _).accord) _
  · exact .throw _

/-- The step of the walk through the types. -/
theorem GraphNode.successors_respects {n : GraphNode}
    (hroot : ∀ {serial operation}, n.id = .root serial operation → ∀ {w v : Workspace σ}, R w v →
      OrderedMap.find v.roots (serial, operation) = OrderedMap.find w.roots (serial, operation)) :
    Respects R (n.successors host) := by
  cases n with
  | object n => exact (ObjectNode.fields_respects hR host hroot).bind fun _ ↦ .pure _
  | interface n =>
    exact (n.fields_respects hR host).bind fun _ ↦ (n.implementations_respects hR).bind fun _ ↦
      .pure _
  | input n => exact (n.fields_respects hR host).bind fun _ ↦ .pure _
  | union n | enum n | scalar n => exact .pure _

end Graph
end ApiGraph
