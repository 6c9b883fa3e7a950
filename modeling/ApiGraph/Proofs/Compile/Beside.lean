import ApiGraph.Proofs.Compile.Respects
import ApiGraph.Schema.Assembly

/-!
# Compiling beside more state

The state of the program may have a part which compiling leaves alone.  A compilation is then the
one that it is without that part: it comes to the same outcome, it leaves the same workspace, and it
carries the part along as it was.  The only steps of the program that compiling runs on its own are
those that take note of a deferred reference being forced, so nothing else is asked of the program.

## What is here

* `Workspace.beside`: a workspace whose program has one more part in its state.
* `Compile.Beside`: a computation that is another one and leaves the part alone, with a rule for
  each way of putting computations together.
* `compileField_beside`, `collectTypes_beside`, and what they are made of.
-/

set_option autoImplicit false

namespace ApiGraph

variable {σ T α β : Type}

/-- A workspace in which the state of the program has one more part. -/
def Workspace.beside (w : Workspace σ) (t : T) : Workspace (σ × T) where
  sessions := w.sessions
  roots := w.roots
  nextSchema := w.nextSchema
  nextExecutable := w.nextExecutable
  nextCall := w.nextCall
  host := (w.host, t)

/-- A step that knows nothing of the other part of a state. -/
def aside (x : StateM σ α) : StateM (σ × T) α := fun st ↦ ((x st.1).1, (x st.1).2, st.2)

namespace Workspace

variable (w : Workspace σ) (t : T)

@[simp] theorem registries_beside (s : SessionId) :
    (w.beside t).registries s = w.registries s := rfl

@[simp] theorem cache_beside (s : SessionId) : (w.beside t).cache s = w.cache s := rfl

@[simp] theorem isOpen_beside (s : SessionId) : (w.beside t).isOpen s = w.isOpen s := rfl

@[simp] theorem session_beside (s : SessionId) : (w.beside t).session s = w.session s := rfl

@[simp] theorem roots_beside : (w.beside t).roots = w.roots := rfl

@[simp] theorem nextSchema_beside : (w.beside t).nextSchema = w.nextSchema := rfl

@[simp] theorem typeCount_beside : (w.beside t).typeCount = w.typeCount := rfl

end Workspace

namespace Compile

/-- A computation is another one, beside a part of the state that it leaves alone. -/
def Beside (x : Compile (σ × T) α) (y : Compile σ α) : Prop :=
  ∀ (w : Workspace σ) (t : T), x.runIn (w.beside t) = ((y.runIn w).1, (y.runIn w).2.beside t)

namespace Beside

protected theorem pure (a : α) : Beside (pure a : Compile (σ × T) α) (pure a) := fun _ _ ↦ rfl

protected theorem throw (e : CompileError) : Beside (throw e : Compile (σ × T) α) (throw e) :=
  fun _ _ ↦ rfl

theorem mk_pure (r : Except CompileError α) :
    Beside (ExceptT.mk (pure r) : Compile (σ × T) α) (ExceptT.mk (pure r)) :=
  fun _ _ ↦ rfl

/-- The second computation starts beside the part that the first one has left alone. -/
theorem bind {x : Compile (σ × T) α} {y : Compile σ α} (h : Beside x y)
    {f : α → Compile (σ × T) β} {g : α → Compile σ β} (hf : ∀ a, Beside (f a) (g a)) :
    Beside (x >>= f) (y >>= g) := by
  intro w t
  have hx := h w t
  rcases hy : y.runIn w with ⟨e | a, w'⟩ <;> rw [hy] at hx
  · rw [runIn_bind_of_error hx, runIn_bind_of_error hy]
  · rw [runIn_bind_of_ok hx, runIn_bind_of_ok hy]
    exact hf a w' t

theorem map {x : Compile (σ × T) α} {y : Compile σ α} (h : Beside x y) (f : α → β) :
    Beside (f <$> x) (f <$> y) := by
  rw [← bind_pure_comp, ← bind_pure_comp]
  exact h.bind fun _ ↦ .pure _

/-- What is read of the workspace must not be read of the other part of the state. -/
protected theorem get {f : Workspace (σ × T) → Compile (σ × T) α} {g : Workspace σ → Compile σ α}
    (h : ∀ w t, Beside (f (w.beside t)) (g w)) : Beside (get >>= f) (get >>= g) := by
  intro w t
  rw [runIn_get_bind, runIn_get_bind]
  exact h w t w t

protected theorem modify {f : Workspace (σ × T) → Workspace (σ × T)}
    {g : Workspace σ → Workspace σ} (h : ∀ w t, f (w.beside t) = (g w).beside t) :
    Beside (modify f : Compile (σ × T) Unit) (modify g) := by
  intro w t
  rw [runIn_modify, runIn_modify, h]

theorem ite {c : Prop} [Decidable c] {x x' : Compile (σ × T) α} {y y' : Compile σ α}
    (h : Beside x y) (h' : Beside x' y') :
    Beside (if c then x else x') (if c then y else y') := by
  split
  · exact h
  · exact h'

/-- A failure is caught in the workspace that it leaves, beside the same part. -/
theorem tryCatch {x : Compile (σ × T) α} {y : Compile σ α} (h : Beside x y)
    {f : CompileError → Compile (σ × T) α} {g : CompileError → Compile σ α}
    (hf : ∀ e, Beside (f e) (g e)) : Beside (tryCatch x f) (tryCatch y g) := by
  intro w t
  have hx := h w t
  rcases hy : y.runIn w with ⟨e | a, w'⟩ <;> rw [hy] at hx
  · rw [runIn_tryCatch_of_error hx, runIn_tryCatch_of_error hy]
    exact hf e w' t
  · rw [runIn_tryCatch_of_ok hx, runIn_tryCatch_of_ok hy]

/-- Item by item. -/
theorem mapM {f : α → Compile (σ × T) β} {g : α → Compile σ β} (h : ∀ a, Beside (f a) (g a))
    (l : List α) : Beside (l.mapM f) (l.mapM g) := by
  induction l with
  | nil => exact .pure _
  | cons a rest ih =>
    rw [List.mapM_cons, List.mapM_cons]
    exact (h a).bind fun _ ↦ ih.bind fun _ ↦ .pure _

/-- A step of the program may be run if it knows nothing of the part. -/
protected theorem ofHost {x : StateM (σ × T) α} {y : StateM σ α} (h : x = aside y) :
    Beside (ofHost x) (ofHost y) :=
  fun _ _ ↦ h ▸ rfl

theorem requireOpen (s : SessionId) :
    Beside (T := T) (requireOpen s) (requireOpen s : Compile σ Unit) :=
  .get fun _ _ ↦ .ite (.pure _) (.throw _)

/-- What a table keeps for a key does not depend on the part, nor does what it then lacks. -/
theorem remember {s : SessionId} {t : CacheTable} {key : TypeKey}
    {x : Compile (σ × T) t.Value} {y : Compile σ t.Value} (h : Beside x y) :
    Beside (remember s t key x) (remember s t key y) := by
  refine .get fun w t' ↦ ?_
  dsimp only [Workspace.cache_beside]
  cases OrderedMap.find ((w.cache s).table t) key with
  | some known => exact .pure known
  | none => exact h.bind fun _ ↦ (Beside.modify fun _ _ ↦ rfl).bind fun _ ↦ .pure _

end Beside
end Compile

open Compile (Beside)

/-! ## Nodes -/

section Nodes

variable (s : SessionId)

/-- An enum is compiled from its registration alone. -/
theorem compileEnum_beside (e : EnumDef) :
    Beside (T := T) (compileEnum s e) (compileEnum s e : Compile σ EnumNode) := by
  refine .remember (.get fun w t ↦ ?_)
  dsimp only [Workspace.registries_beside]
  cases OrderedMap.find (w.registries s).enums e.key with
  | none => exact .throw _
  | some spec => exact .pure _

/-- So is an interface, whose fields are compiled later. -/
theorem compileInterface_beside (c : ClassRef) :
    Beside (T := T) (compileInterface s c) (compileInterface s c : Compile σ InterfaceNode) := by
  refine .remember (.get fun w t ↦ ?_)
  dsimp only [Workspace.registries_beside]
  cases OrderedMap.find (w.registries s).interfaces c.key with
  | none => exact .throw _
  | some spec => exact .pure _

/-- An interface that an object type claims is compiled if it is registered as one. -/
theorem compileClaimed_beside (c interface : ClassRef) :
    Beside (T := T) (compileClaimed s c interface)
      (compileClaimed s c interface : Compile σ InterfaceNode) :=
  .get fun _ _ ↦ .ite (compileInterface_beside s interface) (.throw _)

/-- An object type asks its registry for mixins, and compiles the interfaces that it claims. -/
theorem compileObject_beside (c : ClassRef) :
    Beside (T := T) (compileObject s c) (compileObject s c : Compile σ ObjectNode) := by
  refine .remember (.get fun w t ↦ ?_)
  dsimp only [Workspace.registries_beside]
  cases OrderedMap.find (w.registries s).objects c.key with
  | none => exact .throw _
  | some spec =>
    dsimp only
    cases spec.mixins.find? fun m ↦ !(w.registries s).canMix m with
    | some mixin => exact .throw _
    | none => exact (Beside.mapM (compileClaimed_beside s c) _).bind fun _ ↦ .pure _

/-- Whether a class may be a member is asked of the registries. -/
theorem compileMember_beside (union : String) (c : ClassRef) :
    Beside (T := T) (compileMember s union c) (compileMember s union c : Compile σ ObjectNode) :=
  .get fun _ _ ↦ .ite (.throw _) (.ite (compileObject_beside s c) (.throw _))

/-- A union compiles its members in order. -/
theorem compileUnion_beside (c : ClassRef) :
    Beside (T := T) (compileUnion s c) (compileUnion s c : Compile σ UnionNode) := by
  refine .remember (.get fun w t ↦ ?_)
  dsimp only [Workspace.registries_beside]
  cases OrderedMap.find (w.registries s).unions c.key with
  | none => exact .throw _
  | some spec => exact (Beside.mapM (compileMember_beside s _) _).bind fun _ ↦ .pure _

/-- An input type asks its registry whether there are input fields in its lineage. -/
theorem compileInput_beside (c : ClassRef) :
    Beside (T := T) (compileInput s c) (compileInput s c : Compile σ InputNode) := by
  refine .remember (.get fun w t ↦ ?_)
  dsimp only [Workspace.registries_beside]
  cases OrderedMap.find (w.registries s).inputs c.key with
  | none => exact .throw _
  | some spec => exact .ite (.throw _) (.pure _)

/-- In which role a class is compiled is asked of the registries. -/
theorem compileClass_beside (c : ClassRef) (argument : Bool) :
    Beside (T := T) (compileClass s c argument) (compileClass s c argument : Compile σ GraphNode) :=
  .get fun _ _ ↦
    .ite ((compileUnion_beside s c).map _) <| .ite ((compileInterface_beside s c).map _) <|
      .ite ((compileInput_beside s c).map _) <| .ite ((compileObject_beside s c).map _) (.throw _)

end Nodes

/-! ## Types and fields -/

section Host

variable {host : Host σ} {host' : Host (σ × T)}
  (hforced : ∀ label, host'.forced label = aside (host.forced label))
include hforced

/-- The induction is that of the reference.  Only a deferred one runs a step of the program, and
there the assumption on the two programs is used. -/
theorem resolveType_beside (s : SessionId) (t : TypeRef) (o : ResolveOptions) :
    Beside (resolveType host' s t o) (resolveType host s t o) := by
  fun_induction resolveType host s t o with
  | case1 | case2 =>
    rw [resolveType]
    exact .pure _
  | case3 item o ih =>
    rw [resolveType]
    exact ih.bind fun _ ↦ .pure _
  | case4 items o hitems =>
    rw [resolveType]
    · exact .throw _
    · exact hitems
  | case5 e o =>
    rw [resolveType]
    exact (compileEnum_beside s e).bind fun _ ↦ .pure _
  | case6 c o =>
    rw [resolveType]
    exact (compileClass_beside s c _).bind fun _ ↦ .pure _
  | case7 label target o ho ih =>
    rw [resolveType, if_pos ho]
    exact (Beside.ofHost (hforced label)).bind fun _ ↦ .ite (.throw _) ih
  | case8 label target o ho =>
    rw [resolveType, if_neg ho]
    exact .throw _

/-- A plan is computed by the program alone, and nothing but forcing touches its state. -/
theorem castPlan_aside (r : Registries) (t : TypeRef) :
    castPlan host' r t = aside (castPlan host r t) := by
  fun_induction castPlan host r t with
  | case1 | case2 => rfl
  | case3 item hitem ih =>
    rw [castPlan, ih]
    · rfl
    · exact hitem
  | case4 items hcls hitem =>
    rw [castPlan]
    · rfl
    · exact hcls
    · exact hitem
  | case5 label target ih =>
    rw [castPlan, hforced, ih]
    split <;> rfl
  | case6 | case7 | case8 => rfl

/-- An argument runs two such computations, for its type and for its plan. -/
theorem compileCallerArg_beside (s : SessionId) (owner : ClassRef) (property : String)
    (index : Nat) (param : Param) (arg : ArgSpec) :
    Beside (compileCallerArg host' s owner property index param arg)
      (compileCallerArg host s owner property index param arg) := by
  refine (Beside.mk_pure _).bind fun t ↦ ?_
  refine ((resolveType_beside hforced s t _).tryCatch fun _ ↦ .throw _).bind fun type ↦ ?_
  refine .ite (.get fun w _ ↦ ?_) (.throw _)
  exact (Beside.ofHost (castPlan_aside hforced (w.registries s) t)).bind fun _ ↦ .pure _

/-- What a parameter becomes is looked up under its position, in the registries of both. -/
theorem compileParam_beside (s : SessionId) (owner : ClassRef) (spec : FieldSpec) (index : Nat)
    (param : Param) :
    Beside (compileParam host' s owner spec index param)
      (compileParam host s owner spec index param) := by
  refine .get fun w _ ↦ ?_
  have hcaller (arg : ArgSpec) :=
    compileCallerArg_beside hforced s owner spec.property index param arg
  dsimp only [Workspace.registries_beside]
  cases (w.registries s).args.get? owner.key (spec.property, index) <;>
    cases (w.registries s).injectors.get? owner.key (spec.property, index)
  case none.none => exact .ite (.pure _) ((hcaller _).bind fun _ ↦ .pure _)
  case none.some => exact .pure _
  case some.none => exact .ite (.pure _) ((hcaller _).bind fun _ ↦ .pure _)
  case some.some => exact .throw _

/-- By induction on the parameters that are left, at any position. -/
theorem compileParams_beside (s : SessionId) (owner : ClassRef) (spec : FieldSpec) (index : Nat)
    (params : List Param) :
    Beside (compileParams host' s owner spec index params)
      (compileParams host s owner spec index params) := by
  induction params generalizing index with
  | nil => exact .pure _
  | cons p rest ih =>
    exact (compileParam_beside hforced s owner spec index p).bind fun _ ↦
      (ih (index + 1)).bind fun _ ↦ .pure _

/-- A field has a type, arguments, and a plan if its reference is explicit. -/
theorem compileField_beside (s : SessionId) (owner : ClassRef) (spec : FieldSpec)
    (root : Option Instance) :
    Beside (compileField host' s owner spec root) (compileField host s owner spec root) := by
  rw [compileField, compileField]
  cases spec.type.or (Signature.infer? spec.returns).type with
  | none => exact .throw _
  | some reference =>
    refine ((resolveType_beside hforced s reference _).tryCatch fun _ ↦ .throw _).bind
      fun type ↦ .ite ?_ (.ite (.throw _) (.throw _))
    refine Beside.bind ((compileParams_beside hforced s owner spec 0 spec.params).bind
      fun _ ↦ .pure _) fun args ↦ .get fun w _ ↦ ?_
    dsimp only [Workspace.registries_beside]
    cases spec.type with
    | none => exact (Beside.pure _).bind fun _ ↦ .pure _
    | some explicit =>
      exact (Beside.ofHost (castPlan_aside hforced (w.registries s) explicit)).bind fun _ ↦ .pure _

/-- An input field has a type only. -/
theorem compileInputField_beside (s : SessionId) (cls : ClassRef) (spec : InputFieldSpec) :
    Beside (compileInputField host' s cls spec) (compileInputField host s cls spec) := by
  rw [compileInputField, compileInputField]
  cases spec.type.or (Signature.infer? spec.signature).type with
  | none => exact .throw _
  | some reference =>
    exact ((resolveType_beside hforced s reference _).tryCatch fun _ ↦ .throw _).bind
      fun type ↦ .ite (.pure _) (.throw _)

/-- Which declarations a type sees is read off the registries; each is compiled in turn. -/
theorem compileFields_beside (s : SessionId) (cls : ClassRef) (walk : List ClassRef) :
    Beside (compileFields host' s cls walk) (compileFields host s cls walk) := by
  refine .get fun w _ ↦ (Beside.mk_pure _).bind fun declared ↦ .mapM (fun e ↦ ?_) declared
  exact (compileField_beside hforced s e.2.1 e.2.2 none).bind fun _ ↦ .pure _

/-- The same for the input fields of a lineage. -/
theorem compileInputFields_beside (s : SessionId) (cls : ClassRef) :
    Beside (compileInputFields host' s cls) (compileInputFields host s cls) := by
  refine .get fun w _ ↦ .mapM (fun e ↦ ?_) _
  exact (compileInputField_beside hforced s cls e.2).bind fun _ ↦ .pure _

/-! ## The fields of a node -/

/-- The fields of a root are found in the workspace; others are compiled when first asked for. -/
theorem ObjectNode.fields_beside (n : ObjectNode) : Beside (n.fields host') (n.fields host) := by
  cases hid : n.id with
  | root serial operation =>
    rw [ObjectNode.fields_root hid, ObjectNode.fields_root hid]
    refine .get fun w _ ↦ ?_
    dsimp only [Workspace.roots_beside]
    cases OrderedMap.find w.roots (serial, operation) with
    | none => exact .throw _
    | some e => exact .pure _
  | compiled s role key =>
    rw [ObjectNode.fields, ObjectNode.fields, hid]
    cases hcls : n.cls with
    | none => exact .throw _
    | some c =>
      exact .remember ((Beside.requireOpen s).bind fun _ ↦ compileFields_beside hforced s c n.walk)
  | native | custom =>
    rw [ObjectNode.fields, ObjectNode.fields, hid]
    exact .throw _

/-- The fields of an interface are always compiled when first asked for. -/
theorem InterfaceNode.fields_beside (n : InterfaceNode) :
    Beside (n.fields host') (n.fields host) := by
  rw [InterfaceNode.fields, InterfaceNode.fields]
  cases n.id with
  | compiled s role key =>
    exact .remember ((Beside.requireOpen s).bind fun _ ↦ compileFields_beside hforced s n.cls _)
  | root | native | custom => exact .throw _

/-- So are those of an input type. -/
theorem InputNode.fields_beside (n : InputNode) : Beside (n.fields host') (n.fields host) := by
  rw [InputNode.fields, InputNode.fields]
  cases n.id with
  | compiled s role key =>
    exact .remember ((Beside.requireOpen s).bind fun _ ↦ compileInputFields_beside hforced s n.cls)
  | root | native | custom => exact .throw _

omit hforced in
/-- The object types of an interface are compiled without a step of the program. -/
theorem InterfaceNode.implementations_beside (n : InterfaceNode) :
    Beside (T := T) n.implementations (n.implementations : Compile σ (List ObjectNode)) := by
  rw [InterfaceNode.implementations, InterfaceNode.implementations]
  cases n.id with
  | compiled s role key =>
    exact (Beside.requireOpen s).bind fun _ ↦ .get fun w _ ↦ .mapM (compileObject_beside s) _
  | root | native | custom => exact .throw _

/-- Unions, enums and scalars compile nothing more. -/
theorem GraphNode.successors_beside (n : GraphNode) :
    Beside (n.successors host') (n.successors host) := by
  cases n with
  | object n => exact (n.fields_beside hforced).bind fun _ ↦ .pure _
  | interface n =>
    exact (n.fields_beside hforced).bind fun _ ↦ n.implementations_beside.bind fun _ ↦ .pure _
  | input n => exact (n.fields_beside hforced).bind fun _ ↦ .pure _
  | union | enum | scalar => exact .pure _

/-! ## The loops of a schema -/

/-- The induction is that of the walk.  Where it goes depends on names and identities, and only its
step to the successors of a node compiles anything. -/
theorem visit_beside (left : Nat) (pending : List GraphNode) (seen : OrderedMap String GraphNode) :
    Beside (visit host' left pending seen) (visit host left pending seen) := by
  fun_induction visit host left pending seen with
  | case1 =>
    rw [visit]
    exact .pure _
  | case2 left node rest seen known hfind hsame ih =>
    rw [visit, hfind]
    dsimp only
    rw [if_pos hsame]
    exact ih
  | case3 left node rest seen known hfind hsame =>
    rw [visit, hfind]
    dsimp only
    rw [if_neg hsame]
    exact .throw _
  | case4 seen node rest hfind hcomposite =>
    rw [visit, hfind]
    dsimp only
    rw [if_pos hcomposite]
    exact .throw _
  | case5 seen node rest hfind seen' hcomposite left ih =>
    rw [visit, hfind]
    dsimp only
    rw [if_pos hcomposite]
    exact (node.successors_beside hforced).bind fun found ↦ ih found
  | case6 left node rest seen hfind seen' hcomposite ih =>
    rw [visit, hfind]
    dsimp only
    rw [if_neg hcomposite]
    exact ih

/-- The bound of the walk is a number that the part does not change. -/
theorem collectTypes_beside (start : List GraphNode) :
    Beside (collectTypes host' start) (collectTypes host start) :=
  .get fun w _ ↦ (visit_beside hforced w.typeCount start.reverse []).bind fun _ ↦ .pure _

/-- The fields of one operation, each served by the instance of its root. -/
theorem compileRootFields_beside (s : SessionId) (fields : OrderedMap String RootField) :
    Beside (compileRootFields host' s fields) (compileRootFields host s fields) := by
  refine .mapM (fun e ↦ ?_) fields
  exact (compileField_beside hforced s e.2.owner e.2.spec (some e.2.served)).bind fun _ ↦ .pure _

/-- The roots that are published are the same, under the same serial number. -/
theorem makeRoots_beside (s : SessionId) (fields : RootFields) :
    Beside (makeRoots host' s fields) (makeRoots host s fields) := by
  refine .get fun w _ ↦ ?_
  refine (compileRootFields_beside hforced s fields.query).bind fun queryMap ↦ ?_
  refine (compileRootFields_beside hforced s fields.mutation).bind fun mutationMap ↦ ?_
  refine .get fun w' _ ↦ (Beside.modify fun v _ ↦ ?_).bind fun _ ↦ .pure _
  cases fields.mutation <;> rfl

end Host

end ApiGraph
