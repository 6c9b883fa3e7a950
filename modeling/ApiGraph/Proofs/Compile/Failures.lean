import ApiGraph.Compile.Field
import ApiGraph.Proofs.Compile.Run

/-!
# With which errors a computation fails

Errors are caught in two places only, so with which errors a computation can fail is read off its
text: by one rule for each way of putting computations together, and without a look at the
workspace.  The rules are for any errors over any state, so that they hold of compiling and of
executing alike.

## What is here

* `FailsOnly`: if a computation fails, it is with an error of some kind; with its rules.
* `compileClass_failsOnly` and its like: a node that cannot be made says what is not registered.
* `resolveType_failsOnly`, `compileArgs_failsOnly`: a reference without a type says why, and an
  argument that cannot be compiled is named.
* `compileField_failsOnly`, `compileInputField_failsOnly`: a field that is compiled never fails for
  being a root field, whatever types it leads to.
-/

set_option autoImplicit false

namespace ApiGraph

variable {ε τ σ α β : Type} {p q : ε → Prop}

/-- If a computation fails, it is with an error of some kind. -/
def FailsOnly (p : ε → Prop) (x : ExceptT ε (StateM τ) α) : Prop :=
  ∀ t e, (x.run t).1 = .error e → p e

namespace FailsOnly

theorem imp {x : ExceptT ε (StateM τ) α} (hx : FailsOnly p x) (h : ∀ e, p e → q e) :
    FailsOnly q x :=
  fun t e he ↦ h e (hx t e he)

protected theorem pure (a : α) : FailsOnly p (pure a : ExceptT ε (StateM τ) α) :=
  fun _ _ ↦ nofun

protected theorem throw {e : ε} (he : p e) : FailsOnly p (throw e : ExceptT ε (StateM τ) α) :=
  fun _ _ h ↦ Except.error.inj h ▸ he

theorem mk_pure {r : Except ε α} (hr : ∀ e, r = .error e → p e) :
    FailsOnly p (ExceptT.mk (pure r) : ExceptT ε (StateM τ) α) :=
  fun _ e h ↦ hr e h

theorem lift (x : StateM τ α) : FailsOnly p (ExceptT.lift x : ExceptT ε (StateM τ) α) :=
  fun _ _ ↦ nofun

theorem modify (f : τ → τ) : FailsOnly p (modify f : ExceptT ε (StateM τ) Unit) :=
  fun _ _ ↦ nofun

/-- What is read of a state is read of some state. -/
theorem get {f : τ → ExceptT ε (StateM τ) α} (hf : ∀ t, FailsOnly p (f t)) :
    FailsOnly p (get >>= f) :=
  fun t e h ↦ hf t t e h

/-- Either computation may be the one that fails. -/
theorem bind {x : ExceptT ε (StateM τ) α} {f : α → ExceptT ε (StateM τ) β} (hx : FailsOnly p x)
    (hf : ∀ a, FailsOnly p (f a)) : FailsOnly p (x >>= f) := by
  intro t e he
  replace he : (ExceptT.bindCont f (x.run t).1 (x.run t).2).1 = .error e := he
  rcases hrun : x.run t with ⟨e' | a, t'⟩ <;> rw [hrun] at he
  · exact Except.error.inj he ▸ hx t e' (congrArg Prod.fst hrun)
  · exact hf a t' e he

theorem map {x : ExceptT ε (StateM τ) α} (hx : FailsOnly p x) (f : α → β) :
    FailsOnly p (f <$> x) := by
  rw [← bind_pure_comp]
  exact hx.bind fun a ↦ .pure (f a)

theorem foldlM {f : β → α → ExceptT ε (StateM τ) β} {l : List α}
    (h : ∀ b, ∀ a ∈ l, FailsOnly p (f b a)) (b : β) : FailsOnly p (l.foldlM f b) := by
  induction l generalizing b with
  | nil => exact .pure b
  | cons a rest ih =>
    rw [List.foldlM_cons]
    exact (h b a List.mem_cons_self).bind (ih fun b x hx ↦ h b x (List.mem_cons_of_mem _ hx))

/-- Some item is the one that fails. -/
theorem mapM {f : α → ExceptT ε (StateM τ) β} {l : List α} (h : ∀ a ∈ l, FailsOnly p (f a)) :
    FailsOnly p (l.mapM f) := by
  induction l with
  | nil => exact .pure []
  | cons a rest ih =>
    rw [List.mapM_cons]
    refine (h a List.mem_cons_self).bind fun b ↦ ?_
    exact (ih fun x hx ↦ h x (List.mem_cons_of_mem _ hx)).bind fun bs ↦ .pure (b :: bs)

/-! ## Compiling -/

theorem ofHost {p : CompileError → Prop} (step : StateM σ α) : FailsOnly p (Compile.ofHost step) :=
  lift _

theorem requireOpen {p : CompileError → Prop} (h : p .sessionDropped) (s : SessionId) :
    FailsOnly p (Compile.requireOpen s : Compile σ Unit) := by
  refine .get fun w ↦ ?_
  split
  · exact .pure ()
  · exact .throw h

/-- An error that is caught and given a new form is an error of the new form. -/
theorem tryCatch_throw {p q : CompileError → Prop} {x : Compile σ α}
    {f : CompileError → CompileError} (hx : FailsOnly p x) (hf : ∀ e, p e → q (f e)) :
    FailsOnly q (tryCatch x fun e ↦ throw (f e)) := by
  intro w e he
  rcases hrun : x.runIn w with ⟨e' | a, w'⟩
  · replace he := (congrArg Prod.fst (Compile.runIn_tryCatch_of_error hrun)).symm.trans he
    exact Except.error.inj he ▸ hf e' (hx w e' (congrArg Prod.fst hrun))
  · replace he := (congrArg Prod.fst (Compile.runIn_tryCatch_of_ok hrun)).symm.trans he
    cases he

/-- What a table gives fails as the making of it does. -/
theorem remember {p : CompileError → Prop} {s : SessionId} {t : CacheTable} {key : TypeKey}
    {make : Compile σ t.Value} (h : FailsOnly p make) :
    FailsOnly p (Compile.remember s t key make) := by
  refine .get fun w ↦ ?_
  split
  · exact .pure _
  · exact h.bind fun made ↦ (modify _).bind fun _ ↦ .pure made

end FailsOnly

/-! ## Making a node -/

/-- Whether an error says why a node cannot be made. -/
def CompileError.isOfNode : CompileError → Bool
  | .resolve (.unregisteredEnum _) | .resolve (.unresolvable _) => true
  | .type (.unregistered _) | .type (.unregisteredInterface ..) => true
  | .type (.unregisteredMixin ..) | .type (.emptyInputType _) => true
  | .union (.nonObjectMember ..) => true
  | _ => false

/-- An error that says why a node cannot be made. -/
def CompileError.OfNode (e : CompileError) : Prop := e.isOfNode = true

/-- Whether an error says why an object type or an interface cannot be made. -/
def CompileError.isOfObject : CompileError → Bool
  | .type (.unregistered _) | .type (.unregisteredInterface ..) => true
  | .type (.unregisteredMixin ..) => true
  | _ => false

/-- An error that says why an object type or an interface cannot be made. -/
def CompileError.OfObject (e : CompileError) : Prop := e.isOfObject = true

open CompileError (OfNode OfObject)

/-- An object type or an interface is a node. -/
theorem CompileError.OfObject.ofNode {e : CompileError} (he : e.OfObject) : e.OfNode := by
  rw [OfObject, isOfObject.eq_def] at he
  split at he <;> first | rfl | cases he

variable (s : SessionId)

/-- An enum can only be unregistered. -/
theorem compileEnum_failsOnly (d : EnumDef) :
    FailsOnly OfNode (compileEnum s d : Compile σ EnumNode) := by
  refine .remember (.get fun w ↦ ?_)
  split
  · exact .throw rfl
  · exact .pure _

/-- So can an interface. -/
theorem compileInterface_failsOnly (cls : ClassRef) :
    FailsOnly OfObject (compileInterface s cls : Compile σ InterfaceNode) := by
  refine .remember (.get fun w ↦ ?_)
  split
  · exact .throw rfl
  · exact .pure _

/-- Of an object type, a mixin or an interface may be unregistered as well. -/
theorem compileObject_failsOnly (cls : ClassRef) :
    FailsOnly OfObject (compileObject s cls : Compile σ ObjectNode) := by
  refine .remember (.get fun w ↦ ?_)
  dsimp only
  split
  · exact .throw rfl
  split
  · exact .throw rfl
  · refine (FailsOnly.mapM fun i _ ↦ .get fun w ↦ ?_).bind fun _ ↦ .pure _
    split
    · exact compileInterface_failsOnly s i
    · exact .throw rfl

/-- Of a union, a member may be no object type, or not be made itself. -/
theorem compileUnion_failsOnly (cls : ClassRef) :
    FailsOnly OfNode (compileUnion s cls : Compile σ UnionNode) := by
  refine .remember (.get fun w ↦ ?_)
  split
  · exact .throw rfl
  · refine (FailsOnly.mapM fun m _ ↦ .get fun w ↦ ?_).bind fun _ ↦ .pure _
    dsimp only
    split
    · exact .throw rfl
    split
    · exact (compileObject_failsOnly s m).imp fun _ ↦ OfObject.ofNode
    · exact .throw rfl

/-- An input type may be without fields. -/
theorem compileInput_failsOnly (cls : ClassRef) :
    FailsOnly OfNode (compileInput s cls : Compile σ InputNode) := by
  refine .remember (.get fun w ↦ ?_)
  dsimp only
  split
  · exact .throw rfl
  split
  · exact .throw rfl
  · exact .pure _

/-- A class fails in the role that is tried, or is in none. -/
theorem compileClass_failsOnly (cls : ClassRef) (argument : Bool) :
    FailsOnly OfNode (compileClass s cls argument : Compile σ GraphNode) := by
  refine .get fun w ↦ ?_
  dsimp only
  split
  · exact (compileUnion_failsOnly s cls).map _
  split
  · exact ((compileInterface_failsOnly s cls).imp fun _ ↦ OfObject.ofNode).map _
  split
  · exact (compileInput_failsOnly s cls).map _
  split
  · exact ((compileObject_failsOnly s cls).imp fun _ ↦ OfObject.ofNode).map _
  · exact .throw rfl

/-! ## Resolving a reference -/

/-- Whether an error says why a reference has no type. -/
def CompileError.isOfReference : CompileError → Bool
  | .resolve (.listArity _) | .resolve .nestedThunk => true
  | e => e.isOfNode

/-- An error that says why a reference has no type. -/
def CompileError.OfReference (e : CompileError) : Prop := e.isOfReference = true

open CompileError (OfReference)

/-- The reference to a node that cannot be made has no type. -/
theorem CompileError.OfNode.ofReference {e : CompileError} (he : e.OfNode) : e.OfReference := by
  rw [OfReference, isOfReference.eq_def]
  split
  · rfl
  · rfl
  · exact he

variable (host : Host σ)

/-- By induction on the reference: a list fails for its item, a deferred reference for its target,
and the rest for a node, for the number of items or for being deferred twice. -/
theorem resolveType_failsOnly (t : TypeRef) (o : ResolveOptions) :
    FailsOnly OfReference (resolveType host s t o) := by
  induction t, o using resolveType.induct with
  | case1 node o | case2 scalar o =>
    rw [resolveType]
    exact .pure _
  | case3 item o ih =>
    rw [resolveType]
    exact ih.bind fun _ ↦ .pure _
  | case4 items o hitems =>
    rcases items with _ | ⟨item, _ | ⟨second, rest⟩⟩
    · rw [resolveType]
      · exact .throw rfl
      · rintro item ⟨⟩
    · exact absurd rfl (hitems item)
    · rw [resolveType]
      · exact .throw rfl
      · rintro item ⟨⟩
  | case5 e o =>
    rw [resolveType]
    exact ((compileEnum_failsOnly s e).imp fun _ ↦ OfNode.ofReference).bind fun _ ↦ .pure _
  | case6 c o =>
    rw [resolveType]
    exact ((compileClass_failsOnly s c _).imp fun _ ↦ OfNode.ofReference).bind fun _ ↦ .pure _
  | case7 label target o ho ih =>
    rw [resolveType, if_pos ho]
    refine (FailsOnly.ofHost _).bind fun _ ↦ ?_
    split
    · exact .throw rfl
    · exact ih
  | case8 label target o ho =>
    rw [resolveType, if_neg ho]
    exact .throw rfl

/-! ## Compiling arguments -/

/-- Whether an error names an argument. -/
def CompileError.isOfArgument : CompileError → Bool
  | .argument _ => true
  | _ => false

/-- An error that names an argument. -/
def CompileError.OfArgument (e : CompileError) : Prop := e.isOfArgument = true

open CompileError (OfArgument)

/-- Whatever is wrong with the type of an argument is ascribed to the argument. -/
theorem compileCallerArg_failsOnly (owner : ClassRef) (property : String) (index : Nat)
    (param : Param) (arg : ArgSpec) :
    FailsOnly OfArgument (compileCallerArg host s owner property index param arg) := by
  refine (FailsOnly.mk_pure fun e he ↦ ?_).bind fun t ↦ ?_
  · rw [argumentType] at he
    split at he <;> cases he
    rfl
  refine (FailsOnly.tryCatch_throw (resolveType_failsOnly s host t _) fun _ _ ↦ ?_).bind
    fun type ↦ ?_
  · rfl
  split
  · exact .get fun w ↦ (FailsOnly.ofHost _).bind fun _ ↦ .pure _
  · exact .throw rfl

/-- A parameter that is injected and declared is refused in its own name too. -/
theorem compileParam_failsOnly (owner : ClassRef) (spec : FieldSpec) (index : Nat)
    (param : Param) : FailsOnly OfArgument (compileParam host s owner spec index param) := by
  refine .get fun w ↦ ?_
  dsimp only
  split
  · exact .throw rfl
  · exact .pure _
  split
  · exact .pure _
  · exact (compileCallerArg_failsOnly s host owner spec.property index param _).bind fun _ ↦ .pure _

/-- By induction on the parameters that are left, at any position. -/
theorem compileParams_failsOnly (owner : ClassRef) (spec : FieldSpec) (index : Nat)
    (params : List Param) :
    FailsOnly OfArgument (compileParams host s owner spec index params) := by
  induction params generalizing index with
  | nil => exact .pure []
  | cons p rest ih =>
    exact (compileParam_failsOnly s host owner spec index p).bind fun _ ↦
      (ih (index + 1)).bind fun _ ↦ .pure _

/-- Putting the arguments together cannot fail. -/
theorem compileArgs_failsOnly (owner : ClassRef) (spec : FieldSpec) :
    FailsOnly OfArgument (compileArgs host s owner spec) :=
  (compileParams_failsOnly s host owner spec 0 spec.params).bind fun _ ↦ .pure _

/-! ## Compiling a field -/

/-- Whether an error is that of a root field in the wrong place. -/
def CompileError.isRootField : CompileError → Bool
  | .type (.rootFieldOnNonRoot ..) => true
  | _ => false

/-- An error other than that of a root field in the wrong place. -/
def CompileError.OfField (e : CompileError) : Prop := e.isRootField = false

open CompileError (OfField)

/-- No reference says that a field is on no root. -/
theorem CompileError.OfReference.ofField {e : CompileError} (he : e.OfReference) :
    e.OfField := by
  rw [OfField, isRootField.eq_def]
  split
  · cases he
  · rfl

/-- Nor does any argument. -/
theorem CompileError.OfArgument.ofField {e : CompileError} (he : e.OfArgument) : e.OfField := by
  rw [OfField, isRootField.eq_def]
  split
  · cases he
  · rfl

/-- Nor does a signature from which no type can be read off. -/
theorem inferenceError_ofField (cls : ClassRef) (property : String)
    (shape : Option Uninferable) : (inferenceError cls property shape).OfField := by
  cases shape <;> rfl

/-- To ascribe an error to a field does not change that. -/
theorem CompileError.OfField.inField {e : CompileError} (he : e.OfField) (cls : ClassRef)
    (property : String) : (inField cls property e).OfField := by
  rw [ApiGraph.inField.eq_def]
  split
  · rfl
  · rfl
  · exact he

/-- A field fails for its signature, its reference, its arguments or its place. -/
theorem compileField_failsOnly (owner : ClassRef) (spec : FieldSpec) (root : Option Instance) :
    FailsOnly OfField (compileField host s owner spec root) := by
  rw [compileField]
  dsimp only
  split
  · exact .throw (inferenceError_ofField _ _ _)
  refine (FailsOnly.tryCatch_throw (resolveType_failsOnly s host _ _) fun _ he ↦
    he.ofField.inField owner spec.property).bind fun type ↦ ?_
  split
  · refine ((compileArgs_failsOnly s host owner spec).imp fun _ ↦ OfArgument.ofField).bind
      fun _ ↦ .get fun w ↦ ?_
    split
    · exact (FailsOnly.ofHost _).bind fun _ ↦ .pure _
    · exact .pure _
  · split
    · exact .throw (inferenceError_ofField _ _ _)
    · exact .throw rfl

/-- An input field fails for its signature, its reference or its place. -/
theorem compileInputField_failsOnly (cls : ClassRef) (spec : InputFieldSpec) :
    FailsOnly OfField (compileInputField host s cls spec) := by
  rw [compileInputField]
  split
  · exact .throw (inferenceError_ofField _ _ _)
  refine (FailsOnly.tryCatch_throw (resolveType_failsOnly s host _ _) fun _ he ↦
    he.ofField.inField cls spec.property).bind fun type ↦ ?_
  split
  · exact .pure _
  · exact .throw rfl

end ApiGraph
