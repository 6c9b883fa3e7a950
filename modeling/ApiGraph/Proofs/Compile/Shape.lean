import ApiGraph.Proofs.Compile.Failures
import ApiGraph.Proofs.Compile.Respects
import Mathlib

/-!
# The shape of a resolved type

Resolving a reference is three things one after the other.  What is deferred in the reference is
forced, from the outside in; then the node at its bottom is made; then the node is wrapped, in as
many lists as the reference has and with the nullability of the options.  Only the first of them
asks the program, and only the last looks at nullability.

## What is here

* `TypeRef.force`, `TypeRef.compileNode`, `GraphType.nested`: the three things, and
  `resolveType_eq`: they are all that resolving does.
* `TypeRef.forced?` and `TypeRef.Nests`: what is forced, and where this fails, read off a reference
  alone; with `TypeRef.host_force` and `TypeRef.force_eq_nestedThunk_iff`.
* `resolveType_shape`: the type, its node, what is forced and when forcing fails.
-/

set_option autoImplicit false

namespace ApiGraph

variable {σ : Type}

/-! ## The wrapping -/

/-- How many lists a reference has; a deferred one has those of its target. -/
def TypeRef.arrayLevels : TypeRef → Nat
  | .array [item] => item.arrayLevels + 1
  | .thunk _ target => target.arrayLevels
  | _ => 0

namespace GraphType

/-- A node in a number of lists, with the nullability that the options ask for. -/
def nested (node : GraphNode) : Nat → ResolveOptions → GraphType
  | 0, o => o.wrap (.named node)
  | levels + 1, o => o.wrap (.list (nested node levels o.forItem))

/-- The type at a depth of a type of lists. -/
def itemAt : Nat → GraphType → Option GraphType
  | 0, t => some t
  | depth + 1, t => t.item?.bind (itemAt depth)

@[simp] theorem isNonNull_required (t : GraphType) : t.required.isNonNull = true := by
  cases t <;> rfl

@[simp] theorem listDepth_required (t : GraphType) : t.required.listDepth = t.listDepth := by
  cases t <;> rfl

@[simp] theorem item?_required (t : GraphType) : t.required.item? = t.item? := by
  cases t <;> rfl

end GraphType

namespace ResolveOptions

theorem isNonNull_wrap (o : ResolveOptions) {t : GraphType} (ht : t.isNonNull = false) :
    (o.wrap t).isNonNull = !o.nullable := by
  rw [wrap]
  split <;> simp_all

@[simp] theorem listDepth_wrap (o : ResolveOptions) (t : GraphType) :
    (o.wrap t).listDepth = t.listDepth := by
  rw [wrap]
  split <;> simp

@[simp] theorem item?_wrap (o : ResolveOptions) (t : GraphType) : (o.wrap t).item? = t.item? := by
  rw [wrap]
  split <;> simp

end ResolveOptions

namespace GraphType

variable (node : GraphNode)

theorem node_nested (levels : Nat) (o : ResolveOptions) : (nested node levels o).node = node := by
  induction levels generalizing o with
  | zero => simp [nested, ResolveOptions.node_wrap, GraphType.node]
  | succ levels ih => simp [nested, ResolveOptions.node_wrap, GraphType.node, ih]

theorem listDepth_nested (levels : Nat) (o : ResolveOptions) :
    (nested node levels o).listDepth = levels := by
  induction levels generalizing o with
  | zero => simp [nested, listDepth]
  | succ levels ih => simp [nested, listDepth, ih]

theorem isNonNull_nested (levels : Nat) (o : ResolveOptions) :
    (nested node levels o).isNonNull = !o.nullable := by
  cases levels with
  | zero => rw [nested, ResolveOptions.isNonNull_wrap o rfl]
  | succ levels => rw [nested, ResolveOptions.isNonNull_wrap o rfl]

/-- The wrapping does not depend on what may be deferred. -/
theorem nested_allowThunk (levels : Nat) (o : ResolveOptions) (allowed : Bool) :
    nested node levels { o with allowThunk := allowed } = nested node levels o := by
  induction levels generalizing o with
  | zero => rfl
  | succ levels ih => exact congrArg (fun t ↦ o.wrap (.list t)) (ih o.forItem)

/-- The items of a type of lists are those of a type with one list less. -/
theorem item?_nested {levels : Nat} {o : ResolveOptions} {item : GraphType}
    (h : (nested node levels o).item? = some item) :
    ∃ fewer, levels = fewer + 1 ∧ item = nested node fewer o.forItem := by
  cases levels with
  | zero => simp [nested, item?] at h
  | succ fewer => exact ⟨fewer, rfl, by simpa [nested, item?] using h.symm⟩

/-- Where neither a list nor its items may be null, nothing inside may. -/
theorem isNonNull_itemAt_nested {levels depth : Nat} {o : ResolveOptions}
    (ho : o.nullable = false) (hitem : o.itemNullable = false) {item : GraphType}
    (h : (nested node levels o).itemAt depth = some item) : item.isNonNull = true := by
  induction depth generalizing levels o with
  | zero =>
    cases h
    rw [isNonNull_nested, ho, Bool.not_false]
  | succ depth ih =>
    obtain ⟨inner, hinner, h⟩ := Option.bind_eq_some_iff.1 h
    obtain ⟨fewer, rfl, rfl⟩ := item?_nested node hinner
    exact ih (o := o.forItem) hitem rfl h

end GraphType

/-! ## Forcing -/

namespace TypeRef

/-- Forces what is deferred in a reference, if that is allowed. -/
def force (host : Host σ) : Bool → TypeRef → Compile σ Unit
  | allowed, .array [item] => item.force host allowed
  | _, .array items => throw (.resolve (.listArity items.length))
  | true, .thunk label target => do
    Compile.ofHost (host.forced label)
    if target.isThunk then throw (.resolve .nestedThunk) else target.force host false
  | false, .thunk _ _ => throw (.resolve .nestedThunk)
  | _, _ => return ()

/-- The node that a reference leads to. -/
def compileNode (s : SessionId) (argument : Bool) : TypeRef → Compile σ GraphNode
  | .node given => return given
  | .scalar native => return .scalar native.node
  | .enum d => .enum <$> compileEnum s d
  | .cls c => compileClass s c argument
  | .array [item] => item.compileNode s argument
  | .array items => throw (.resolve (.listArity items.length))
  | .thunk _ target => target.compileNode s argument

end TypeRef

/-- **To resolve a reference is to force it, to make its node and to wrap the node.** -/
theorem resolveType_eq (host : Host σ) (s : SessionId) (t : TypeRef) (o : ResolveOptions) :
    resolveType host s t o = do
      t.force host o.allowThunk
      let node ← t.compileNode s o.argument
      return GraphType.nested node t.arrayLevels o := by
  induction t, o using resolveType.induct with
  | case1 node o => simp [resolveType, TypeRef.force, TypeRef.compileNode, TypeRef.arrayLevels,
      GraphType.nested]
  | case2 scalar o => simp [resolveType, TypeRef.force, TypeRef.compileNode, TypeRef.arrayLevels,
      GraphType.nested]
  | case3 item o ih =>
    rw [resolveType, ih]
    simp [TypeRef.force, TypeRef.compileNode, TypeRef.arrayLevels, GraphType.nested]
    rfl
  | case4 items o hitems =>
    rw [resolveType, TypeRef.force]
    · rfl
    · exact hitems
    · exact hitems
  | case5 e o => simp [resolveType, TypeRef.force, TypeRef.compileNode, TypeRef.arrayLevels,
      GraphType.nested]
  | case6 c o => simp [resolveType, TypeRef.force, TypeRef.compileNode, TypeRef.arrayLevels,
      GraphType.nested]
  | case7 label target o ho ih =>
    rw [resolveType, if_pos ho, ho, TypeRef.force, bind_assoc]
    refine bind_congr fun _ ↦ ?_
    split
    · rfl
    · simpa only [GraphType.nested_allowThunk, TypeRef.compileNode, TypeRef.arrayLevels] using ih
  | case8 label target o ho =>
    rw [Bool.not_eq_true] at ho
    rw [resolveType, if_neg (by simp [ho]), ho, TypeRef.force]
    rfl

/-! ## What is forced -/

namespace TypeRef

/-- The label of the deferred reference that is forced, if one is. -/
def forced? : Bool → TypeRef → Option (Option String)
  | allowed, .array [item] => item.forced? allowed
  | true, .thunk label _ => some label
  | _, _ => none

theorem forced?_of_no_list {allowed : Bool} {items : List TypeRef}
    (h : ∀ item, items = [item] → False) :
    (array items).forced? allowed = none := by
  rw [forced?]
  · exact fun item heq ↦ h item (array.inj heq)
  · nofun

/-- Where nothing may be deferred, nothing is forced. -/
theorem forced?_false (t : TypeRef) : t.forced? false = none := by
  generalize hallowed : false = allowed
  induction allowed, t using forced?.induct with
  | case1 allowed item ih => rw [forced?, ih hallowed]
  | case2 => cases hallowed
  | case3 t allowed hlist hthunk => rw [forced?] <;> assumption

/-- A reference is deferred where this is not allowed, or what is forced is deferred in turn. -/
inductive Nests : Bool → TypeRef → Prop
  /-- It is deferred where that is not allowed. -/
  | met (label : Option String) (target : TypeRef) : Nests false (.thunk label target)
  /-- What is forced is deferred. -/
  | returned (label : Option String) {target : TypeRef} (h : target.isThunk = true) :
    Nests true (.thunk label target)
  /-- There is one in what is forced. -/
  | forced (label : Option String) {target : TypeRef} (h : Nests false target) :
    Nests true (.thunk label target)
  /-- There is one in the item of a list. -/
  | item {allowed : Bool} {item : TypeRef} (h : Nests allowed item) : Nests allowed (.array [item])

/-- Forcing a reference asks the program at most once, and changes nothing but its state. -/
theorem runIn_force (host : Host σ) (t : TypeRef) (allowed : Bool) (w : Workspace σ) :
    ((t.force host allowed).runIn w).2 =
      { w with host := ((t.forced? allowed).elim (pure ()) host.forced w.host).2 } := by
  fun_induction force host allowed t generalizing w with
  | case1 allowed item ih => rw [forced?, ih]
  | case2 allowed items hitems => rw [forced?_of_no_list hitems]; rfl
  | case3 label target ih =>
    rw [forced?, Compile.runIn_bind_of_ok (Compile.runIn_ofHost _ w)]
    split
    · rfl
    · rw [ih, forced?_false]
      rfl
  | case4 label target => rw [forced?_false]; rfl
  | case5 t allowed hlist hlists hthunk _ => rw [forced?] <;> first | assumption | rfl

/-- **Forcing fails exactly where one deferred reference nests another.** -/
theorem force_eq_nestedThunk_iff (host : Host σ) (t : TypeRef) (allowed : Bool) (w : Workspace σ) :
    ((t.force host allowed).runIn w).1 = .error (.resolve .nestedThunk) ↔ t.Nests allowed := by
  fun_induction force host allowed t generalizing w with
  | case1 allowed item ih =>
    rw [ih]
    exact ⟨.item, fun h ↦ by cases h; assumption⟩
  | case2 allowed items hitems =>
    refine ⟨nofun, fun h ↦ ?_⟩
    cases h with
    | item => exact absurd rfl (hitems _)
  | case3 label target ih =>
    rw [Compile.runIn_bind_of_ok (Compile.runIn_ofHost _ w)]
    split
    · exact ⟨fun _ ↦ .returned label ‹_›, fun _ ↦ rfl⟩
    · rename_i hthunk
      rw [ih]
      refine ⟨.forced label, fun h ↦ ?_⟩
      cases h with
      | returned _ h => exact absurd h hthunk
      | forced _ h => exact h
  | case4 label target => exact ⟨fun _ ↦ .met label target, fun _ ↦ rfl⟩
  | case5 t allowed hlist hlists hthunk hmet =>
    refine ⟨nofun, fun h ↦ ?_⟩
    cases h with
    | met => exact (hmet _ _ rfl rfl).elim
    | returned | forced => exact (hthunk _ _ rfl rfl).elim
    | item => exact (hlist _ rfl).elim

/-! ## The node -/

/-- A node that cannot be made says so, and says nothing of deferred references. -/
theorem compileNode_failsOnly (s : SessionId) (argument : Bool) (t : TypeRef) :
    FailsOnly (fun e ↦ e ≠ .resolve .nestedThunk)
      (t.compileNode s argument : Compile σ GraphNode) := by
  have hnode : ∀ e : CompileError, e.OfNode → e ≠ .resolve .nestedThunk := by
    rintro e he rfl
    cases he
  fun_induction compileNode s argument t with
  | case1 | case2 => exact .pure _
  | case3 d => exact ((compileEnum_failsOnly s d).imp hnode).map _
  | case4 c => exact (compileClass_failsOnly s c argument).imp hnode
  | case5 item ih => exact ih
  | case6 items => exact .throw nofun
  | case7 label target ih => exact ih

theorem compileNode_respects {s : SessionId} {R : Workspace σ → Workspace σ → Prop}
    (hR : Workspace.Accord s R)
    (hunions : ∀ {w v : Workspace σ}, R w v → (v.registries s).unions = (w.registries s).unions)
    (argument : Bool) (t : TypeRef) : Compile.Respects R (t.compileNode s argument) := by
  fun_induction compileNode s argument t with
  | case1 | case2 => exact .pure _
  | case3 d => exact (compileEnum_respects hR d).map _
  | case4 c => exact compileClass_respects hR hunions c argument
  | case5 item ih => exact ih
  | case6 items => exact .throw _
  | case7 label target ih => exact ih

end TypeRef

/-- Two workspaces have the same session of a number, and the second one a state of the program. -/
def Workspace.SameSession (s : SessionId) (state : σ) (w v : Workspace σ) : Prop :=
  v.sessions[s]? = w.sessions[s]? ∧ v.host = state

namespace TypeRef

variable {s : SessionId} {w v : Workspace σ}

/-- Making a node looks at the session, and neither at the program nor at other sessions. -/
theorem compileNode_sameSession (argument : Bool) (t : TypeRef) (state : σ) :
    Compile.Respects (Workspace.SameSession s state) (t.compileNode s argument) := by
  have hregistries {w v : Workspace σ} (h : w.SameSession s state v) :
      v.registries s = w.registries s := by
    rw [Workspace.registries, Workspace.registries, Workspace.session, Workspace.session, h.1]
  refine compileNode_respects ⟨fun h ↦ .of_eq (hregistries h), fun h t _ key ↦ ?_,
    fun h t _ key x ↦ ⟨?_, h.2⟩⟩ (fun h ↦ by rw [hregistries h]) argument t
  · rw [Workspace.entry, Workspace.entry, Workspace.cache, Workspace.cache, Workspace.session,
      Workspace.session, h.1]
  · simp [Workspace.keep, Workspace.modifyCache, Workspace.modifySession, h.1]

theorem compileNode_eq (h : v.sessions[s]? = w.sessions[s]?) (argument : Bool) (t : TypeRef) :
    ((t.compileNode s argument).runIn v).1 = ((t.compileNode s argument).runIn w).1 :=
  (compileNode_sameSession argument t v.host w v ⟨h, rfl⟩).1

theorem host_compileNode (s : SessionId) (argument : Bool) (t : TypeRef) (w : Workspace σ) :
    ((t.compileNode s argument).runIn w).2.host = w.host :=
  (compileNode_sameSession argument t w.host w w ⟨rfl, rfl⟩).2.2

end TypeRef

/-! ## Resolved types -/

section Resolved

variable {host : Host σ} {s : SessionId} {t : TypeRef} {o : ResolveOptions} {w w' : Workspace σ}

/-- A reference that resolves has a node that can be made at once, and its type is the node in its
lists. -/
theorem resolveType_ok {type : GraphType}
    (h : (resolveType host s t o).runIn w = (.ok type, w')) :
    ((t.compileNode s o.argument).runIn w).1 = .ok type.node ∧
      type = GraphType.nested type.node t.arrayLevels o := by
  rw [resolveType_eq] at h
  obtain ⟨_, w₁, hforce, h⟩ := Compile.runIn_bind_eq_ok h
  obtain ⟨node, w₂, hnode, h⟩ := Compile.runIn_bind_eq_ok h
  cases h
  have hsessions : w₁.sessions = w.sessions := by
    have hstate := t.runIn_force host o.allowThunk w
    rw [hforce] at hstate
    cases hstate
    rfl
  rw [GraphType.node_nested, ← t.compileNode_eq (by rw [hsessions]), hnode]
  exact ⟨rfl, rfl⟩

/-- Resolving a reference does to the program what forcing it does. -/
theorem host_resolveType (host : Host σ) (s : SessionId) (t : TypeRef) (o : ResolveOptions)
    (w : Workspace σ) : ((resolveType host s t o).runIn w).2.host =
      ((t.forced? o.allowThunk).elim (pure ()) host.forced w.host).2 := by
  have hstate := t.runIn_force host o.allowThunk w
  rw [resolveType_eq]
  rcases hforce : (t.force host o.allowThunk).runIn w with ⟨e | ⟨⟩, w₁⟩ <;>
    rw [hforce] at hstate <;> replace hstate := congrArg Workspace.host hstate
  · rw [Compile.runIn_bind_of_error hforce]
    exact hstate
  · rw [Compile.runIn_bind_of_ok hforce, bind_pure_comp, Compile.runIn_map, t.host_compileNode]
    exact hstate

/-- Resolving a reference fails for a nested deferred reference exactly if forcing it does. -/
theorem resolveType_eq_nestedThunk_iff (host : Host σ) (s : SessionId) (t : TypeRef)
    (o : ResolveOptions) (w : Workspace σ) :
    ((resolveType host s t o).runIn w).1 = .error (.resolve .nestedThunk) ↔
      t.Nests o.allowThunk := by
  rw [← t.force_eq_nestedThunk_iff host o.allowThunk w, resolveType_eq]
  rcases hforce : (t.force host o.allowThunk).runIn w with ⟨e | ⟨⟩, w₁⟩
  · rw [Compile.runIn_bind_of_error hforce]
    exact ⟨fun h ↦ congrArg _ (Except.error.inj h), fun h ↦ congrArg _ (Except.error.inj h)⟩
  · rw [Compile.runIn_bind_of_ok hforce]
    refine ⟨fun h ↦ ?_, nofun⟩
    exact absurd rfl (((t.compileNode_failsOnly s o.argument).bind fun _ ↦ .pure _) w₁ _ h)

end Resolved

/-- **The shape of a resolved type.**  A reference that resolves has a type with as many lists as it
has itself.  The type is non-null exactly if the options do not ask for a nullable one, the items of
the outermost list are so exactly if these are not asked to be nullable, and everything inside them
is; and nothing is marked as non-null twice.  The node depends on the reference and on whether it
stands at an argument only: other options, another program and other sessions do not change it, nor
does anything that the session has been asked in the meantime.  Whether or not the reference
resolves, the program is asked for at most one deferred reference, and resolving fails for a nested
one exactly where the reference has it.  A deferred reference has one target, however often it is
forced. -/
theorem resolveType_shape (host : Host σ) (s : SessionId) (t : TypeRef) (o : ResolveOptions)
    (w : Workspace σ) :
    (∀ type w', (resolveType host s t o).runIn w = (.ok type, w') →
      type.listDepth = t.arrayLevels ∧
      (type.isNonNull = true ↔ o.nullable = false) ∧
      (∀ item, type.itemAt 1 = some item → (item.isNonNull = true ↔ o.itemNullable = false)) ∧
      (∀ depth item, type.itemAt (depth + 2) = some item → item.isNonNull = true) ∧
      type = GraphType.nested type.node t.arrayLevels o ∧
      (∀ (host' : Host σ) (v : Workspace σ) o' type' v', v.sessions[s]? = w.sessions[s]? →
        o'.argument = o.argument → (resolveType host' s t o').runIn v = (.ok type', v') →
          type'.node = type.node) ∧
      ∀ d, w.Coherent d → s < w.sessions.length → t.Within d (w.Offers d) →
        ∀ v o' type' v', w.Filled d host v → o'.argument = o.argument →
          (resolveType host s t o').runIn v = (.ok type', v') → type'.node = type.node) ∧
    ((resolveType host s t o).runIn w).2.host =
      ((t.forced? o.allowThunk).elim (pure ()) host.forced w.host).2 ∧
    (((resolveType host s t o).runIn w).1 = .error (.resolve .nestedThunk) ↔
      t.Nests o.allowThunk) := by
  refine ⟨fun type w' h ↦ ?_, host_resolveType host s t o w,
    resolveType_eq_nestedThunk_iff host s t o w⟩
  obtain ⟨hnode, htype⟩ := resolveType_ok h
  have hsame : ∀ (host' : Host σ) (v : Workspace σ) o' type' v', v.sessions[s]? = w.sessions[s]? →
      o'.argument = o.argument → (resolveType host' s t o').runIn v = (.ok type', v') →
        type'.node = type.node := by
    intro host' v o' type' v' hv ho h'
    have hnode' := (resolveType_ok h').1
    rw [t.compileNode_eq hv, ho, hnode] at hnode'
    exact (Except.ok.inj hnode').symm
  refine ⟨?_, ?_, fun item hitem ↦ ?_, fun depth item hitem ↦ ?_, htype, hsame, ?_⟩
  · rw [htype, GraphType.listDepth_nested]
  · rw [htype, GraphType.isNonNull_nested]
    simp
  · obtain ⟨inner, hinner, hitem⟩ := Option.bind_eq_some_iff.1 hitem
    cases hitem
    rw [htype] at hinner
    obtain ⟨fewer, -, rfl⟩ := GraphType.item?_nested _ hinner
    rw [GraphType.isNonNull_nested]
    simp [ResolveOptions.forItem]
  · obtain ⟨inner, hinner, hitem⟩ := Option.bind_eq_some_iff.1 hitem
    rw [htype] at hinner
    obtain ⟨fewer, -, rfl⟩ := GraphType.item?_nested _ hinner
    obtain ⟨inner, hinner, hitem⟩ := Option.bind_eq_some_iff.1 hitem
    obtain ⟨fewer, -, rfl⟩ := GraphType.item?_nested _ hinner
    exact GraphType.isNonNull_itemAt_nested _ rfl rfl hitem
  · intro d hw hs ht v o' type' v' hv ho h'
    -- what the session has been asked in the meantime does not show in the outcome
    have hsettles : Compile.Settles d host w [] (resolveType host s t o') _ :=
      resolveType_settles hw hs ht o'
    have hfirst := (hsettles.runIn_eq (.refl hw) hv).symm.trans (congrArg Prod.fst h')
    exact hsame host w o' type' ((resolveType host s t o').runIn w).2 rfl ho (Prod.ext hfirst rfl)

/-! ### An instance -/

namespace Deferred

/-- A program that counts what it is asked for. -/
def counting : Host Nat where
  forced _ := modify (· + 1)
  construct _ := pure { cls := .base ⟨0⟩ "" }
  discriminate _ _ _ _ := pure none
  method _ _ _ := pure (.ok .null)
  before _ _ := pure (pure (.ok ()))
  after _ _ _ := pure (pure (.ok ()))
  inject _ _ := pure .null

/-- A matrix, the type of which is deferred. -/
def matrix : TypeRef := .thunk (some "matrix") (.list (.list (.scalar .int)))

/-- Deferred references, one inside the list that the other stands for. -/
def tangled : TypeRef := .thunk (some "outer") (.list (.thunk (some "inner") (.scalar .int)))

end Deferred

open Deferred in
/-- A nullable matrix has nullable rows if they are asked for, and its cells are there.  The program
is asked once for it, and once for a reference that is refused for what is inside. -/
theorem resolveType_shape_matrix :
    (∃ type w', (resolveType counting 0 matrix { nullable := true, itemNullable := true }).runIn
        { host := 0 } = (.ok type, w') ∧
      type.display = "[[Int!]]" ∧ type.listDepth = 2 ∧ type.isNonNull = false ∧ w'.host = 1) ∧
    ((resolveType counting 0 tangled {}).runIn { host := 0 }).1 = .error (.resolve .nestedThunk) ∧
      ((resolveType counting 0 tangled {}).runIn { host := 0 }).2.host = 1 := by
  constructor
  · obtain ⟨hok, hhost, -⟩ := resolveType_shape counting 0 matrix
      { nullable := true, itemNullable := true } { host := 0 }
    have hfacts : ((resolveType counting 0 matrix { nullable := true, itemNullable := true }).runIn
        { host := 0 }).1.toOption.map GraphType.display = some "[[Int!]]" := by cbv
    rcases hrun : (resolveType counting 0 matrix { nullable := true, itemNullable := true }).runIn
      { host := 0 } with ⟨e | type, w'⟩ <;> rw [hrun] at hfacts hhost
    · cases hfacts
    obtain ⟨hdepth, hnonNull, -⟩ := hok type w' hrun
    exact ⟨type, w', rfl, Option.some.inj hfacts, hdepth, by simpa using hnonNull, hhost⟩
  · obtain ⟨-, hhost, hnests⟩ := resolveType_shape counting 0 tangled {} { host := 0 }
    exact ⟨hnests.2 (.forced _ (.item (.met _ _))), hhost⟩

end ApiGraph
