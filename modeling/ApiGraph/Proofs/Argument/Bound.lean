import ApiGraph.Proofs.Argument.Convert
import ApiGraph.Proofs.Argument.Recast
import ApiGraph.Proofs.Field.Binding

/-!
# Arguments on their way to a method

An argument is converted by the type of its parameter, and when the parameter is bound, the result
is cast by a plan.  Type and plan are made from one reference.  The cast has nothing left to do
where the reference names a class, since conversion has made instances there.  But the plan of a
list refuses lists among the items, unless the reference has a list there itself, and what a scalar
or an enum member stands for may be a list.

## What is here

* `TypeRef.ArgumentShapes`, `resolveType_argumentShapes`: a reference and its type for arguments.
* `GraphType.admits`: the values that may be supplied for a type.
* `Converts`: what a value is converted to, with an inversion for each form of a type.
* `GraphType.bursts`: a list where the items of a list are none.
* `GraphNode.TakesLists`: the nodes at which that can happen.
* `compileField_binds_converted`: which arguments reach their method as they were converted.
-/

set_option autoImplicit false

namespace ApiGraph

variable {σ : Type} {d : Declarations} {host : Host σ} {r : Registries} {s : SessionId}

/-! ## References of arguments -/

namespace TypeRef

/-- A graph type has the lists of a reference, and where the reference names a class, the input type
of it, which is no interface. -/
inductive ArgumentShapes (r : Registries) : TypeRef → GraphType → Prop
  | node (given n : GraphNode) : ArgumentShapes r (.node given) (.named n)
  | scalar (given : NativeScalar) (n : GraphNode) : ArgumentShapes r (.scalar given) (.named n)
  | enum (given : EnumDef) (n : GraphNode) : ArgumentShapes r (.enum given) (.named n)
  | cls {c : ClassRef} (hc : r.isInterface c.key = false) (n : InputNode) :
      ArgumentShapes r (.cls c) (.named (.input n))
  | array {item : TypeRef} {type : GraphType} (h : ArgumentShapes r item type) :
      ArgumentShapes r (.array [item]) (.list type)
  | thunk {label : Option String} {target : TypeRef} {type : GraphType}
      (htarget : target.isThunk = false) (h : ArgumentShapes r target type) :
      ArgumentShapes r (.thunk label target) type
  | nonNull {t : TypeRef} {type : GraphType} (h : ArgumentShapes r t type) :
      ArgumentShapes r t (.nonNull type)

namespace ArgumentShapes

variable {t : TypeRef} {type : GraphType}

theorem wrap (h : t.ArgumentShapes r type) (o : ResolveOptions) :
    t.ArgumentShapes r (o.wrap type) :=
  o.wrap_induction h fun _ ↦ .nonNull

theorem isInterface_eq_false (h : t.ArgumentShapes r type) : t.isInterface r = false := by
  induction h with
  | cls hc n => exact hc
  | node | scalar | enum | array | thunk => rfl
  | nonNull _ ih => exact ih

/-- A plan expects a list where the type is one. -/
theorem isList_castPlan (h : t.ArgumentShapes r type) (st : σ) :
    (castPlan host r t st).1.isList = type.item?.isSome := by
  induction h generalizing st with
  | node | scalar | enum => rw [castPlan]; rfl
  | @cls c hc n => rcases castPlan_cls host r c st with hplan | hplan <;> rw [hplan] <;> rfl
  | array hitem _ =>
    rw [castPlan_array, hitem.isInterface_eq_false, if_neg Bool.false_ne_true]
    rfl
  | thunk htarget _ ih =>
    rw [castPlan_thunk host r _ htarget]
    exact ih _
  | nonNull _ ih => exact ih st

end ArgumentShapes
end TypeRef

/-- Where an argument may have the type of a reference, the type has the shape of the reference. -/
theorem resolveType_argumentShapes {t : TypeRef} {o : ResolveOptions} {type : GraphType}
    {w w' : Workspace σ} (h : (resolveType host s t o).runIn w = (.ok type, w'))
    (hinput : type.node.isInput = true) : t.ArgumentShapes (w.registries s) type := by
  refine resolveType_induction (motive := fun t type ↦ type.node.isInput = true →
    t.ArgumentShapes (w.registries s) type) ?node ?scalar ?enum ?cls ?array ?thunk rfl h hinput
  case node => exact fun n o _ ↦ .wrap (.node n n) o
  case scalar => exact fun given o _ ↦ .wrap (.scalar given _) o
  case enum => exact fun given n o _ ↦ .wrap (.enum given _) o
  case cls =>
    intro c n o v v' hr hn hinput
    rw [ResolveOptions.node_wrap] at hinput
    obtain ⟨hc, i, rfl⟩ := compileClass_isInput hn hinput
    exact .wrap (.cls (hr ▸ hc) i) o
  case array =>
    intro item type o hitem hinput
    rw [ResolveOptions.node_wrap] at hinput
    exact .wrap (.array (hitem hinput)) o
  case thunk => exact fun label target type htarget h hinput ↦ .thunk htarget (h hinput)

/-! ## Values that may be supplied -/

/-- Whether a scalar is one of the native ones. -/
def ScalarNode.isNative (n : ScalarNode) : Bool :=
  match n.id with
  | .native _ => true
  | _ => false

/-- Whether a value may be supplied at a node: an object for an input type, the name of a member for
an enum, for a native scalar no list and no object, and for any other scalar all that it accepts. -/
def GraphNode.admits : GraphNode → WireValue → Bool
  | .input _, .object _ => true
  | .enum n, .enum name => (n.definition.valueOf? name).isSome
  | .enum n, .string name => (n.definition.valueOf? name).isSome
  | .scalar n, .list items => !n.isNative && n.accepts (.list items)
  | .scalar n, .object entries => !n.isNative && n.accepts (.object entries)
  | .scalar n, v => n.isNative || n.accepts v
  | _, _ => false

/-- Whether a value may be supplied for a type: null anywhere, where the type has a list a list or a
single value in its place, and at the node what it admits. -/
def GraphType.admits : GraphType → WireValue → Bool
  | _, .null => true
  | .nonNull inner, v => inner.admits v
  | .list item, v => v.items.all item.admits
  | .named n, v => n.admits v

/-- A scalar or an enum takes lists if some value that may be supplied for it stands for a list: a
list for a scalar of the program, or a member of an enum. -/
inductive GraphNode.TakesLists : GraphNode → Prop
  | scalar {n : ScalarNode} {items : List WireValue} (hn : n.isNative = false)
      (haccepts : n.accepts (.list items) = true) : TakesLists (.scalar n)
  | enum {n : EnumNode} {name : String} {items : List WireValue}
      (hvalue : n.definition.valueOf? name = some (.list items)) : TakesLists (.enum n)

namespace GraphType

variable {v : WireValue}

theorem admits_null (t : GraphType) : t.admits .null = true := by
  cases t <;> rfl

theorem admits_nonNull (inner : GraphType) (v : WireValue) :
    (nonNull inner).admits v = inner.admits v := by
  cases v with
  | null => rw [admits_null, admits_null]
  | boolean | number | binary | string | enum | list | object => rfl

theorem admits_list (item : GraphType) (hv : v ≠ .null) :
    (list item).admits v = v.items.all item.admits := by
  cases v with
  | null => exact absurd rfl hv
  | boolean | number | binary | string | enum | list | object => rfl

theorem admits_named (n : GraphNode) (hv : v ≠ .null) : (named n).admits v = n.admits v := by
  cases v with
  | null => exact absurd rfl hv
  | boolean | number | binary | string | enum | list | object => rfl

end GraphType

/-! ## Conversion, taken apart -/

/-- A value is converted at a type to another one, in some workspace and with something in the place
of defaults. -/
def Converts (host : Host σ) (type : GraphType) (v : WireValue) (y : HostValue) : Prop :=
  ∃ (onDefault : GraphType → WireValue → Execute σ HostValue) (w w' : Workspace σ),
    (convert host onDefault v type).runIn w = (.ok y, w')

namespace Converts

variable {type : GraphType} {n : GraphNode} {v : WireValue} {y : HostValue}

theorem of_runIn_convertArgument {w w' : Workspace σ}
    (h : (convertArgument host type v).runIn w = (.ok y, w')) : Converts host type v y := by
  obtain ⟨onDefault, hrun⟩ := exists_runIn_convertArgument host type v w
  exact ⟨onDefault, w, w', hrun.symm.trans h⟩

theorem eq_null (h : Converts host type .null y) : y = .null := by
  obtain ⟨onDefault, w, w', h⟩ := h
  cases h
  rfl

theorem inner (h : Converts host (.nonNull type) v y) : Converts host type v y := by
  obtain ⟨onDefault, w, w', h⟩ := h
  rw [convert_nonNull] at h
  exact ⟨onDefault, w, w', h⟩

theorem items (h : Converts host (.list type) v y) (hv : v ≠ .null) :
    ∃ ys, y = .list ys ∧ List.Forall₂ (Converts host type) v.items ys := by
  obtain ⟨onDefault, w, w', h⟩ := h
  by_cases hlist : ∃ items, v = .list items
  · obtain ⟨items, rfl⟩ := hlist
    rw [convert_items] at h
    obtain ⟨ys, w₁, hys, h⟩ := Execute.runIn_bind_eq_ok h
    cases h
    exact ⟨ys, rfl, (Execute.forall₂_of_runIn_mapM hys).imp fun _ _ hy ↦ ⟨onDefault, hy⟩⟩
  · have hsingle : ∀ items, v ≠ .list items := fun items hv ↦ hlist ⟨items, hv⟩
    rw [convert_single type hv hsingle] at h
    obtain ⟨x, w₁, hx, h⟩ := Execute.runIn_bind_eq_ok h
    cases h
    rw [WireValue.items_of_ne_list hsingle]
    exact ⟨[x], rfl, .cons ⟨onDefault, w, _, hx⟩ .nil⟩

theorem instance_eq {i : InputNode} {supplied : List (String × WireValue)}
    (h : Converts host (.named (.input i)) (.object supplied) y) :
    ∃ props, y = .instanceOf i.cls props [] := by
  obtain ⟨onDefault, w, w', h⟩ := h
  rw [convert_object, InputNode.read] at h
  obtain ⟨fields, w₁, -, h⟩ := Execute.runIn_bind_eq_ok h
  obtain ⟨props, w₂, -, h⟩ := Execute.runIn_bind_eq_ok h
  cases h
  exact ⟨_, rfl⟩

theorem read (h : Converts host (.named n) v y) (hv : v ≠ .null)
    (hn : ∀ i, n = .input i → ∀ supplied, v ≠ .object supplied) :
    n.readName v v.member = .ok y := by
  obtain ⟨onDefault, w, w', h⟩ := h
  rw [convert_node n hv hn] at h
  exact congrArg Prod.fst h

end Converts

/-! ## Lists among the items -/

/-- Whether a list stands where the items of a list are none. -/
def GraphType.bursts : GraphType → HostValue → Bool
  | .named _, _ => false
  | .nonNull inner, v => inner.bursts v
  | .list item, v =>
    v.list?.any fun items ↦ items.any fun i ↦
      item.item?.isNone && i.list?.isSome || item.bursts i

/-- Whether an item bursts the list that it stands in: it is a list and should be none, or bursts
one of its own. -/
def GraphType.burstsAsItem (item : GraphType) (i : HostValue) : Bool :=
  item.item?.isNone && i.list?.isSome || item.bursts i

namespace GraphType

variable {type : GraphType}

theorem bursts_items (item : GraphType) (items : List HostValue) :
    (list item).bursts (.list items) = items.any item.burstsAsItem := by
  rw [bursts]
  rfl

theorem bursts_of_list?_eq_none {y : HostValue} (h : y.list? = none) : type.bursts y = false := by
  induction type with
  | named n => rfl
  | nonNull inner ih => exact ih
  | list item _ => rw [bursts, h]; rfl

theorem bursts_of_item?_eq_none (h : type.item? = none) (y : HostValue) :
    type.bursts y = false := by
  induction type with
  | named n => rfl
  | nonNull inner ih => exact ih h
  | list item _ => cases h

end GraphType

/-- **What has been converted is cast to itself**, or refused if a list stands where the items of a
list are none. -/
theorem TypeRef.ArgumentShapes.apply {t : TypeRef} {type : GraphType}
    (h : t.ArgumentShapes r type) {v : WireValue} (hv : type.admits v = true) {y : HostValue}
    (hy : Converts host type v y) (field : String) (st : σ) :
    (castPlan host r t st).1.apply field y =
      if type.bursts y then .error (.nestedList field) else .ok y := by
  induction h generalizing v y st with
  | node | scalar | enum =>
    rw [castPlan, GraphType.bursts, if_neg Bool.false_ne_true]
    rfl
  | @cls c hc n =>
    rw [GraphType.bursts, if_neg Bool.false_ne_true]
    cases v with
    | null =>
      rw [hy.eq_null]
      exact CastPlan.apply_of_isNullish _ field rfl
    | boolean | number | binary | string | enum | list => cases hv
    | object supplied =>
      -- an instance, which no plan for a class changes
      obtain ⟨props, rfl⟩ := hy.instance_eq
      rcases castPlan_cls host r c st with hplan | hplan <;> rw [hplan] <;> rfl
  | @array item type hitem ih =>
    rcases eq_or_ne v .null with rfl | hnull
    · rw [hy.eq_null, GraphType.bursts_of_list?_eq_none rfl, if_neg Bool.false_ne_true]
      exact CastPlan.apply_of_isNullish _ field rfl
    obtain ⟨ys, rfl, hys⟩ := hy.items hnull
    rw [GraphType.admits_list type hnull] at hv
    rw [castPlan_array, hitem.isInterface_eq_false, if_neg Bool.false_ne_true,
      GraphType.bursts_items]
    refine CastPlan.apply_items_eq_ite fun i hi ↦ ?_
    obtain ⟨u, hu, hui⟩ := exists_left_of_forall₂ hys hi
    rw [CastPlan.applyItem, hitem.isList_castPlan, ih (List.all_eq_true.1 hv u hu) hui st,
      GraphType.burstsAsItem]
    -- the plan expects a list among the items where the type has one
    cases type.item? <;> cases i.list? <;> rfl
  | thunk htarget _ ih =>
    rw [castPlan_thunk host r _ htarget]
    exact ih hv hy _
  | nonNull _ ih => exact ih (GraphType.admits_nonNull _ v ▸ hv) hy.inner st

/-! ## Nodes that take lists -/

theorem HostValue.list?_ofWire {v : WireValue} (h : ∀ items, v ≠ .list items) :
    (HostValue.ofWire v).list? = none := by
  cases v with
  | list items => exact absurd rfl (h items)
  | null | boolean | number | binary | string | enum | object => rfl

namespace GraphNode

variable {n : GraphNode} {v : WireValue}

/-- At a node that takes no lists nothing is read as one. -/
theorem list?_of_readName (hn : ¬n.TakesLists) (hv : n.admits v = true) {y : HostValue}
    (hy : n.readName v v.member = .ok y) : y.list? = none := by
  cases n with
  | scalar n =>
    cases hy
    refine HostValue.list?_ofWire ?_
    rintro items rfl
    rw [admits, Bool.and_eq_true, Bool.not_eq_true'] at hv
    exact hn (.scalar hv.1 hv.2)
  | enum n =>
    rw [readName, EnumNode.read] at hy
    split at hy
    · cases hy
      refine HostValue.list?_ofWire ?_
      rintro items rfl
      exact hn (.enum ‹_›)
    · cases hy
  | input n =>
    cases hy
    refine HostValue.list?_ofWire ?_
    rintro items rfl
    cases hv
  | object | union | interface => cases v <;> cases hv

/-- At a node that takes lists, some value that may be supplied is read as one. -/
theorem TakesLists.exists_list (h : n.TakesLists) : ∃ v items, v ≠ .null ∧
    n.admits v = true ∧ (∀ i, n ≠ .input i) ∧ n.readName v v.member = .ok (.list items) := by
  cases h with
  | @scalar n items hn haccepts =>
    refine ⟨.list items, HostValue.itemsOfWire items, nofun, ?_, nofun, rfl⟩
    rw [admits, hn, haccepts]
    rfl
  | @enum n name items hvalue =>
    refine ⟨.enum name, HostValue.itemsOfWire items, nofun, ?_, nofun, ?_⟩
    · rw [admits, hvalue]
      rfl
    · rw [readName, EnumNode.read, WireValue.member, hvalue]
      rfl

end GraphNode

namespace Converts

variable {type : GraphType} {v : WireValue} {y : HostValue}

theorem list?_eq_none (h : Converts host type v y) (hv : type.admits v = true)
    (htype : type.item? = none) (hn : ¬type.node.TakesLists) : y.list? = none := by
  induction type with
  | nonNull inner ih => exact ih h.inner (GraphType.admits_nonNull inner v ▸ hv) htype hn
  | list item _ => cases htype
  | named n =>
    rcases eq_or_ne v .null with rfl | hnull
    · rw [h.eq_null]
      rfl
    rw [GraphType.admits_named n hnull] at hv
    by_cases hobject : ∃ i supplied, n = .input i ∧ v = .object supplied
    · obtain ⟨i, supplied, rfl, rfl⟩ := hobject
      obtain ⟨props, rfl⟩ := h.instance_eq
      rfl
    · exact n.list?_of_readName hn hv
        (h.read hnull fun i hi supplied hs ↦ hobject ⟨i, supplied, hi, hs⟩)

/-- At a node that takes no lists, no list stands where the items of a list are none. -/
theorem bursts_eq_false (h : Converts host type v y) (hv : type.admits v = true)
    (hn : ¬type.node.TakesLists) : type.bursts y = false := by
  induction type generalizing v y with
  | named n => rfl
  | nonNull inner ih => exact ih h.inner (GraphType.admits_nonNull inner v ▸ hv) hn
  | list item ih =>
    rcases eq_or_ne v .null with rfl | hnull
    · rw [h.eq_null]
      rfl
    obtain ⟨ys, rfl, hys⟩ := h.items hnull
    rw [GraphType.admits_list item hnull] at hv
    rw [GraphType.bursts_items, List.any_eq_false]
    intro i hi
    obtain ⟨u, hu, hui⟩ := exists_left_of_forall₂ hys hi
    have hadmits := List.all_eq_true.1 hv u hu
    rw [GraphType.burstsAsItem, ih hui hadmits hn, Bool.or_false, Bool.and_eq_true,
      Option.isNone_iff_eq_none, not_and, Bool.not_eq_true]
    intro hitem
    rw [hui.list?_eq_none hadmits hitem hn]
    rfl

end Converts

/-! ### A value that is refused -/

/-- A value in lists of one item each. -/
def WireValue.nested : Nat → WireValue → WireValue
  | 0, v => v
  | n + 1, v => .list [v.nested n]

namespace GraphType

variable {v : WireValue}

/-- What may be supplied at the node of a type may be so for the type, if it is put in lists. -/
theorem admits_nested {type : GraphType} (hv : v ≠ .null) (h : type.node.admits v = true) :
    type.admits (v.nested type.listDepth) = true := by
  induction type with
  | named n => exact admits_named n hv ▸ h
  | nonNull inner ih =>
    rw [admits_nonNull]
    exact ih h
  | list item ih =>
    rw [listDepth, WireValue.nested, admits_list item (by nofun), WireValue.items, List.all_cons,
      ih h]
    rfl

/-- A value in lists is converted to what it is converted to without them, put in lists. -/
theorem convert_nested_list (type : GraphType)
    (onDefault : GraphType → WireValue → Execute σ HostValue) :
    convert host onDefault (v.nested type.listDepth) type =
      HostValue.nested type.listDepth <$> convert host onDefault v (.named type.node) := by
  induction type with
  | named n => exact (id_map _).symm
  | nonNull inner ih =>
    rw [convert_nonNull]
    exact ih
  | list item ih =>
    rw [listDepth, WireValue.nested, convert_items, List.mapM_cons, List.mapM_nil, ih]
    simp only [bind_pure_comp, Functor.map_map, map_pure]
    rfl

theorem listDepth_of_item?_eq_none {type : GraphType} (h : type.item? = none) :
    type.listDepth = 0 := by
  induction type with
  | named n => rfl
  | nonNull inner ih => exact ih h
  | list item _ => cases h

/-- A list within the lists of a list type bursts the innermost of them. -/
theorem bursts_nested {type : GraphType} (h : type.item?.isSome = true) (items : List HostValue) :
    type.bursts (.nested type.listDepth (.list items)) = true := by
  induction type with
  | named n => cases h
  | nonNull inner ih => exact ih h
  | list item ih =>
    rw [listDepth, HostValue.nested, bursts_items, List.any_cons, List.any_nil, Bool.or_false,
      burstsAsItem, Bool.or_eq_true, Bool.and_eq_true]
    cases hitem : item.item? with
    | some inner => exact .inr (ih (by rw [hitem]; rfl))
    | none =>
      rw [listDepth_of_item?_eq_none hitem]
      exact .inl ⟨rfl, rfl⟩

end GraphType

/-- For a list type at whose node a value is read as a list, there is a value that may be supplied
and is converted to one with a list too many. -/
theorem exists_runIn_convertArgument_bursts {type : GraphType} (hitem : type.item?.isSome = true)
    (hn : type.node.TakesLists) (host : Host σ) (w : Workspace σ) :
    ∃ v y, type.admits v = true ∧ (convertArgument host type v).runIn w = (.ok y, w) ∧
      type.bursts y = true := by
  obtain ⟨v, items, hnull, hv, hinput, hread⟩ := hn.exists_list
  refine ⟨v.nested type.listDepth, .nested type.listDepth (.list items),
    GraphType.admits_nested hnull hv, ?_, GraphType.bursts_nested hitem items⟩
  obtain ⟨onDefault, hrun⟩ :=
    exists_runIn_convertArgument host type (v.nested type.listDepth) w
  rw [hrun, GraphType.convert_nested_list,
    convert_node type.node hnull fun i hi ↦ absurd hi (hinput i), hread]
  rfl

/-! ## Compiled fields -/

theorem ParamBinding.bind_of_supplied {p : ParamBinding} {exposed : String} {plan : CastPlan}
    (hp : p.binding = .argument exposed plan) {data : ResolverData} {y : HostValue}
    (hy : p.supplied data = some y) :
    p.bind host data = ExceptT.mk (pure ((plan.apply p.name y).mapError .cast)) := by
  rw [bind, hp]
  dsimp only
  rw [hy, ParamBinding.plan, hp]

/-- A parameter gets what was supplied for it as it was converted. -/
def ParamBinding.KeepsConverted (host : Host σ) (type : GraphType) (p : ParamBinding) : Prop :=
  ∀ v, type.admits v = true → ∀ (w w' : Workspace σ) (y : HostValue),
    (convertArgument host type v).runIn w = (.ok y, w') →
      ∀ data : ResolverData, p.supplied data = some y → p.bind host data = pure y

/-- **Which arguments reach their method as they were converted.**  Each parameter of a compiled
field that callers supply has a reference, which resolves in the place of an argument to a type.
Whatever may be supplied for the type and is converted at it is bound as it is, with one exception:
if a list has come to stand where the items of a list are none, the field fails.  This happens for
some value exactly if the type is a list and its node takes lists.  A deferred reference has one
target, whether it is forced for the type of the argument or for the plan of its cast. -/
theorem compileField_binds_converted {w w' : Workspace σ} (hw : w.Reachable d host) {s : SessionId}
    (hs : w.isOpen s = true) {owner : ClassRef} {spec : FieldSpec}
    (hspec : spec.Within d (w.Offers d)) {root : Option Instance} {field : CompiledField}
    (h : (compileField host s owner spec root).runIn w = (.ok field, w')) :
    List.Forall₂ (fun x p ↦ ∀ exposed plan, p.binding = .argument exposed plan →
      ∃ reference type, TypedAs host w s owner spec.property x.2 x.1
          (spec.argSpec (w.registries s) owner x.2) reference type ∧
        (∀ v, type.admits v = true → ∀ (w₁ w₂ : Workspace σ) (y : HostValue),
          (convertArgument host type v).runIn w₁ = (.ok y, w₂) →
            ∀ data : ResolverData, p.supplied data = some y → p.bind host data =
              if type.bursts y then throw (.cast (.nestedList p.name)) else pure y) ∧
        (p.KeepsConverted host type ↔ type.item? = none ∨ ¬type.node.TakesLists))
      spec.params.zipIdx field.resolver.params := by
  have hw₀ := hw.sound.coherent
  refine (compileField_typed hw₀ (Workspace.lt_length_of_isOpen hs) (.refl hw₀) hspec h).imp ?_
  rintro ⟨param, index⟩ p ⟨hbound, htyped⟩ exposed plan hp
  obtain ⟨reference, type, ht⟩ := htyped (by rw [ParamBinding.exposed?, hp]; rfl)
  have hshapes : reference.ArgumentShapes (w.registries s) type :=
    resolveType_argumentShapes (Prod.ext ht.resolved rfl) ht.isInput
  have hplan : (castPlan host (w.registries s) reference w.host).1 = plan := by
    cases hbound with
    | injected | hidden => cases hp
    | @exposed arg other plan' ha hi hother hplan =>
      cases hp
      have harg : spec.argSpec (w.registries s) owner index = arg := by
        rw [FieldSpec.argSpec]
        rcases ha with ha | ⟨ha, -, rfl⟩ <;> rw [ha] <;> rfl
      cases (harg ▸ ht.reference_eq).symm.trans hother
      exact hplan w.host
  have hbind (v : WireValue) (hv : type.admits v = true) (w₁ w₂ : Workspace σ) (y : HostValue)
      (hy : (convertArgument host type v).runIn w₁ = (.ok y, w₂)) (data : ResolverData)
      (hdata : p.supplied data = some y) : p.bind host data =
        if type.bursts y then throw (.cast (.nestedList p.name)) else pure y := by
    rw [ParamBinding.bind_of_supplied hp hdata, ← hplan,
      hshapes.apply hv (.of_runIn_convertArgument hy)]
    split <;> rfl
  refine ⟨reference, type, ht, hbind, fun hkeeps ↦ ?_, fun hnode v hv w₁ w₂ y hy data hdata ↦ ?_⟩
  · by_contra hnot
    rw [not_or, not_not, ← ne_eq, Option.ne_none_iff_isSome] at hnot
    obtain ⟨v, y, hv, hy, hbursts⟩ :=
      exists_runIn_convertArgument_bursts hnot.1 hnot.2 host w
    let data : ResolverData := { source := .null, args := [(exposed, y)] }
    have hdata : p.supplied data = some y := by
      rw [ParamBinding.supplied, hp]
      simp [data, OrderedMap.find]
    have heq := (hbind v hv w w y hy data hdata).symm.trans (hkeeps v hv w w y hy data hdata)
    rw [if_pos hbursts] at heq
    cases congrArg (fun x : Resolve σ HostValue ↦ x.run w.host) heq
  · have hfalse : type.bursts y = false := by
      rcases hnode with hitem | hnode
      · exact GraphType.bursts_of_item?_eq_none hitem y
      · exact (Converts.of_runIn_convertArgument hy).bursts_eq_false hv hnode
    rw [hbind v hv w₁ w₂ y hy data hdata, hfalse, if_neg Bool.false_ne_true]

/-! ### An instance -/

namespace Grid

/-- A class with a field of one parameter. -/
def owner : ClassRef := .base ⟨1⟩ "Owner"

/-- A scalar that accepts all values. -/
def json : ScalarNode where
  id := .custom 0
  name := "Json"

/-- The class and the scalar. -/
def declared : Declarations :=
  { Declarations.ofClasses [owner] (List.nodup_singleton _) with
    scalars := fun n ↦ n = json
    scalars_inj := fun hn hn' _ ↦ hn.trans hn'.symm
    scalars_custom := fun hn ↦ hn ▸ ⟨rfl, 0, rfl⟩
    enumNodes_custom := fun hn ↦ hn.elim }

/-- A field that takes some values of the scalar. -/
def spec : FieldSpec where
  property := "f"
  type := some (.scalar .int)
  params := [{ name := "x" }]
  method := some ⟨0⟩

/-- A session in which the parameter is declared as a list of the scalar. -/
def workspace : Workspace Unit :=
  (Workspace.openSession { host := () } {}).2.modifyRegistries 0
    (·.arg owner "f" 0 { type := some (.list (.node (.scalar json))) })

/-- The type of the parameter. -/
def type : GraphType := .nonNull (.list (.nonNull (.named (.scalar json))))

/-- A list of one value of the scalar, which is a list itself. -/
def grid : WireValue := .list [.list [.number (.int 1)]]

/-- What it is converted to. -/
def converted : HostValue := .list [.list [.scalar (.number (.int 1))]]

theorem reachable : workspace.Reachable declared .idle := by
  refine (Workspace.Reachable.opened () {}).registered (s := 0) rfl (.arg owner "f" 0 ?_)
  rintro t ⟨⟩
  refine .array fun item hitem ↦ ?_
  cases List.mem_singleton.1 hitem
  exact .node ⟨.inl rfl, nofun⟩

theorem spec_within (offered : GraphNode → Prop) : spec.Within declared offered := by
  refine ⟨fun t ht ↦ ?_, fun p hp g hg ↦ ?_, nofun⟩
  · cases ht
    exact .scalar .int
  · cases List.mem_singleton.1 hp
    cases hg

end Grid

open Grid in
/-- A list of lists is converted at a list of the scalar, and then refused. -/
theorem compileField_binds_converted_grid :
    ∃ field p w', (compileField .idle 0 owner spec none).runIn workspace = (.ok field, w') ∧
      field.resolver.params = [p] ∧ type.admits grid = true ∧
      ((convertArgument .idle type grid).runIn workspace).1 = .ok converted ∧
      p.bind .idle { source := .null, args := [("x", converted)] } =
        throw (.cast (.nestedList "x")) ∧
      ¬p.KeepsConverted .idle type := by
  have hfacts : ((compileField .idle 0 owner spec none).runIn workspace).1.toOption.map
      (fun field ↦ field.resolver.params.map fun p ↦ (p.name, p.exposed?)) =
        some [("x", some "x")] := by cbv
  rcases hrun : (compileField .idle 0 owner spec none).runIn workspace with ⟨e | field, w'⟩ <;>
    rw [hrun] at hfacts
  · cases hfacts
  have hbinds := compileField_binds_converted reachable rfl (spec_within _) hrun
  obtain ⟨p, hparams, hp⟩ := List.map_eq_singleton_iff.1 (Option.some.inj hfacts)
  obtain ⟨hname, hexposed⟩ := Prod.mk.inj hp
  obtain ⟨plan, hbinding⟩ : ∃ plan, p.binding = .argument "x" plan := by
    rw [ParamBinding.exposed?] at hexposed
    split at hexposed
    · cases hexposed
      exact ⟨_, ‹_›⟩
    · cases hexposed
  rw [hparams] at hbinds
  obtain ⟨reference, type', ht, hbind, hkeeps⟩ := (List.forall₂_cons.1 hbinds).1 "x" plan hbinding
  obtain rfl : TypeRef.list (.node (.scalar json)) = reference := Except.ok.inj ht.reference_eq
  obtain rfl : type = type' := Except.ok.inj ht.resolved
  have hconvert : ((convertArgument .idle type grid).runIn workspace).1 = .ok converted := by cbv
  have hsupplied : p.supplied { source := .null, args := [("x", converted)] } = some converted := by
    rw [ParamBinding.supplied, hbinding]
    rfl
  have hrefused := hbind grid rfl workspace _ converted (Prod.ext hconvert rfl) _ hsupplied
  have hbursts : type.bursts converted = true := rfl
  rw [if_pos hbursts, hname] at hrefused
  refine ⟨field, p, w', rfl, hparams, rfl, hconvert, hrefused, fun h ↦ ?_⟩
  rcases hkeeps.1 h with hitem | hnode
  · cases hitem
  · have haccepts : json.accepts (.list []) = true := rfl
    exact hnode (.scalar rfl haccepts)

end ApiGraph
