import ApiGraph.Proofs.Argument.Recursion
import ApiGraph.Proofs.Cast

/-!
# Converted values that are cast

A value that has been converted for an input type may be returned by a field whose reference is the
same, and is then cast by it.  Conversion has made instances where the reference names a class, and
lists where it has lists, so that the cast finds nothing to do.

## What is here

* `TypeRef.Plain`: a reference that is made by lists of scalars and classes, and
  `TypeRef.InputShapes`: its types on the input side, with `resolveType_inputShapes`.
* `GraphType.suits`: the values that are well typed.
* `TypeRef.InputShapes.recast`: what such a value is converted to is not changed by a cast.
-/

set_option autoImplicit false

namespace ApiGraph

variable {σ : Type} {host : Host σ} {r : Registries} {s : SessionId}

/-! ## References on the input side -/

namespace TypeRef

/-- A reference that is made by lists of native scalars and classes, deferred or not. -/
inductive Plain : TypeRef → Prop
  | scalar (given : NativeScalar) : Plain (.scalar given)
  | cls (c : ClassRef) : Plain (.cls c)
  | array {item : TypeRef} (h : Plain item) : Plain (.array [item])
  | thunk {target : TypeRef} (label : Option String) (h : Plain target) :
      Plain (.thunk label target)

/-- A graph type has the lists of a reference, and at the bottom a scalar or the input type of a
class that is no interface. -/
inductive InputShapes (r : Registries) : TypeRef → GraphType → Prop
  | scalar (given : NativeScalar) (n : ScalarNode) :
      InputShapes r (.scalar given) (.named (.scalar n))
  | cls {c : ClassRef} (hc : r.isInterface c.key = false) (n : InputNode) :
      InputShapes r (.cls c) (.named (.input n))
  | array {item : TypeRef} {type : GraphType} (h : InputShapes r item type) :
      InputShapes r (.array [item]) (.list type)
  | thunk {label : Option String} {target : TypeRef} {type : GraphType}
      (htarget : target.isThunk = false) (h : InputShapes r target type) :
      InputShapes r (.thunk label target) type
  | nonNull {t : TypeRef} {type : GraphType} (h : InputShapes r t type) :
      InputShapes r t (.nonNull type)

namespace InputShapes

variable {t : TypeRef} {type : GraphType}

theorem wrap (h : t.InputShapes r type) (o : ResolveOptions) : t.InputShapes r (o.wrap type) :=
  o.wrap_induction h fun _ ↦ .nonNull

theorem imp {r' : Registries} (h : t.InputShapes r' type)
    (hr : ∀ key, r.isInterface key = true → r'.isInterface key = true) : t.InputShapes r type := by
  induction h with
  | scalar given n => exact .scalar given n
  | cls hc n => exact .cls (Bool.eq_false_iff.2 fun hi ↦ Bool.eq_false_iff.1 hc (hr _ hi)) n
  | array _ ih => exact .array ih
  | thunk htarget _ ih => exact .thunk htarget ih
  | nonNull _ ih => exact .nonNull ih

theorem isInterface_eq_false (h : t.InputShapes r type) : t.isInterface r = false := by
  induction h with
  | cls hc n => exact hc
  | scalar | array | thunk => rfl
  | nonNull _ ih => exact ih

end InputShapes
end TypeRef

/-- The node of a class is an input type only if the class is no interface. -/
theorem compileClass_isInput {c : ClassRef} {argument : Bool} {n : GraphNode}
    {w w' : Workspace σ} (h : (compileClass s c argument).runIn w = (.ok n, w'))
    (hn : n.isInput = true) : (w.registries s).isInterface c.key = false ∧ ∃ i, n = .input i := by
  rw [compileClass, Compile.runIn_get_bind] at h
  dsimp only at h
  have hmap {α : Type} {x : Compile σ α} {f : α → GraphNode}
      (h : (f <$> x).runIn w = (.ok n, w')) : ∃ a, n = f a := by
    rw [← bind_pure_comp] at h
    obtain ⟨a, _, -, h⟩ := Compile.runIn_bind_eq_ok h
    cases h
    exact ⟨a, rfl⟩
  split at h
  · obtain ⟨a, rfl⟩ := hmap h
    cases hn
  split at h
  · obtain ⟨a, rfl⟩ := hmap h
    cases hn
  rename_i hinterface
  split at h
  · exact ⟨Bool.eq_false_iff.2 hinterface, hmap h⟩
  split at h
  · obtain ⟨a, rfl⟩ := hmap h
    cases hn
  · cases h

/-- A reference on the input side resolves to a type of its own lists. -/
theorem resolveType_inputShapes {t : TypeRef} (ht : t.Plain) {o : ResolveOptions}
    {type : GraphType} {w w' : Workspace σ}
    (h : (resolveType host s t o).runIn w = (.ok type, w')) (hinput : type.node.isInput = true) :
    t.InputShapes (w.registries s) type := by
  refine resolveType_induction (motive := fun t type ↦ t.Plain → type.node.isInput = true →
    t.InputShapes (w.registries s) type) ?node ?scalar ?enum ?cls ?array ?thunk rfl h ht hinput
  case node => exact fun _ _ ht ↦ nomatch ht
  case scalar => exact fun given o _ _ ↦ .wrap (.scalar given _) o
  case enum => exact fun _ _ _ ht ↦ nomatch ht
  case cls =>
    intro c n o v v' hr hn _ hinput
    rw [ResolveOptions.node_wrap] at hinput
    obtain ⟨hc, i, rfl⟩ := compileClass_isInput hn hinput
    exact .wrap (.cls (hr ▸ hc) i) o
  case array =>
    rintro item type o hitem ⟨⟩ hinput
    rw [ResolveOptions.node_wrap] at hinput
    exact .wrap (.array (hitem ‹_› hinput)) o
  case thunk =>
    rintro label target type htarget h ⟨⟩ hinput
    exact .thunk htarget (h ‹_› hinput)

/-! ## Values -/

/-- The items that a value has where a list is expected: a single value stands for a list of it. -/
def WireValue.items : WireValue → List WireValue
  | .list items => items
  | v => [v]

theorem WireValue.items_of_ne_list {v : WireValue} (h : ∀ items, v ≠ .list items) :
    v.items = [v] := by
  cases v with
  | list items => exact absurd rfl (h items)
  | null | boolean | number | binary | string | enum | object => rfl

/-- A value is well typed: it has no lists but those of the type, and where the type ends it is an
object for an input type, and for anything else neither an object nor a list.  Null may stand
anywhere, and a single value for a list. -/
def GraphType.suits : GraphType → WireValue → Bool
  | _, .null => true
  | .nonNull inner, v => inner.suits v
  | .list item, .list items => items.all item.suits
  | .list item, v => item.suits v
  | .named (.input _), .object _ => true
  | .named (.input _), _ => false
  | .named _, .list _ | .named _, .object _ => false
  | .named _, _ => true

namespace GraphType

theorem suits_null (type : GraphType) : type.suits .null = true := by
  cases type <;> rfl

theorem suits_nonNull (inner : GraphType) (v : WireValue) :
    (nonNull inner).suits v = inner.suits v := by
  cases v with
  | null => rw [suits_null, suits_null]
  | boolean | number | binary | string | enum | list | object => rfl

theorem suits_list (item : GraphType) {v : WireValue} (hv : v ≠ .null) :
    (list item).suits v = v.items.all item.suits := by
  cases v with
  | null => exact absurd rfl hv
  | list items => rfl
  | boolean | number | binary | string | enum | object => exact (Bool.and_true _).symm

end GraphType

/-- Where a list is expected, the items are converted one by one. -/
theorem fromInput_list_ok {fieldsOf : InputNode → Except CompileError InputMap} {item : GraphType}
    {v : WireValue} (hv : v ≠ .null) {y : HostValue}
    (h : fromInput fieldsOf (.list item) v = Answer.given (.ok y)) :
    ∃ converted, y = .list converted ∧
      List.Forall₂ (fun v y ↦ fromInput fieldsOf item v = Answer.given (.ok y)) v.items
        converted := by
  by_cases hlist : ∃ items, v = .list items
  · obtain ⟨items, rfl⟩ := hlist
    rw [fromInput_items] at h
    obtain ⟨converted, hconverted, h⟩ := Answer.bind_eq_ok h
    cases h
    exact ⟨converted, rfl, Answer.forall₂_of_mapM hconverted⟩
  · have hsingle : ∀ items, v ≠ .list items := fun items hv ↦ hlist ⟨items, hv⟩
    rw [fromInput_single item hv hsingle] at h
    obtain ⟨x, hx, h⟩ := Answer.bind_eq_ok h
    cases h
    rw [WireValue.items_of_ne_list hsingle]
    exact ⟨[x], rfl, .cons hx .nil⟩

theorem CastPlan.apply_of_applyItem {inner : CastPlan} {field : String} {v y : HostValue}
    (h : inner.applyItem field v = .ok y) : inner.apply field v = .ok y := by
  rw [applyItem] at h
  split at h
  · cases h
  · exact h

/-- Null is converted to null, which no cast changes. -/
theorem CastPlan.applyItem_of_null {fieldsOf : InputNode → Except CompileError InputMap}
    {type : GraphType} {y : HostValue} (h : fromInput fieldsOf type .null = some (.ok y))
    (inner : CastPlan) (field : String) : inner.applyItem field y = .ok y := by
  rw [fromInput_null] at h
  cases h
  exact inner.apply_of_isNullish field rfl

/-- Items that are each refused or left as they are: the list is left as it is, unless one of its
items is refused. -/
theorem CastPlan.apply_items_eq_ite {inner : CastPlan} {field : String} {bad : HostValue → Bool}
    {items : List HostValue}
    (h : ∀ i ∈ items,
      inner.applyItem field i = if bad i then .error (.nestedList field) else .ok i) :
    (CastPlan.list inner).apply field (.list items) =
      if items.any bad then .error (.nestedList field) else .ok (.list items) := by
  rw [apply_items]
  suffices hitems : items.mapM (inner.applyItem field) =
      if items.any bad then .error (.nestedList field) else .ok items by
    rw [hitems]
    split <;> rfl
  induction items with
  | nil => rfl
  | cons i rest ih =>
    rw [List.mapM_cons, h i List.mem_cons_self, ih fun j hj ↦ h j (List.mem_cons_of_mem _ hj),
      List.any_cons]
    cases bad i with
    | true => rfl
    | false => cases rest.any bad <;> rfl

theorem CastPlan.apply_items_of_forall {inner : CastPlan} {field : String}
    {items : List HostValue} (h : ∀ i ∈ items, inner.applyItem field i = .ok i) :
    (CastPlan.list inner).apply field (.list items) = .ok (.list items) := by
  have hitems : (CastPlan.list inner).apply field (.list items) =
      if items.any fun _ ↦ false then .error (.nestedList field) else .ok (.list items) :=
    apply_items_eq_ite fun i hi ↦ h i hi
  rw [hitems, if_neg (by simp)]

namespace TypeRef.InputShapes

variable {fieldsOf : InputNode → Except CompileError InputMap} {t : TypeRef} {type : GraphType}

/-- **A converted value is not changed by a cast**, neither as a whole nor as an item of a list: it
has instances where the reference names a class, and lists where the reference has lists. -/
theorem recast (h : t.InputShapes r type) {v : WireValue} (hv : type.suits v = true)
    {y : HostValue} (hy : fromInput fieldsOf type v = some (.ok y)) (field : String) (st : σ) :
    (castPlan host r t st).1.applyItem field y = .ok y := by
  induction h generalizing v y st with
  | scalar given n =>
    rcases eq_or_ne v .null with rfl | hnull
    · exact CastPlan.applyItem_of_null hy _ field
    rw [fromInput_node (.scalar n) hnull fun _ h ↦ nomatch h] at hy
    cases hy
    cases v with
    | null => exact absurd rfl hnull
    | list | object => cases hv
    | boolean | number | binary | string | enum => rfl
  | @cls c hc n =>
    cases v with
    | null => exact CastPlan.applyItem_of_null hy _ field
    | boolean | number | binary | string | enum | list => cases hv
    | object supplied =>
      -- an instance, which no plan for a class changes
      obtain ⟨_, props, -, -, rfl⟩ := fromInput_object_ok hy
      rcases castPlan_cls host r c st with hplan | hplan <;> rw [hplan] <;> rfl
  | @array item type hitem ih =>
    rcases eq_or_ne v .null with rfl | hnull
    · exact CastPlan.applyItem_of_null hy _ field
    obtain ⟨converted, rfl, hconverted⟩ := fromInput_list_ok hnull hy
    rw [GraphType.suits_list type hnull] at hv
    rw [castPlan_array, hitem.isInterface_eq_false, if_neg Bool.false_ne_true]
    refine CastPlan.apply_items_of_forall fun i hi ↦ ?_
    obtain ⟨u, hu, hui⟩ := exists_left_of_forall₂ hconverted hi
    exact ih (List.all_eq_true.1 hv u hu) hui st
  | thunk htarget _ ih =>
    rw [castPlan_thunk host r _ htarget]
    exact ih hv hy _
  | nonNull _ ih =>
    rw [fromInput_nonNull] at hy
    exact ih (GraphType.suits_nonNull _ v ▸ hv) hy st

end TypeRef.InputShapes

end ApiGraph
