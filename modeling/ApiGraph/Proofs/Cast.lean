import ApiGraph.Compile.Reference
import ApiGraph.Proofs.Result
import ApiGraph.Proofs.Session.Steps
import Mathlib

/-!
# Casting and the lists of a type

A type reference is read twice: as a graph type, and as a cast plan.  Both readings follow the
reference, each with cases of its own.  A value that has the lists of the graph type is cast without
complaint and keeps them, so that the engine finds a list wherever it expects one; except that a
plan never looks into a list of an interface, and so does not know that such a list is a list when
it stands in another one.

## What is here

* `resolveType_induction`: induction over a reference that resolves.
* `TypeRef.Shapes`: the lists of a reference and of its graph type, `resolveType_shapes`.
* `TypeRef.clashes`: there is a list of an interface among the items of a list.
* `castPlan_fits`: which values are cast, and what the engine says to them.
-/

set_option autoImplicit false

namespace ApiGraph

variable {σ : Type} {host : Host σ} {r : Registries} {s : SessionId}

/-! ## References that resolve -/

/-- What holds of a type and goes over to its non-null one holds of the type under any options. -/
theorem ResolveOptions.wrap_induction {motive : GraphType → Prop} {type : GraphType}
    (h : motive type) (nonNull : ∀ t, motive t → motive (.nonNull t)) (o : ResolveOptions) :
    motive (o.wrap type) := by
  rw [ResolveOptions.wrap]
  split
  · exact h
  · cases type with
    | nonNull inner => exact h
    | named | list => exact nonNull _ h

/-- **Induction over a reference that resolves.**  What holds of the types of leaves and goes
through lists and deferred references holds of the type that a reference resolves to.  At a class
the node has been made, in a workspace where the same is registered. -/
theorem resolveType_induction {motive : TypeRef → GraphType → Prop}
    (node : ∀ n (o : ResolveOptions), motive (.node n) (o.wrap (.named n)))
    (scalar : ∀ given (o : ResolveOptions),
      motive (.scalar given) (o.wrap (.named (.scalar given.node))))
    (enum : ∀ given n (o : ResolveOptions), motive (.enum given) (o.wrap (.named (.enum n))))
    (cls : ∀ c n (o : ResolveOptions) (v v' : Workspace σ), v.registries s = r →
      (compileClass s c o.argument).runIn v = (.ok n, v') → motive (.cls c) (o.wrap (.named n)))
    (array : ∀ item type (o : ResolveOptions), motive item type →
      motive (.array [item]) (o.wrap (.list type)))
    (thunk : ∀ label target type, target.isThunk = false → motive target type →
      motive (.thunk label target) type)
    {t : TypeRef} {o : ResolveOptions} {type : GraphType} {w w' : Workspace σ}
    (hr : w.registries s = r) (h : (resolveType host s t o).runIn w = (.ok type, w')) :
    motive t type := by
  induction t, o using resolveType.induct generalizing type w w' with
  | case1 n o =>
    rw [resolveType] at h
    cases h
    exact node n o
  | case2 given o =>
    rw [resolveType] at h
    cases h
    exact scalar given o
  | case3 item o ih =>
    rw [resolveType] at h
    obtain ⟨inner, w₁, hitem, h⟩ := Compile.runIn_bind_eq_ok h
    cases h
    exact array item inner o (ih hr hitem)
  | case4 items o hitems =>
    rcases items with _ | ⟨item, _ | ⟨second, rest⟩⟩
    · rw [resolveType] at h
      · cases h
      · rintro item ⟨⟩
    · exact absurd rfl (hitems item)
    · rw [resolveType] at h
      · cases h
      · rintro item ⟨⟩
  | case5 given o =>
    rw [resolveType] at h
    obtain ⟨n, w₁, -, h⟩ := Compile.runIn_bind_eq_ok h
    cases h
    exact enum given n o
  | case6 c o =>
    rw [resolveType] at h
    obtain ⟨n, w₁, hn, h⟩ := Compile.runIn_bind_eq_ok h
    cases h
    exact cls c n o w _ hr hn
  | case7 label target o hallow ih =>
    rw [resolveType, if_pos hallow] at h
    obtain ⟨_, w₁, hforced, h⟩ := Compile.runIn_bind_eq_ok h
    cases hforced
    split at h
    · cases h
    · rename_i htarget
      have htype := ih (by exact hr) h
      exact thunk label target type (Bool.eq_false_iff.2 htarget) htype
  | case8 label target o hallow =>
    rw [resolveType, if_neg hallow] at h
    cases h

/-! ## The lists of a reference -/

namespace TypeRef

/-- A graph type has the lists of a reference, and is non-null in any places. -/
inductive Shapes : TypeRef → GraphType → Prop
  | node (given n : GraphNode) : Shapes (.node given) (.named n)
  | scalar (given : NativeScalar) (n : GraphNode) : Shapes (.scalar given) (.named n)
  | enum (given : EnumDef) (n : GraphNode) : Shapes (.enum given) (.named n)
  | cls (given : ClassRef) (n : GraphNode) : Shapes (.cls given) (.named n)
  | array {item : TypeRef} {type : GraphType} (h : Shapes item type) :
      Shapes (.array [item]) (.list type)
  | thunk {label : Option String} {target : TypeRef} {type : GraphType}
      (htarget : target.isThunk = false) (h : Shapes target type) :
      Shapes (.thunk label target) type
  | nonNull {t : TypeRef} {type : GraphType} (h : Shapes t type) : Shapes t (.nonNull type)

theorem Shapes.wrap {t : TypeRef} {type : GraphType} (h : Shapes t type) (o : ResolveOptions) :
    Shapes t (o.wrap type) :=
  o.wrap_induction h fun _ ↦ .nonNull

end TypeRef

/-- A reference resolves to a type of its own lists. -/
theorem resolveType_shapes {t : TypeRef} {o : ResolveOptions} {type : GraphType}
    {w w' : Workspace σ} (h : (resolveType host s t o).runIn w = (.ok type, w')) :
    t.Shapes type := by
  refine resolveType_induction (motive := TypeRef.Shapes)
    ?node ?scalar ?enum ?cls ?array ?thunk rfl h
  case node => exact fun n o ↦ .wrap (.node n n) o
  case scalar => exact fun given o ↦ .wrap (.scalar given _) o
  case enum => exact fun given n o ↦ .wrap (.enum given _) o
  case cls => exact fun c n o _ _ _ _ ↦ .wrap (.cls c n) o
  case array => exact fun item type o hitem ↦ .wrap (.array hitem) o
  case thunk => exact fun label target type htarget h ↦ .thunk htarget h

namespace TypeRef

/-- Whether a reference is an interface, written by its class. -/
def isInterface (r : Registries) : TypeRef → Bool
  | .cls c => r.isInterface c.key
  | _ => false

/-- Whether a reference is a list of an interface that is written by its class, deferred or not. -/
def isInterfaceList (r : Registries) : TypeRef → Bool
  | .array [item] => item.isInterface r
  | .thunk _ target => target.isInterfaceList r
  | _ => false

/-- Whether a list of an interface is the item of another list in a reference. -/
def nestsInterfaceList (r : Registries) : TypeRef → Bool
  | .array [item] => item.isInterfaceList r || item.nestsInterfaceList r
  | .thunk _ target => target.nestsInterfaceList r
  | _ => false

/-- Whether, in a value, a list of an interface stands among the items of another list. -/
def clashes (r : Registries) : TypeRef → HostValue → Bool
  | .array [item], v =>
    v.list?.any fun items ↦ items.any fun i ↦
      item.isInterfaceList r && i.list?.isSome || item.clashes r i
  | .thunk _ target, v => target.clashes r v
  | _, _ => false

/-- Whether an item of a list clashes: it is a list of an interface, or does so within. -/
def clashesAsItem (r : Registries) (item : TypeRef) (i : HostValue) : Bool :=
  item.isInterfaceList r && i.list?.isSome || item.clashes r i

theorem clashes_items (r : Registries) (item : TypeRef) (items : List HostValue) :
    (TypeRef.array [item]).clashes r (.list items) = items.any (item.clashesAsItem r) := by
  rw [clashes]
  rfl

theorem clashes_of_list?_eq_none (item : TypeRef) {v : HostValue} (h : v.list? = none) :
    (TypeRef.array [item]).clashes r v = false := by
  rw [clashes, h]
  rfl

theorem clashes_of_isInterface {item : TypeRef} (h : item.isInterface r = true) (v : HostValue) :
    (TypeRef.array [item]).clashes r v = false := by
  cases item with
  | cls c => cases hlist : v.list? <;> simp [clashes, isInterfaceList, hlist]
  | node | scalar | enum | array | thunk => cases h

end TypeRef

/-! ## Plans -/

/-- The plan of a list is that of its items, but a list of an interface is not looked into. -/
theorem castPlan_array (host : Host σ) (r : Registries) (item : TypeRef) (st : σ) :
    (castPlan host r (.array [item]) st).1 =
      if item.isInterface r then .passthrough else .list (castPlan host r item st).1 := by
  cases item with
  | cls c =>
    have hitem : (castPlan host r (.cls c) st).1 =
        if r.isUnion c.key || r.isInterface c.key then .passthrough else .toInstance c := by
      rw [castPlan]
      rfl
    have hlist : (castPlan host r (.array [.cls c]) st).1 =
        if r.isInterface c.key then .passthrough
        else if r.isUnion c.key then .list .passthrough else .list (.toInstance c) := by
      rw [castPlan]
      rfl
    rw [hlist, hitem, TypeRef.isInterface]
    by_cases hi : r.isInterface c.key = true
    · rw [if_pos hi, if_pos hi]
    · rw [if_neg hi, if_neg hi, Bool.eq_false_iff.2 hi, Bool.or_false, apply_ite CastPlan.list]
  | node | scalar | enum | array | thunk =>
    rw [castPlan]
    · rfl
    · nofun

theorem castPlan_cls (host : Host σ) (r : Registries) (c : ClassRef) (st : σ) :
    (castPlan host r (.cls c) st).1 = .passthrough ∨
      (castPlan host r (.cls c) st).1 = .toInstance c := by
  rw [castPlan]
  by_cases h : (r.isUnion c.key || r.isInterface c.key) = true
  · exact .inl (if_pos h)
  · exact .inr (if_neg h)

theorem castPlan_thunk (host : Host σ) (r : Registries) (label : Option String) {target : TypeRef}
    (h : target.isThunk = false) (st : σ) :
    (castPlan host r (.thunk label target) st).1 =
      (castPlan host r target (host.forced label st).2).1 := by
  rw [castPlan]
  simp only [h, Bool.false_eq_true, if_false]
  rfl

/-- The cast of an item of a list. -/
def CastPlan.applyItem (inner : CastPlan) (field : String) (item : HostValue) :
    Except CastError HostValue :=
  if item.list?.isSome && !inner.isList then .error (.nestedList field)
  else inner.apply field item

theorem CastPlan.apply_items (inner : CastPlan) (field : String) (items : List HostValue) :
    (CastPlan.list inner).apply field (.list items) =
      (items.mapM (inner.applyItem field)).map .list := rfl

/-- Computations that each give a good value, or fail with one error in known places. -/
theorem mapM_error_or_ok {ε α β : Type} {f : α → Except ε β} {e : ε} {bad : α → Bool}
    {good : β → Prop} {l : List α}
    (h : ∀ a ∈ l, if bad a then f a = .error e else ∃ b, f a = .ok b ∧ good b) :
    if l.any bad then l.mapM f = .error e else ∃ bs, l.mapM f = .ok bs ∧ ∀ b ∈ bs, good b := by
  induction l with
  | nil => exact ⟨[], rfl, List.forall_mem_nil _⟩
  | cons a rest ih =>
    have ha := h a List.mem_cons_self
    replace ih := ih fun x hx ↦ h x (List.mem_cons_of_mem _ hx)
    rw [List.any_cons, List.mapM_cons]
    cases hbad : bad a with
    | true =>
      rw [hbad, if_pos rfl] at ha
      rw [Bool.true_or, if_pos rfl, ha]
      rfl
    | false =>
      rw [hbad, if_neg Bool.false_ne_true] at ha
      obtain ⟨b, hb, hgood⟩ := ha
      rw [Bool.false_or, hb]
      split at ih
      · rw [if_pos ‹_›, ih]
        rfl
      · obtain ⟨bs, hbs, hall⟩ := ih
        rw [if_neg ‹_›, hbs]
        exact ⟨b :: bs, rfl, List.forall_mem_cons.2 ⟨hgood, hall⟩⟩

namespace TypeRef.Shapes

variable {t : TypeRef} {type : GraphType}

/-- Where a value is a list, a plan expects one, unless it is the plan of a list of an interface. -/
theorem isList_castPlan (h : t.Shapes type) {v : HostValue} (hv : type.fits v = true)
    (hlist : v.list?.isSome = true) (st : σ) :
    (castPlan host r t st).1.isList = !t.isInterfaceList r := by
  induction h generalizing st with
  | node | scalar | enum | cls =>
    rw [GraphType.fits, Option.isNone_iff_eq_none] at hv
    rw [hv] at hlist
    cases hlist
  | @array item =>
    rw [castPlan_array, isInterfaceList]
    cases item.isInterface r <;> rfl
  | thunk htarget _ ih =>
    rw [castPlan_thunk host r _ htarget]
    exact ih hv _
  | nonNull _ ih => exact ih hv st

/-- What is cast without complaint is so as an item too, unless it is a list of an interface. -/
theorem applyItem (h : t.Shapes type) (field : String) {v : HostValue} (hv : type.fits v = true)
    (st : σ)
    (happly : if t.clashes r v then
        (castPlan host r t st).1.apply field v = .error (.nestedList field)
      else ∃ v', (castPlan host r t st).1.apply field v = .ok v' ∧ type.fits v' = true) :
    if t.clashesAsItem r v then
      (castPlan host r t st).1.applyItem field v = .error (.nestedList field)
    else ∃ v', (castPlan host r t st).1.applyItem field v = .ok v' ∧ type.fits v' = true := by
  rw [clashesAsItem, CastPlan.applyItem]
  cases hlist : v.list?.isSome with
  | false => simpa using happly
  | true =>
    -- the plan expects a list, unless it is that of a list of an interface
    rw [h.isList_castPlan hv hlist st]
    cases t.isInterfaceList r with
    | true => simp
    | false => simpa using happly

/-- A value that has the lists of the type is cast and keeps them, unless a list of an interface
stands among its items. -/
theorem apply (h : t.Shapes type) (field : String) {v : HostValue} (hv : type.fits v = true)
    (st : σ) :
    if t.clashes r v then (castPlan host r t st).1.apply field v = .error (.nestedList field)
    else ∃ v', (castPlan host r t st).1.apply field v = .ok v' ∧ type.fits v' = true := by
  induction h generalizing v st with
  | node | scalar | enum =>
    rw [castPlan, clashes, if_neg Bool.false_ne_true]
    · exact ⟨v, rfl, hv⟩
    · nofun
    · nofun
  | cls c n =>
    rw [clashes, if_neg Bool.false_ne_true]
    · obtain h | h := castPlan_cls host r c st <;> rw [h]
      · exact ⟨v, rfl, hv⟩
      · cases v with
        | object entries => exact ⟨_, rfl, rfl⟩
        | undefined | null | scalar | list | instanceOf | foreign => exact ⟨_, rfl, hv⟩
    · nofun
    · nofun
  | @array item inner hitem ih =>
    rw [castPlan_array]
    by_cases hi : item.isInterface r = true
    · rw [if_pos hi, clashes_of_isInterface hi, if_neg Bool.false_ne_true]
      exact ⟨v, rfl, hv⟩
    rw [if_neg hi]
    rcases GraphType.fits_list_iff.1 hv with hnull | ⟨items, rfl, hitems⟩
    · rw [clashes_of_list?_eq_none item (HostValue.list?_of_isNullish hnull),
        if_neg Bool.false_ne_true]
      exact ⟨v, CastPlan.apply_of_isNullish _ field hnull, hv⟩
    rw [clashes_items, CastPlan.apply_items]
    have hall := mapM_error_or_ok fun i hmem ↦
      hitem.applyItem field (hitems i hmem) st (ih (hitems i hmem) st)
    split at hall
    · rw [if_pos ‹_›, hall]
      rfl
    · obtain ⟨items', hrun, hfits⟩ := hall
      rw [if_neg ‹_›, hrun]
      exact ⟨.list items', rfl, GraphType.fits_list_iff.2 (.inr ⟨items', rfl, hfits⟩)⟩
  | thunk htarget _ ih =>
    rw [castPlan_thunk host r _ htarget, clashes]
    exact ih hv _
  | nonNull _ ih => exact ih hv st

/-! ## References without a clash -/

theorem fits_list_nil (h : t.Shapes type) (ht : t.isInterfaceList r = true) :
    type.fits (.list []) = true := by
  induction h with
  | node | scalar | enum | cls => cases ht
  | array => rfl
  | thunk _ _ ih => exact ih ht
  | nonNull _ ih => exact ih ht

/-- Some value clashes exactly if a list of an interface is the item of another list. -/
theorem exists_clashes_iff (h : t.Shapes type) :
    (∃ v, type.fits v = true ∧ t.clashes r v = true) ↔ t.nestsInterfaceList r = true := by
  induction h with
  | node | scalar | enum | cls => simp [clashes, nestsInterfaceList]
  | @array item inner hitem ih =>
    rw [nestsInterfaceList, Bool.or_eq_true]
    constructor
    · rintro ⟨v, hv, hclash⟩
      rcases GraphType.fits_list_iff.1 hv with hnull | ⟨items, rfl, hitems⟩
      · rw [clashes_of_list?_eq_none item (HostValue.list?_of_isNullish hnull)] at hclash
        cases hclash
      rw [clashes_items, List.any_eq_true] at hclash
      obtain ⟨i, hmem, hi⟩ := hclash
      rw [clashesAsItem, Bool.or_eq_true, Bool.and_eq_true] at hi
      exact hi.imp And.left fun hi ↦ ih.1 ⟨i, hitems i hmem, hi⟩
    · intro hnests
      obtain ⟨i, hfits, hi⟩ : ∃ i, inner.fits i = true ∧ item.clashesAsItem r i = true := by
        rcases hnests with hlist | hnests
        · exact ⟨.list [], hitem.fits_list_nil hlist, by rw [clashesAsItem, hlist]; rfl⟩
        · obtain ⟨i, hfits, hi⟩ := ih.2 hnests
          exact ⟨i, hfits, by rw [clashesAsItem, hi, Bool.or_true]⟩
      refine ⟨.list [i], GraphType.fits_list_iff.2 (.inr ⟨[i], rfl, ?_⟩), ?_⟩
      · simpa using hfits
      · rw [clashes_items, List.any_cons, hi, Bool.true_or]
  | thunk _ _ ih => simpa only [clashes, nestsInterfaceList] using ih
  | nonNull _ ih => exact ih

end TypeRef.Shapes

/-! ## Results of a field -/

/-- **A value with the lists of its type is cast and keeps them**, whatever the reference and
however deep its lists: and then the engine, which converts the result by the same type, finds a
list wherever it expects one.  There is one exception: the plan of a list of an interface that is
written by its class does not say that it is the plan of a list, so a value is refused exactly if,
at a place where the reference has such a list within another one, it has a list.  A reference
casts all values that have the lists of its type exactly if it has no such place.  A deferred
reference has one target: the type and the plan are made of the same one. -/
theorem castPlan_fits {w w' : Workspace σ} {t : TypeRef} {o : ResolveOptions} {type : GraphType}
    (h : (resolveType host s t o).runIn w = (.ok type, w')) :
    (∀ (st : σ) (field : String) (v : HostValue), type.fits v = true →
      if t.clashes (w.registries s) v then
        (castPlan host (w.registries s) t st).1.apply field v = .error (.nestedList field)
      else ∃ v', (castPlan host (w.registries s) t st).1.apply field v = .ok v' ∧
        type.fits v' = true ∧
        ∀ (context : Option RequestContext) (info : ResolveInfo) (w₁ : Workspace σ) (e : FieldError),
          ((type.toEngine host v' context info).run w₁).1 = .error e → ∀ c, e ≠ .cast c) ∧
      ((∀ (st : σ) (field : String) (v : HostValue), type.fits v = true →
          ∃ v', (castPlan host (w.registries s) t st).1.apply field v = .ok v') ↔
        t.nestsInterfaceList (w.registries s) = false) := by
  have hshapes : t.Shapes type := resolveType_shapes h
  have hcast (st : σ) (field : String) (v : HostValue) (hv : type.fits v = true) :
      if t.clashes (w.registries s) v then
        (castPlan host (w.registries s) t st).1.apply field v = .error (.nestedList field)
      else ∃ v', (castPlan host (w.registries s) t st).1.apply field v = .ok v' ∧
        type.fits v' = true :=
    hshapes.apply field hv st
  refine ⟨fun st field v hv ↦ ?_, fun hall ↦ ?_, fun hnests st field v hv ↦ ?_⟩
  · have happly := hcast st field v hv
    split at happly
    · rwa [if_pos ‹_›]
    · obtain ⟨v', hrun, hfits⟩ := happly
      rw [if_neg ‹_›]
      exact ⟨v', hrun, hfits, fun context info ↦ GraphType.toEngine_failsOnly context info hfits⟩
  · refine Bool.eq_false_iff.2 fun hnests ↦ ?_
    obtain ⟨v, hv, hclash⟩ := hshapes.exists_clashes_iff.2 hnests
    have happly := hcast w.host "" v hv
    obtain ⟨v', hrun⟩ := hall w.host "" v hv
    rw [if_pos hclash, hrun] at happly
    cases happly
  · have hclash : t.clashes (w.registries s) v = false := by
      refine Bool.eq_false_iff.2 fun hclash ↦ ?_
      exact Bool.false_ne_true (hnests ▸ hshapes.exists_clashes_iff.1 ⟨v, hv, hclash⟩)
    have happly := hcast st field v hv
    rw [hclash, if_neg Bool.false_ne_true] at happly
    obtain ⟨v', hrun, -⟩ := happly
    exact ⟨v', hrun⟩

/-! ### An instance -/

namespace Rows

/-- An interface. -/
def named : ClassRef := .base ⟨1⟩ "Named"

/-- A session in which the interface is registered. -/
def workspace : Workspace Unit :=
  (Workspace.openSession { host := () } {}).2.modifyRegistries 0 (·.interfaceType named {})

/-- A list of lists of the interface, which is written by its class. -/
def direct : TypeRef := .array [.array [.cls named]]

/-- The same with the interface deferred. -/
def deferred : TypeRef := .array [.array [.thunk none (.cls named)]]

/-- One row of one value. -/
def rows : HostValue := .list [.list [.object [("name", .ofText "Ada")]]]

end Rows

open Rows in
/-- Two references to one type differ in whether they let its values pass. -/
theorem castPlan_fits_rows :
    ∃ type w₁ other w₂, (resolveType .idle 0 direct {}).runIn workspace = (.ok type, w₁) ∧
      (resolveType .idle 0 deferred {}).runIn workspace = (.ok other, w₂) ∧
      type.display = "[[Named!]!]!" ∧ other.display = "[[Named!]!]!" ∧ type.fits rows = true ∧
      (castPlan .idle (workspace.registries 0) direct ()).1.apply "rows" rows =
        .error (.nestedList "rows") ∧
      ∃ v', (castPlan .idle (workspace.registries 0) deferred ()).1.apply "rows" rows = .ok v' ∧
        other.fits v' = true := by
  have hdirect : ((resolveType .idle 0 direct {}).runIn workspace).1.toOption.map
      (fun t ↦ (t.display, t.fits rows)) = some ("[[Named!]!]!", true) := by cbv
  have hdeferred : ((resolveType .idle 0 deferred {}).runIn workspace).1.toOption.map
      (fun t ↦ (t.display, t.fits rows)) = some ("[[Named!]!]!", true) := by cbv
  rcases hrun : (resolveType .idle 0 direct {}).runIn workspace with ⟨e | type, w₁⟩ <;>
    rw [hrun] at hdirect
  · cases hdirect
  rcases hrun' : (resolveType .idle 0 deferred {}).runIn workspace with ⟨e | other, w₂⟩ <;>
    rw [hrun'] at hdeferred
  · cases hdeferred
  obtain ⟨hname, hfits⟩ := Prod.mk.inj (Option.some.inj hdirect)
  obtain ⟨hname', hfits'⟩ := Prod.mk.inj (Option.some.inj hdeferred)
  have hclash : direct.clashes (workspace.registries 0) rows = true := by cbv
  have hcast := (castPlan_fits hrun).1 () "rows" rows hfits
  rw [if_pos hclash] at hcast
  have hcast' := (castPlan_fits hrun').1 () "rows" rows hfits'
  have hclash' : deferred.clashes (workspace.registries 0) rows = false := by cbv
  rw [hclash', if_neg Bool.false_ne_true] at hcast'
  obtain ⟨v', hv', hlists, -⟩ := hcast'
  exact ⟨type, w₁, other, w₂, rfl, rfl, hname, hname', hfits, hcast, v', hv', hlists⟩

end ApiGraph
