import ApiGraph.Proofs.Session.FieldHistory
import ApiGraph.Proofs.Session.Steps

/-!
# The implementors of an interface

The options of an object type name the interfaces that it claims, and beside them every interface
has a list of the classes that claim it.  Registering a class again replaces its options, and adds
the class to the lists of the interfaces that it claims now; it is taken out of none.  So the lists
tell who has ever claimed an interface, and an object type attaches what its class claims now.

## What is here

* `ObjectCall`: the calls that register an object type.
* `Registries.Recorded`: the registries that any calls have left, with those of object types among
  them in order.
* `Registries.Indexed`: what is left, read off these calls; `Indexed.object` for one call more and
  `Recorded.indexed` for any number.
* `ObjectNode.OfSpec` and `compileObject_ofSpec`: what an object type is made of, and so the
  interfaces that it attaches.
* `Registries.Recorded.implementors_eq_claimants_iff`: when the lists are right.
-/

set_option autoImplicit false

namespace ApiGraph

open Compile (Settles)

/-! ## Claims -/

/-- The options of an object type name an interface. -/
def ObjectSpec.Claims (spec : ObjectSpec) (interface : TypeKey) : Prop :=
  interface ∈ spec.implements.map ClassRef.key

instance (spec : ObjectSpec) (interface : TypeKey) : Decidable (spec.Claims interface) :=
  inferInstanceAs (Decidable (_ ∈ _))

/-- The options under which a class is registered now name an interface. -/
def Registries.Claims (r : Registries) (cls interface : TypeKey) : Prop :=
  ∃ spec, OrderedMap.find r.objects cls = some spec ∧ spec.Claims interface

/-- The classes that are listed as implementors of an interface. -/
def Registries.implementorKeys (r : Registries) (interface : ClassRef) : List TypeKey :=
  (r.implementorsOf interface).map ClassRef.key

/-! ## Calls -/

/-- A call that registers an object type, alone or together with the input type of the class. -/
inductive ObjectCall where
  | objectType (cls : ClassRef) (spec : ObjectSpec)
  | duplexType (cls : ClassRef) (spec : ObjectSpec)

namespace ObjectCall

/-- The class that is registered. -/
def cls : ObjectCall → ClassRef
  | .objectType cls _ | .duplexType cls _ => cls

/-- The options of the object type. -/
def spec : ObjectCall → ObjectSpec
  | .objectType _ spec | .duplexType _ spec => spec

/-- The registries that a call leaves. -/
def run (c : ObjectCall) (r : Registries) : Registries :=
  match c with
  | .objectType cls spec => r.objectType cls spec
  | .duplexType cls spec => r.duplexType cls spec

end ObjectCall

namespace Registries

/-- A change that has nothing to do with object types. -/
def Aloof (f : Registries → Registries) : Prop :=
  ∀ r, (f r).objects = r.objects ∧ (f r).implementors = r.implementors

/-- The registries that calls have left, with those among them that registered object types. -/
inductive Recorded : List ObjectCall → Registries → Prop
  | nothing : Recorded [] {}
  | object {past : List ObjectCall} {r : Registries} (h : Recorded past r) (c : ObjectCall) :
    Recorded (past ++ [c]) (c.run r)
  | other {past : List ObjectCall} {r : Registries} (h : Recorded past r)
    {f : Registries → Registries} (hf : Aloof f) : Recorded past (f r)

/-- What the registries say of object types, read off the calls that registered them. -/
structure Indexed (past : List ObjectCall) (r : Registries) : Prop where
  /-- The options of a class are those of the last call. -/
  registered : ∀ key, OrderedMap.find r.objects key =
    (past.filter fun c ↦ c.cls.key = key).getLast?.map ObjectCall.spec
  /-- Listed are the classes of all calls that claimed the interface, in order. -/
  listed : ∀ i, r.implementorKeys i =
    ((past.filter fun c ↦ c.spec.Claims i.key).map fun c ↦ c.cls.key).eraseDups

/-! ## One call more -/

theorem contains_implementorsOf (r : Registries) (cls interface : ClassRef) :
    (r.implementorsOf interface).contains cls = true ↔
      cls.key ∈ r.implementorKeys interface := by
  rw [List.contains_eq_any_beq, List.any_eq_true, implementorKeys, List.mem_map]
  refine exists_congr fun c ↦ and_congr_right fun _ ↦ ?_
  show (cls.key == c.key) = true ↔ c.key = cls.key
  rw [beq_iff_eq]
  exact eq_comm

theorem implementorKeys_addImplementor (r : Registries) (cls i j : ClassRef) :
    (r.addImplementor cls i).implementorKeys j =
      if i.key = j.key ∧ cls.key ∉ r.implementorKeys j then r.implementorKeys j ++ [cls.key]
      else r.implementorKeys j := by
  rw [implementorKeys, implementorsOf, addImplementor, OrderedMap.find_put]
  by_cases hk : i.key = j.key
  · have hj : r.implementorsOf i = r.implementorsOf j := by rw [implementorsOf, hk, implementorsOf]
    by_cases hc : cls.key ∈ r.implementorKeys j
    · have hknown := (r.contains_implementorsOf cls j).2 hc
      rw [if_pos hk, hj, if_pos hknown, if_neg fun h ↦ h.2 hc]
      rfl
    · have hnew := mt (r.contains_implementorsOf cls j).1 hc
      rw [if_pos hk, hj, if_neg hnew, if_pos ⟨hk, hc⟩, Option.getD_some, List.map_append]
      rfl
  · rw [if_neg hk, if_neg fun h ↦ hk h.1]
    rfl

/-- A class that claims interfaces is added to their lists, where it is not listed yet. -/
theorem implementorKeys_foldl (cls j : ClassRef) (interfaces : List ClassRef) (r : Registries) :
    (interfaces.foldl (fun r i ↦ r.addImplementor cls i) r).implementorKeys j =
      if j.key ∈ interfaces.map ClassRef.key ∧ cls.key ∉ r.implementorKeys j then
        r.implementorKeys j ++ [cls.key]
      else r.implementorKeys j := by
  induction interfaces generalizing r with
  | nil => rw [if_neg fun h ↦ List.not_mem_nil h.1]; rfl
  | cons i rest ih =>
    rw [List.foldl_cons, ih, implementorKeys_addImplementor, List.map_cons]
    by_cases hc : cls.key ∈ r.implementorKeys j
    · simp [hc]
    · by_cases hi : i.key = j.key
      · simp [hc, hi]
      · simp [hc, hi, Ne.symm hi]

theorem objects_foldl_addImplementor (cls : ClassRef) (interfaces : List ClassRef)
    (r : Registries) :
    (interfaces.foldl (fun r i ↦ r.addImplementor cls i) r).objects = r.objects := by
  induction interfaces generalizing r with
  | nil => rfl
  | cons i rest ih => exact (ih _).trans rfl

end Registries

namespace ObjectCall

variable (c : ObjectCall) (r : Registries)

theorem objects_run : (c.run r).objects = OrderedMap.put r.objects c.cls.key c.spec := by
  cases c with
  | objectType cls spec | duplexType cls spec =>
    exact congrArg (OrderedMap.put · cls.key spec)
      (Registries.objects_foldl_addImplementor cls spec.implements r)

theorem implementorKeys_run (i : ClassRef) :
    (c.run r).implementorKeys i =
      if c.spec.Claims i.key ∧ c.cls.key ∉ r.implementorKeys i then
        r.implementorKeys i ++ [c.cls.key]
      else r.implementorKeys i := by
  cases c with
  | objectType cls spec | duplexType cls spec =>
    exact Registries.implementorKeys_foldl cls i spec.implements r

end ObjectCall

namespace Registries

variable {past : List ObjectCall} {r : Registries}

theorem Indexed.object (h : Indexed past r) (c : ObjectCall) :
    Indexed (past ++ [c]) (c.run r) where
  registered key := by
    rw [c.objects_run, OrderedMap.find_put, List.filter_append]
    by_cases hk : c.cls.key = key
    · simp [hk]
    · simp [hk, h.registered key]
  listed i := by
    rw [c.implementorKeys_run, h.listed, List.filter_append, List.map_append]
    by_cases hc : c.spec.Claims i.key
    · have hlast : [c].filter (fun c ↦ c.spec.Claims i.key) = [c] := by simp [hc]
      rw [hlast, List.map_singleton, eraseDups_concat]
      by_cases hm : c.cls.key ∈
          ((past.filter fun c ↦ c.spec.Claims i.key).map fun c ↦ c.cls.key).eraseDups
      · rw [if_neg fun h ↦ h.2 hm, if_pos hm]
      · rw [if_pos ⟨hc, hm⟩, if_neg hm]
    · simp [hc]

/-- **What calls leave.**  The options of a class are those of the last call that registered it; an
interface lists all classes that ever claimed it, each once, in the order of their first claims. -/
theorem Recorded.indexed (h : Recorded past r) : Indexed past r := by
  induction h with
  | nothing => exact ⟨fun _ ↦ rfl, fun _ ↦ rfl⟩
  | object _ c ih => exact ih.object c
  | @other past r _ f hf ih =>
    obtain ⟨hobjects, himplementors⟩ := hf r
    refine ⟨fun key ↦ hobjects ▸ ih.registered key, fun i ↦ ?_⟩
    rw [← ih.listed, implementorKeys, implementorsOf, himplementors]
    rfl

/-- A class that claims an interface now has claimed it in some call. -/
theorem Indexed.exists_call (h : Indexed past r) {cls interface : TypeKey}
    (hc : r.Claims cls interface) :
    ∃ c ∈ past, c.cls.key = cls ∧ c.spec.Claims interface := by
  obtain ⟨spec, hspec, hclaims⟩ := hc
  rw [h.registered] at hspec
  obtain ⟨c, hlast, rfl⟩ := Option.map_eq_some_iff.1 hspec
  obtain ⟨hpast, hkey⟩ := List.mem_filter.1 (List.mem_of_getLast? hlast)
  exact ⟨c, hpast, of_decide_eq_true hkey, hclaims⟩

theorem Indexed.mem_implementorKeys_iff (h : Indexed past r) {key : TypeKey} {i : ClassRef} :
    key ∈ r.implementorKeys i ↔ ∃ c ∈ past, c.cls.key = key ∧ c.spec.Claims i.key := by
  rw [h.listed, List.mem_eraseDups, List.mem_map]
  refine exists_congr fun c ↦ ?_
  rw [List.mem_filter, decide_eq_true_eq, and_assoc]
  exact and_congr_right fun _ ↦ and_comm

end Registries

/-! ## What an object type attaches -/

section Attached

variable {σ : Type} {d : Declarations} {host : Host σ} {w₀ w w' : Workspace σ} {s : SessionId}

/-- The node that an object type attaches for a class that it claims. -/
theorem node_of_compileClaimed (hw₀ : w₀.Coherent d) (hs : s < w₀.sessions.length)
    (hw : w₀.Filled d host w) {cls i : ClassRef} (hi : d.classes i) {n : InterfaceNode}
    (h : (compileClaimed s cls i).runIn w = (.ok n, w')) :
    n.id = .compiled s .interface i.key ∧ n.cls = i := by
  have hsettles : Settles d host w₀ [] (compileInterface s i) _ :=
    compileInterface_settles hw₀ hs hi
  rw [compileClaimed, Compile.runIn_get_bind] at h
  split at h
  · obtain ⟨hcoherent, hentry⟩ := hsettles.kept hs hw h
    obtain ⟨hid, ⟨hc, hk⟩, -⟩ := hcoherent.entries hentry
    exact ⟨hid, d.classes_inj hc hi hk⟩
  · cases h

/-- An object type is made of the options of a class: it attaches the interfaces that they claim,
and takes over the mixins. -/
structure ObjectNode.OfSpec (n : ObjectNode) (s : SessionId) (c : ClassRef) (spec : ObjectSpec) :
    Prop where
  cls_eq : n.cls = some c
  mixins_eq : n.mixins = spec.mixins
  interfaces : List.Forall₂
    (fun i (m : InterfaceNode) ↦ m.id = .compiled s .interface i.key ∧ m.cls = i)
    spec.implements n.interfaces

theorem ObjectNode.OfSpec.implements_eq {n : ObjectNode} {c : ClassRef} {spec : ObjectSpec}
    (h : n.OfSpec s c spec) : spec.implements = n.interfaces.map InterfaceNode.cls :=
  List.forall₂_eq_eq_eq ▸ List.forall₂_map_right_iff.2 (h.interfaces.imp fun _ _ hm ↦ hm.2.symm)

/-- **What an object type attaches.**  A node that is not there yet is made of the options of its
class as they are now. -/
theorem compileObject_ofSpec (hw₀ : w₀.Coherent d) (hs : s < w₀.sessions.length)
    (hw : w₀.Filled d host w) {c : ClassRef} (hnone : w.entry s .objects c.key = none)
    {n : ObjectNode} (h : ((compileObject s c).runIn w).1 = .ok n) :
    ∃ spec, OrderedMap.find (w₀.registries s).objects c.key = some spec ∧ n.OfSpec s c spec := by
  rw [compileObject, Compile.fst_runIn_remember_of_none hnone, Compile.runIn_get_bind,
    hw.grows.registries] at h
  dsimp only at h
  split at h
  · cases h
  rename_i spec hspec
  split at h
  · cases h
  have hclasses : ∀ i ∈ spec.implements, d.classes i :=
    (hw₀.registries s).implements spec (OrderedMap.mem_values_of_find hspec)
  rcases hrun : (spec.implements.mapM (compileClaimed s c)).runIn w with ⟨e | interfaces, w₁⟩
  · rw [Compile.runIn_bind_of_error hrun] at h
    cases h
  rw [Compile.runIn_bind_of_ok hrun] at h
  cases h
  refine ⟨spec, hspec, rfl, rfl, ?_⟩
  exact (Settles.forall₂_of_runIn_mapM
    (p := fun i (m : InterfaceNode) _ ↦ m.id = .compiled s .interface i.key ∧ m.cls = i)
    (fun i hi ↦ compileClaimed_settles hw₀ hs c (hclasses i hi))
    (fun i hi _ _ _ hw hm ↦ node_of_compileClaimed hw₀ hs hw (hclasses i hi) hm)
    (fun _ _ _ _ _ ↦ id) hw hrun).2

/-- An object type attaches an interface exactly if its class claims it now. -/
theorem mem_interfaces_iff (host : Host σ) (hw : w.Coherent d) (hs : s < w.sessions.length)
    {c : ClassRef} (hnone : w.entry s .objects c.key = none) {n : ObjectNode}
    (h : ((compileObject s c).runIn w).1 = .ok n) (interface : TypeKey) :
    interface ∈ n.interfaces.map (fun m ↦ m.cls.key) ↔
      (w.registries s).Claims c.key interface := by
  have hself : w.Filled d host w := .refl hw
  obtain ⟨spec, hspec, hmade⟩ := compileObject_ofSpec hw hs hself hnone h
  have hclaims : interface ∈ n.interfaces.map (fun m ↦ m.cls.key) ↔ spec.Claims interface := by
    rw [ObjectSpec.Claims, hmade.implements_eq, List.map_map]
    rfl
  refine hclaims.trans ⟨fun h ↦ ⟨spec, hspec, h⟩, ?_⟩
  rintro ⟨spec', hspec', h⟩
  cases hspec.symm.trans hspec'
  exact h

end Attached

/-! ## The sessions of a run -/

namespace Registries

/-- A registration registers an object type, or has nothing to do with object types. -/
theorem Change.call_or_aloof {d : Declarations} {offered : GraphNode → Prop}
    {f : Registries → Registries} (h : Change d offered f) :
    (∃ c : ObjectCall, f = c.run) ∨ Aloof f := by
  have hfield : ∀ cls spec (r : Registries),
      ((Registries.field cls spec).apply r).objects = r.objects ∧
        ((Registries.field cls spec).apply r).implementors = r.implementors := by
    intro cls spec r
    rcases field_apply cls spec r with h | ⟨known, exposure, -, h⟩ <;> rw [h]
    · exact ⟨rfl, rfl⟩
    · exact ⟨rfl, rfl⟩
  cases h with
  | objectType => exact .inl ⟨.objectType _ _, rfl⟩
  | duplexType => exact .inl ⟨.duplexType _ _, rfl⟩
  | enum e spec =>
    refine .inr fun r ↦ ?_
    rw [registerEnum, Registration.apply_get_bind]
    split <;> exact ⟨rfl, rfl⟩
  | field cls => exact .inr (hfield cls _)
  | duplexField cls =>
    refine .inr fun r ↦ ?_
    rw [Registries.duplexField, Registration.apply_modify_bind]
    exact hfield cls _ _
  | rootField cls exposure =>
    refine .inr fun r ↦ ?_
    rw [Registries.rootField]
    split
    · exact ⟨rfl, rfl⟩
    · exact hfield cls _ r
  | inputType | interfaceType | unionType | schemaRoot | inputField | arg | inject | beforeHook
  | afterHook => exact .inr fun _ ↦ ⟨rfl, rfl⟩

end Registries

namespace Workspace

variable {σ : Type} {d : Declarations} {host : Host σ} {w w' : Workspace σ}

/-- Compiling a schema registers nothing. -/
theorem registries_compileSchema (hw : w.Sound d) {s : SessionId} (hs : w.isOpen s = true)
    (roots : List ClassRef) (b : SessionId) :
    ((compileSchema host s roots).runIn w).2.registries b = w.registries b :=
  Stays.assembled (.registries b (· = w.registries b)) hw hs roots rfl

/-- A step registers one thing at most. -/
theorem Step.registries (h : Step d host w w') (hw : w.Sound d) (b : SessionId) :
    w'.registries b = w.registries b ∨
      ∃ f, Registries.Change d (w.Offers d) f ∧ w'.registries b = f (w.registries b) := by
  refine Stays.step (.registries b fun r ↦ r = w.registries b ∨
    ∃ f, Registries.Change d (w.Offers d) f ∧ r = f (w.registries b)) h hw ?_ (.inl rfl)
  rintro s f hf rfl
  rw [Workspace.registries, modifyRegistries, session_modifySession]
  split
  · exact .inr ⟨f, hf, rfl⟩
  · exact .inl rfl

/-- Whatever else happens in a run, the registries of a session are left by registrations. -/
theorem Reachable.recorded (h : w.Reachable d host) (b : SessionId) :
    ∃ past, Registries.Recorded past (w.registries b) := by
  obtain ⟨state, h⟩ := h
  induction h with
  | refl => exact ⟨[], .nothing⟩
  | tail hsteps hstep ih =>
    obtain ⟨past, hpast⟩ := ih
    have hsound := Reachable.sound ⟨state, hsteps⟩
    rcases hstep.registries hsound b with hsame | ⟨f, hf, happlied⟩
    · exact ⟨past, hsame ▸ hpast⟩
    · rw [happlied]
      rcases hf.call_or_aloof with ⟨c, rfl⟩ | haloof
      · exact ⟨past ++ [c], hpast.object c⟩
      · exact ⟨past, hpast.other haloof⟩

end Workspace

/-! ## Implementors and claimants -/

namespace Registries

/-- The last call that registered a class as an object type named an interface. -/
def ClaimedLast (past : List ObjectCall) (cls interface : TypeKey) : Prop :=
  ∃ c, (past.filter fun c ↦ c.cls.key = cls).getLast? = some c ∧ c.spec.Claims interface

variable {past : List ObjectCall} {r : Registries}

theorem Indexed.claims_iff (h : Indexed past r) {cls interface : TypeKey} :
    r.Claims cls interface ↔ ClaimedLast past cls interface := by
  rw [Claims, ClaimedLast]
  simp only [h.registered, Option.map_eq_some_iff]
  constructor
  · rintro ⟨_, ⟨c, hc, rfl⟩, hclaims⟩
    exact ⟨c, hc, hclaims⟩
  · rintro ⟨c, hc, hclaims⟩
    exact ⟨c.spec, ⟨c, hc, rfl⟩, hclaims⟩

/-- **Implementors and claimants.**  Let any calls be made, and among them those in `past` that
register object types.  An interface then lists the classes that some call claimed it for, each
once and in the order of the first claims, and among them every class whose options claim it now;
these are the classes whose object types, when they are made, attach the interface.  So the list is
that of the classes whose object types attach the interface exactly if no class that ever claimed
the interface was last registered without it. -/
theorem Recorded.implementors_eq_claimants_iff (h : Recorded past r) (i : ClassRef) :
    r.implementorKeys i =
        ((past.filter fun c ↦ c.spec.Claims i.key).map fun c ↦ c.cls.key).eraseDups ∧
      (r.implementorKeys i).Nodup ∧
      (∀ key, r.Claims key i.key ↔ ClaimedLast past key i.key) ∧
      (∀ key, r.Claims key i.key → key ∈ r.implementorKeys i) ∧
      ((∀ key, key ∈ r.implementorKeys i ↔ r.Claims key i.key) ↔
        ∀ c ∈ past, c.spec.Claims i.key → ClaimedLast past c.cls.key i.key) ∧
      ∀ {σ : Type} (d : Declarations) (host : Host σ) (w : Workspace σ) (s : SessionId),
        w.Reachable d host → w.isOpen s = true → w.registries s = r → ∀ c n,
          w.entry s .objects c.key = none → ((compileObject s c).runIn w).1 = .ok n →
            (i.key ∈ n.interfaces.map (fun m ↦ m.cls.key) ↔ r.Claims c.key i.key) := by
  have hindexed := h.indexed
  have hlisted : ∀ key, r.Claims key i.key → key ∈ r.implementorKeys i := fun key hkey ↦
    hindexed.mem_implementorKeys_iff.2 (hindexed.exists_call hkey)
  refine ⟨hindexed.listed i, hindexed.listed i ▸ nodup_eraseDups _, fun _ ↦ hindexed.claims_iff,
    hlisted, ⟨fun hexact c hc hclaims ↦ ?_, fun hkept key ↦ ⟨fun hkey ↦ ?_, hlisted key⟩⟩, ?_⟩
  · exact hindexed.claims_iff.1
      ((hexact _).1 (hindexed.mem_implementorKeys_iff.2 ⟨c, hc, rfl, hclaims⟩))
  · obtain ⟨c, hc, rfl, hclaims⟩ := hindexed.mem_implementorKeys_iff.1 hkey
    exact hindexed.claims_iff.2 (hkept c hc hclaims)
  · rintro σ d host w s hw hs rfl c n hnone hn
    exact mem_interfaces_iff host hw.sound.coherent (Workspace.lt_length_of_isOpen hs) hnone hn _

end Registries

/-! ### An instance -/

namespace Revised

/-- An interface. -/
def named : ClassRef := .base ⟨1⟩ "Named"

/-- A class that claims the interface at first. -/
def person : ClassRef := .base ⟨2⟩ "Person"

/-- The class is registered twice, the second time without the interface. -/
def calls : List ObjectCall :=
  [.objectType person { implements := [named] }, .objectType person {}]

/-- What the two calls leave. -/
def registries : Registries :=
  (Registries.objectType {} person { implements := [named] }).objectType person {}

theorem recorded : Registries.Recorded calls registries :=
  (Registries.Recorded.nothing.object (.objectType person { implements := [named] })).object
    (.objectType person {})

end Revised

/-- A class stays among the implementors of an interface that it claims no longer. -/
theorem Registries.Recorded.implementors_eq_claimants_iff_revised :
    Revised.registries.implementorKeys Revised.named = [Revised.person.key] ∧
      ¬Revised.registries.Claims Revised.person.key Revised.named.key ∧
      ¬∀ key, key ∈ Revised.registries.implementorKeys Revised.named ↔
        Revised.registries.Claims key Revised.named.key := by
  obtain ⟨hlisted, -, hclaims, -, hexact, -⟩ :=
    Revised.recorded.implementors_eq_claimants_iff Revised.named
  have hlast : ¬Registries.ClaimedLast Revised.calls Revised.person.key Revised.named.key := by
    rintro ⟨c, hc, h⟩
    have hc' : some (ObjectCall.objectType Revised.person {}) = some c := hc
    cases hc'
    exact absurd h (by decide)
  refine ⟨hlisted.trans (by decide), mt (hclaims _).1 hlast, fun h ↦ ?_⟩
  exact hlast (hexact.1 h (.objectType Revised.person { implements := [Revised.named] })
    List.mem_cons_self (by decide))

end ApiGraph
