import ApiGraph.Proofs.FieldMap.Collapse
import ApiGraph.Proofs.Session.Quiet

/-!
# Object types conform to their interfaces

The fields of an interface and those of an object type that attaches it are made apart, at different
times and of different walks.  But the walk of the object type passes the lineage of each of its
interfaces in one piece, so what comes last of a name in that piece comes last on the whole walk,
unless a class that is passed later declares the name again.  And a field is compiled as one of the
class that declares it, whichever type it is for.

So if nothing is registered once a session has been asked for something, an object type has all
fields that its interfaces have, and the same ones, as far as they are not declared again.

## What is here

* `ObjectNode.walkAfter`: the classes that an object type sees after those of an interface.
* `Conforms`: the fields of an object type conform to those of an interface.
* `Merges.conforms_of_piece`: a walk conforms to a piece of it.
* `Workspace.Reachable.conforms`: object types conform to their interfaces, in every run.
-/

set_option autoImplicit false

namespace ApiGraph

open OrderedMap (keys)
open Relation (ReflTransGen)

variable {α β σ : Type} {d : Declarations} {host : Host σ} {w v v₁ v₂ : Workspace σ}
  {s : SessionId} {key : TypeKey}

/-! ## Pieces of a walk -/

/-- The classes that an object type sees after those of an interface, if some interfaces follow that
one: the lineages of these interfaces, of its mixins and of its class. -/
def ObjectNode.walkAfter (n : ObjectNode) (later : List InterfaceNode) : List ClassRef :=
  (later.map InterfaceNode.cls ++ n.mixins ++ n.cls.toList).flatMap ClassRef.oldestFirst

theorem ObjectNode.walk_eq_append {n : ObjectNode} {before after : List InterfaceNode}
    {i : InterfaceNode} (h : n.interfaces = before ++ i :: after) :
    n.walk = before.flatMap (fun j ↦ j.cls.oldestFirst) ++ i.cls.oldestFirst ++
      n.walkAfter after := by
  simp only [walk, walkAfter, h, List.map_append, List.map_cons, List.flatMap_append,
    List.flatMap_cons, List.flatMap_map, List.append_assoc]

theorem declaredOn_append (own : ClassRef → List α) (walk walk' : List ClassRef) :
    declaredOn own (walk ++ walk') = declaredOn own walk ++ declaredOn own walk' :=
  List.flatMap_append

/-- The fields of an object type conform to those of an interface: all names are there, and under
each name there is the same field, unless a class that comes later declares the name again. -/
structure Conforms (name : α → String) (own : ClassRef → List α) (later : List ClassRef)
    (interface object : OrderedMap String β) : Prop where
  named : ∀ key ∈ keys interface, key ∈ keys object
  same : ∀ key a b, (key, a) ∈ interface → (key, b) ∈ object →
    ¬Redeclares own name later key → a = b

/-- **A walk conforms to a piece of it.** -/
theorem Merges.conforms_of_piece {name : α → String} {own : ClassRef → List α}
    {before piece after : List ClassRef} {madeOf : ClassRef × α → β → Prop}
    {interface object : OrderedMap String β}
    (hobject : Merges name (declaredOn own (before ++ piece ++ after)) madeOf object)
    (hinterface : Merges name (declaredOn own piece) madeOf interface)
    (hmade : ∀ x a b, madeOf x a → madeOf x b → a = b) :
    Conforms name own after interface object where
  named key hkey := by
    rw [hinterface.keys_eq, List.mem_eraseDups] at hkey
    rw [hobject.keys_eq, List.mem_eraseDups, declaredOn_append, declaredOn_append,
      List.map_append, List.map_append]
    exact List.mem_append_left _ (List.mem_append_right _ hkey)
  same key a b ha hb hno := by
    obtain ⟨x, hx, hxa⟩ := hinterface.last key a ha
    obtain ⟨y, hy, hyb⟩ := hobject.last key b hb
    have hafter : ∀ z ∈ declaredOn own after, name z.2 ≠ key := fun z hz hname ↦
      hno ⟨z.1, (mem_declaredOn.1 hz).1, z.2, (mem_declaredOn.1 hz).2, hname⟩
    -- what is last on the piece is last on the walk
    have hx' : LastNamed (fun x ↦ name x.2) (declaredOn own (before ++ piece ++ after)) key x := by
      rw [declaredOn_append, declaredOn_append]
      exact lastNamed_append_iff.2 (.inr ⟨lastNamed_append_iff.2 (.inl hx), hafter⟩)
    cases hx'.unique hy
    exact hmade x a b hxa hyb

/-! ## Runs -/

theorem CompiledFrom.unique {x : ClassRef × FieldSpec} {a b : CompiledField}
    (ha : CompiledFrom host w s x a) (hb : CompiledFrom host w s x b) : a = b :=
  Except.ok.inj (ha.compiled.symm.trans hb.compiled)

namespace Workspace

/-- An interface that an object type attaches is kept by the session that keeps the type. -/
theorem entry_of_attached (hw : w.Sound d) (hs : s < w.sessions.length)
    (hnone : ∀ t key, w.entry s t key = none) (hv : ReflTransGen (Quiet d host s) w v)
    {n : ObjectNode} (hn : v.entry s .objects key = some n) {i : InterfaceNode}
    (hi : i ∈ n.interfaces) : ∃ key', v.entry s .interfaces key' = some i := by
  have hsound : v.Sound d := (Quiet.sound_follows hv hw).1
  have hkept : LazyNode.KeptBy v s key (.object n) := hn
  obtain ⟨c, -, -, hgiven⟩ := (evaluate_of_quiet hv hw hs (hnone _ _) hkept).1
  have hself : w.Filled d host w := .refl hw.coherent
  obtain ⟨spec, -, hmade⟩ := compileObject_ofSpec hw.coherent hs hself (hnone _ _) hgiven
  obtain ⟨_, -, hid, -⟩ := exists_left_of_forall₂ hmade.interfaces hi
  obtain ⟨-, -, -, hoffered⟩ := hsound.coherent.entries (t := .objects) hn
  obtain ⟨s', key', hentry⟩ := (hoffered i hi).1
  have hid' := (hsound.coherent.entries (t := .interfaces) hentry).1
  cases hid.symm.trans hid'
  exact ⟨_, hentry⟩

/-- **Object types conform to their interfaces.**  Take any run in which nothing is registered in a
session once it has been asked for something.  Take an object type that the session keeps, an
interface that the type attaches, and any later moments at which the fields of the one and of the
other are given.  Then each name of a field of the interface is one of a field of the object type.
Unless the name is declared again by a class that the object type sees after the interface, in the
lineage of a later interface, of a mixin or of its own class, the two are the same field, with the
same type, the same arguments and the same defaults. -/
theorem Reachable.conforms (hw : w.Reachable d host) (hs : s < w.sessions.length)
    (hnone : ∀ t key, w.entry s t key = none) (hv : ReflTransGen (Quiet d host s) w v)
    {n : ObjectNode} (hn : v.entry s .objects key = some n) {before after : List InterfaceNode}
    {i : InterfaceNode} (hi : n.interfaces = before ++ i :: after)
    (hv₁ : ReflTransGen (Quiet d host s) v v₁) (hv₂ : ReflTransGen (Quiet d host s) v v₂)
    {object interface : FieldMap} (hobject : ((n.fields host).runIn v₁).1 = .ok object)
    (hinterface : ((i.fields host).runIn v₂).1 = .ok interface) :
    Conforms FieldSpec.exposedName (w.registries s).ownFields (n.walkAfter after) interface
      object := by
  have hsound : v.Sound d := (Quiet.sound_follows hv hw.sound).1
  obtain ⟨-, ⟨c, hcls, -⟩, -⟩ := hsound.coherent.entries (t := .objects) hn
  have hmem : i ∈ n.interfaces := hi ▸ List.mem_append_right _ List.mem_cons_self
  obtain ⟨key', hi'⟩ := entry_of_attached hw.sound hs hnone hv hn hmem
  have hn₁ : LazyNode.KeptBy v₁ s key (.object n) :=
    LazyNode.KeptBy.of_follows (x := .object n) hn (Quiet.sound_follows hv₁ hsound).2
  have hi₂ : LazyNode.KeptBy v₂ s key' (.interface i) :=
    LazyNode.KeptBy.of_follows (x := .interface i) hi' (Quiet.sound_follows hv₂ hsound).2
  have hobject := (evaluate_of_quiet (hv.trans hv₁) hw.sound hs (hnone _ _) hn₁).2 object hobject
  have hinterface := (evaluate_of_quiet (hv.trans hv₂) hw.sound hs (hnone _ _) hi₂).2 _ hinterface
  rw [LazyNode.evaluate_object host s hcls] at hobject
  have hmerges := (compileFields_merges hw.sound.coherent hs c n.walk).merges object hobject
  rw [ObjectNode.walk_eq_append hi] at hmerges
  exact hmerges.conforms_of_piece
    ((compileFields_merges hw.sound.coherent hs i.cls _).merges interface hinterface)
    fun _ _ _ ↦ CompiledFrom.unique

end Workspace

/-! ### An instance -/

namespace Catalogue

open Overridden (text)

/-- An interface. -/
def entity : ClassRef := .base ⟨1⟩ "Entity"

/-- A class that claims the interface. -/
def book : ClassRef := .base ⟨2⟩ "Book"

/-- The two classes. -/
def declared : Declarations := .ofClasses [entity, book] (by decide)

theorem text_within (property : String) (name : Option String) (offered : GraphNode → Prop) :
    (text property name).Within declared offered := by
  refine ⟨fun t ht ↦ ?_, nofun, nofun⟩
  cases ht
  exact .scalar _

/-- The classes with their fields, one of which the class exposes as one of the interface. -/
def catalogue : Workspace Unit :=
  (((((Workspace.openSession { host := () } {}).2.modifyRegistries 0
    (·.interfaceType entity {})).modifyRegistries 0
    (·.objectType book { implements := [entity] })).modifyRegistries 0
    (Registries.field entity (text "id" none)).apply).modifyRegistries 0
    (Registries.field entity (text "label" none)).apply).modifyRegistries 0
    (Registries.field book (text "title" (some "label"))).apply

/-- The class has been asked for as an object type. -/
def workspace : Workspace Unit := ((compileObject 0 book).runIn catalogue).2

theorem catalogue_reachable : catalogue.Reachable declared .idle := by
  have hbook : declared.classes book := by
    exact List.mem_cons_of_mem _ List.mem_cons_self
  have hentity : ∀ c ∈ [entity], declared.classes c := fun c hc ↦ by
    cases List.mem_singleton.1 hc
    exact List.mem_cons_self
  have hopened : Workspace.Reachable declared .idle _ :=
    (Workspace.Reachable.opened () {}).registered (s := 0) rfl (.interfaceType entity {})
  exact (((hopened.registered (s := 0) rfl (.objectType hbook hentity)).registered (s := 0) rfl
    (.field entity (text_within ..))).registered (s := 0) rfl
    (.field entity (text_within ..))).registered (s := 0) rfl (.field book (text_within ..))

theorem quiet : Workspace.Quiet declared .idle 0 catalogue workspace := by
  refine ⟨.asked (.object (s := 0) rfl (List.mem_cons_of_mem _ List.mem_cons_self)), ?_⟩
  cbv

end Catalogue

open Catalogue in
/-- The class has the fields of the interface, and the one that it does not expose itself is the
same. -/
theorem Workspace.Reachable.conforms_catalogue :
    ∃ n i object interface,
      catalogue.Reachable declared .idle ∧ 0 < catalogue.sessions.length ∧
      (∀ t key, catalogue.entry 0 t key = none) ∧
      ReflTransGen (Quiet declared .idle 0) catalogue workspace ∧
      workspace.entry 0 .objects book.key = some n ∧ n.interfaces = [] ++ i :: [] ∧
      ((n.fields .idle).runIn workspace).1 = .ok object ∧
      ((i.fields .idle).runIn workspace).1 = .ok interface ∧
      Conforms FieldSpec.exposedName (catalogue.registries 0).ownFields (n.walkAfter []) interface
        object ∧
      keys interface = ["id", "label"] ∧ n.walkAfter [] = [book] ∧
      ∃ field, ("id", field) ∈ interface ∧ ("id", field) ∈ object := by
  have hlt : 0 < catalogue.sessions.length := by cbv
  have hnone : ∀ t key, catalogue.entry 0 t key = none := fun t key ↦ by cases t <;> rfl
  have hquiet := ReflTransGen.single quiet
  have hfacts : (workspace.entry 0 .objects book.key).map
      (fun n : ObjectNode ↦ (n.interfaces.length, n.walkAfter [],
        ((n.fields .idle).runIn workspace).1.toOption.isSome,
        n.interfaces.map fun i ↦
          ((i.fields .idle).runIn workspace).1.toOption.map OrderedMap.keys)) =
      some (1, [book], true, [some ["id", "label"]]) := by cbv
  obtain ⟨n, hn, hn'⟩ := Option.map_eq_some_iff.1 hfacts
  obtain ⟨hlength, hwalk, hok, hi⟩ : n.interfaces.length = 1 ∧ n.walkAfter [] = [book] ∧
      ((n.fields .idle).runIn workspace).1.toOption.isSome = true ∧
      (n.interfaces.map fun i ↦
        ((i.fields .idle).runIn workspace).1.toOption.map OrderedMap.keys) =
          [some ["id", "label"]] := by
    simpa only [Prod.mk.injEq] using hn'
  obtain ⟨i, hinterfaces⟩ := List.length_eq_one_iff.1 hlength
  rw [hinterfaces, List.map_singleton, List.singleton_inj] at hi
  rcases hobject : ((n.fields .idle).runIn workspace).1 with e | object
  · rw [hobject] at hok
    cases hok
  rcases hinterface : ((i.fields .idle).runIn workspace).1 with e | interface <;>
    rw [hinterface] at hi
  · cases hi
  have hkeys : keys interface = ["id", "label"] := Option.some.inj hi
  have hconforms := catalogue_reachable.conforms hlt hnone hquiet hn
    (show n.interfaces = [] ++ i :: [] from hinterfaces) .refl .refl hobject hinterface
  have hid : "id" ∈ keys interface := hkeys ▸ List.mem_cons_self
  obtain ⟨⟨_, a⟩, ha, rfl⟩ := List.mem_map.1 hid
  obtain ⟨⟨_, b⟩, hb, rfl⟩ := List.mem_map.1 (hconforms.named _ hid)
  have hno : ¬Redeclares (catalogue.registries 0).ownFields FieldSpec.exposedName
      (n.walkAfter []) "id" := by
    have hown : (catalogue.registries 0).ownFields book =
        [Overridden.text "title" (some "label")] := by cbv
    rw [hwalk]
    rintro ⟨c, hc, f, hf, hname⟩
    cases List.mem_singleton.1 hc
    rw [hown] at hf
    cases List.mem_singleton.1 hf
    exact absurd hname (by decide)
  cases hconforms.same _ a b ha hb hno
  exact ⟨n, i, object, interface, catalogue_reachable, hlt, hnone, hquiet, hn, hinterfaces,
    hobject, hinterface, hconforms, hkeys, hwalk, a, ha, hb⟩

end ApiGraph
