import ApiGraph.Proofs.Compile.Aged
import ApiGraph.Proofs.FieldMap.Merge
import ApiGraph.Proofs.Schema.Kept
import ApiGraph.Proofs.Session.Implementors

/-!
# Inheritance

The fields of an object type are those of a walk: through the lineages of its interfaces, of its
mixins and of its own class, each oldest first.  An interface and an input type walk through their
own lineages.  In all three cases the walk is merged by one rule (`Merges`), over what is registered
when the fields are first asked for; what is registered later makes no difference.

## What is here

* `Compile.runIn_remember_open`: what is made for an open session.
* `Workspace.Inherits`: the fields of all types of a session, with the walks of the object types.
* `Workspace.KeepsFields`: the fields of all types of a session are what they were.
* `Workspace.Reachable.inherits`: both, in every run.
-/

set_option autoImplicit false

namespace ApiGraph

open Compile (Settles)

variable {σ : Type} {d : Declarations} {host : Host σ} {w v w' : Workspace σ} {s : SessionId}

/-- What a table of an open session does not keep is made now. -/
theorem Compile.runIn_remember_open {t : CacheTable} {key : TypeKey} {make : Compile σ t.Value}
    (hnone : w.entry s t key = none) (hs : w.isOpen s = true) :
    ((remember s t key (do requireOpen s; make)).runIn w).1 = (make.runIn w).1 := by
  have hrequire : (requireOpen s : Compile σ Unit).runIn w = (.ok (), w) := by
    rw [runIn_requireOpen, if_pos hs]
  rw [fst_runIn_remember_of_none hnone, runIn_bind_of_ok hrequire]

namespace Workspace

/-- The types of a session inherit.  In one workspace something is registered; another one has come
of it without more being registered, and has the types.  Then the walk of an object type that has
come new is read off the options of its class, and the fields of a type that had none are those of
its walk, merged. -/
structure Inherits (host : Host σ) (w v : Workspace σ) (s : SessionId) : Prop where
  walk : ∀ (key : TypeKey) (n : ObjectNode), v.entry s .objects key = some n →
    w.entry s .objects key = none →
      ∃ c spec, n.cls = some c ∧ c.key = key ∧
        OrderedMap.find (w.registries s).objects key = some spec ∧
        n.walk = (spec.implements ++ spec.mixins ++ [c]).flatMap ClassRef.oldestFirst
  objects : ∀ (key : TypeKey) (n : ObjectNode) (c : ClassRef), v.entry s .objects key = some n →
    n.cls = some c → w.entry s .objectFields key = none →
      MergesFields host w s c n.walk ((n.fields host).runIn v).1
  interfaces : ∀ (key : TypeKey) (n : InterfaceNode), v.entry s .interfaces key = some n →
    w.entry s .interfaceFields key = none →
      MergesFields host w s n.cls n.cls.oldestFirst ((n.fields host).runIn v).1
  inputs : ∀ (key : TypeKey) (n : InputNode), v.entry s .inputs key = some n →
    w.entry s .inputFields key = none →
      MergesInputs host w s n.cls n.cls.oldestFirst ((n.fields host).runIn v).1

/-- The fields that are kept for the types of a session are those that are given in another
workspace. -/
structure KeepsFields (host : Host σ) (w w' : Workspace σ) (s : SessionId) : Prop where
  objects : ∀ (key : TypeKey) (n : ObjectNode) (fields : FieldMap),
    w.entry s .objects key = some n → w.entry s .objectFields key = some fields →
      ((n.fields host).runIn w').1 = .ok fields
  interfaces : ∀ (key : TypeKey) (n : InterfaceNode) (fields : FieldMap),
    w.entry s .interfaces key = some n → w.entry s .interfaceFields key = some fields →
      ((n.fields host).runIn w').1 = .ok fields
  inputs : ∀ (key : TypeKey) (n : InputNode) (fields : InputMap),
    w.entry s .inputs key = some n → w.entry s .inputFields key = some fields →
      ((n.fields host).runIn w').1 = .ok fields

/-! ## The first request -/

section First

variable (hw : w.Coherent d) (hs : w.isOpen s = true) (hv : w.Aged d host v)
include hv

/-- What a table of an aged workspace keeps is properly kept. -/
theorem Aged.proper {t : CacheTable} {key : TypeKey} {x : t.Value}
    (hx : v.entry s t key = some x) :
    ∃ u, w.Filled d host u ∧ u.entry s t key = some x ∧ u.Proper d s t key x := by
  obtain ⟨u, hu, hcache⟩ := hv.tables
  rw [entry, hcache] at hx
  exact ⟨u, hu, hx, hu.coherent.entries hx⟩

include hw hs

theorem Aged.objectFields_merge {key : TypeKey} {n : ObjectNode} {c : ClassRef}
    (hn : v.entry s .objects key = some n) (hcls : n.cls = some c)
    (hnone : w.entry s .objectFields key = none) :
    MergesFields host w s c n.walk ((n.fields host).runIn v).1 := by
  obtain ⟨u, -, -, hid, -⟩ := hv.proper (t := .objects) hn
  have hfields : n.fields host = Compile.remember s .objectFields key (do
      Compile.requireOpen s
      compileFields host s c n.walk) := by
    rw [ObjectNode.fields, hid, hcls]
  rw [(ObjectNode.fields_aged hw hv (hv.attains_of_entry hn _ List.mem_cons_self)).1, hfields,
    Compile.runIn_remember_open hnone hs]
  exact compileFields_merges hw (lt_length_of_isOpen hs) c n.walk

theorem Aged.interfaceFields_merge {key : TypeKey} {n : InterfaceNode}
    (hn : v.entry s .interfaces key = some n) (hnone : w.entry s .interfaceFields key = none) :
    MergesFields host w s n.cls n.cls.oldestFirst ((n.fields host).runIn v).1 := by
  obtain ⟨u, -, -, hid, -⟩ := hv.proper (t := .interfaces) hn
  have hfields : n.fields host = Compile.remember s .interfaceFields key (do
      Compile.requireOpen s
      compileFields host s n.cls n.cls.oldestFirst) := by
    rw [InterfaceNode.fields, hid]
  rw [(InterfaceNode.fields_aged hw hv (hv.attains_of_entry hn _ List.mem_cons_self)).1, hfields,
    Compile.runIn_remember_open hnone hs]
  exact compileFields_merges hw (lt_length_of_isOpen hs) n.cls n.cls.oldestFirst

theorem Aged.inputFields_merge {key : TypeKey} {n : InputNode}
    (hn : v.entry s .inputs key = some n) (hnone : w.entry s .inputFields key = none) :
    MergesInputs host w s n.cls n.cls.oldestFirst ((n.fields host).runIn v).1 := by
  obtain ⟨u, -, -, hid, -⟩ := hv.proper (t := .inputs) hn
  have hfields : n.fields host = Compile.remember s .inputFields key (do
      Compile.requireOpen s
      compileInputFields host s n.cls) := by
    rw [InputNode.fields, hid]
  rw [(InputNode.fields_aged hw hv (hv.attains_of_entry hn _ List.mem_cons_self)).1, hfields,
    Compile.runIn_remember_open hnone hs]
  exact compileInputFields_merges hw (lt_length_of_isOpen hs) n.cls

/-- An object type that has come new was made from the options of its class. -/
theorem Aged.walk_eq {key : TypeKey} {n : ObjectNode} (hn : v.entry s .objects key = some n)
    (hnone : w.entry s .objects key = none) :
    ∃ c spec, n.cls = some c ∧ c.key = key ∧
      OrderedMap.find (w.registries s).objects key = some spec ∧
      n.walk = (spec.implements ++ spec.mixins ++ [c]).flatMap ClassRef.oldestFirst := by
  obtain ⟨u, hu, hn, -⟩ := hv.proper (t := .objects) hn
  obtain ⟨c, hc, rfl, hrun⟩ := hu.answered hn
  have hself : w.Filled d host w := .refl hw
  obtain ⟨spec, hspec, hmade⟩ := compileObject_ofSpec hw (lt_length_of_isOpen hs) hself hnone hrun
  refine ⟨c, spec, hmade.cls_eq, rfl, hspec, ?_⟩
  rw [ObjectNode.walk, ← hmade.implements_eq, hmade.mixins_eq, hmade.cls_eq, Option.toList_some]

end First

/-! ## Later requests -/

/-- A table of fields keeps what it has for a node, as long as the session has an owner. -/
theorem Follows.fields (h : w.Follows w') (howner : (w'.session s).owners ≠ []) {t : CacheTable}
    {key : TypeKey} {x : t.Value} (hn : ∃ n, w.entry s t.subject key = some n)
    (hx : w.entry s t key = some x) : w'.entry s t key = some x := by
  rcases h.entries hn hx with hx | ⟨-, -, hnone⟩
  · exact hx
  · exact absurd hnone howner

theorem Follows.keepsFields (hw : w.Coherent d) (h : w.Follows w')
    (howner : (w'.session s).owners ≠ []) : w.KeepsFields host w' s := by
  refine ⟨fun key n fields hn hf ↦ ?_, fun key n fields hn hf ↦ ?_, fun key n fields hn hf ↦ ?_⟩
  · obtain ⟨hid, ⟨c, hcls, -⟩, -⟩ := hw.entries (t := .objects) hn
    have hkept : n.Kept w' fields := .inl ⟨s, .object, key, c, hid, hcls,
      h.fields howner (t := .objectFields) ⟨n, hn⟩ hf⟩
    exact congrArg Prod.fst (ObjectNode.runIn_fields_of_kept hkept)
  · have hkept : n.Kept w' fields := ⟨s, .interface, key, (hw.entries (t := .interfaces) hn).1,
      h.fields howner (t := .interfaceFields) ⟨n, hn⟩ hf⟩
    exact congrArg Prod.fst (InterfaceNode.runIn_fields_of_kept hkept)
  · have hkept : n.Kept w' fields := ⟨s, .input, key, (hw.entries (t := .inputs) hn).1,
      h.fields howner (t := .inputFields) ⟨n, hn⟩ hf⟩
    exact congrArg Prod.fst (InputNode.runIn_fields_of_kept hkept)

/-- **Inheritance, mixins and interfaces merge by one rule.**  Take any workspace of a run and a
session that is open in it, and let anything be compiled, but nothing be registered.  An object type
that comes new walks through the lineages of the interfaces that its class claims, of its mixins and
of the class itself, each oldest first.  When a type without fields is asked for them, it is refused
for a root field exactly if a class on the walk declares one and its own class is no schema root.
Otherwise, if the fields compile, there is one for every name that a declaration on the walk
exposes, at the place of the first declaration of the name and compiled from the last, as a field of
the class that declares it.  Interfaces and input types do the same with their own lineages.  The
fields that are there stay, whatever is registered later, as long as anything owns the session. -/
theorem Reachable.inherits (hw : w.Reachable d host) (hs : w.isOpen s = true) :
    (∀ v, w.Aged d host v → w.Inherits host v s) ∧
      ∀ w', Relation.ReflTransGen (Step d host) w w' → (w'.session s).owners ≠ [] →
        w.KeepsFields host w' s := by
  have hcoherent := hw.sound.coherent
  refine ⟨fun v hv ↦ ?_, fun w' hsteps howner ↦ ?_⟩
  · exact ⟨fun _ _ ↦ hv.walk_eq hcoherent hs, fun _ _ _ ↦ hv.objectFields_merge hcoherent hs,
      fun _ _ ↦ hv.interfaceFields_merge hcoherent hs, fun _ _ ↦ hv.inputFields_merge hcoherent hs⟩
  · exact (follows_of_steps hsteps hw.sound).2.keepsFields hcoherent howner

end Workspace

/-! ### An instance -/

namespace Overridden

/-- An interface. -/
def named : ClassRef := .base ⟨1⟩ "Named"

/-- A class that inherits from the interface. -/
def base : ClassRef := .derived ⟨2⟩ "Base" named

/-- A class that inherits from that one, and claims the interface. -/
def child : ClassRef := .derived ⟨3⟩ "Child" base

/-- The three classes. -/
def declared : Declarations := .ofClasses [named, base, child] (by decide)

/-- A field that reads a property. -/
def text (property : String) (name : Option String) : FieldSpec where
  property
  name
  type := some (.scalar .string)

theorem text_within (property : String) (name : Option String) (offered : GraphNode → Prop) :
    (text property name).Within declared offered := by
  refine ⟨fun t ht ↦ ?_, nofun, nofun⟩
  cases ht
  exact .scalar _

/-- The classes with their fields, one of which the last class exposes as one of the interface. -/
def registered : Workspace Unit :=
  ((((((Workspace.openSession { host := () } {}).2.modifyRegistries 0
    (·.interfaceType named {})).modifyRegistries 0
    (·.objectType child { implements := [named] })).modifyRegistries 0
    (Registries.field named (text "name" none)).apply).modifyRegistries 0
    (Registries.field base (text "id" none)).apply).modifyRegistries 0
    (Registries.field child (text "label" (some "name"))).apply).modifyRegistries 0
    (Registries.field child (text "size" none)).apply

/-- The last class has been asked for as an object type. -/
def workspace : Workspace Unit := ((compileObject 0 child).runIn registered).2

theorem reachable : workspace.Reachable declared .idle := by
  have hchild : declared.classes child := by
    exact List.mem_cons_of_mem _ (List.mem_cons_of_mem _ List.mem_cons_self)
  have hnamed : ∀ c ∈ [named], declared.classes c := fun c hc ↦ by
    cases List.mem_singleton.1 hc
    exact List.mem_cons_self
  have hopened : Workspace.Reachable declared .idle _ :=
    (Workspace.Reachable.opened () {}).registered (s := 0) rfl (.interfaceType named {})
  have hregistered : registered.Reachable declared .idle :=
    ((((hopened.registered (s := 0) rfl (.objectType hchild hnamed)).registered (s := 0) rfl
      (.field named (text_within ..))).registered (s := 0) rfl
      (.field base (text_within ..))).registered (s := 0) rfl
      (.field child (text_within ..))).registered (s := 0) rfl (.field child (text_within ..))
  exact hregistered.tail (.asked (.object (s := 0) rfl hchild))

end Overridden

open Overridden in
/-- The field of the interface is the first one of the class, and reads what the class says. -/
theorem Workspace.Reachable.inherits_overridden :
    workspace.Reachable declared .idle ∧ workspace.isOpen 0 = true ∧
      ∃ n fields field, workspace.entry 0 .objects child.key = some n ∧
        n.walk.map ClassRef.name = ["Named", "Named", "Base", "Child"] ∧
        ((n.fields .idle).runIn workspace).1 = .ok fields ∧
        OrderedMap.keys fields = ["name", "id", "size"] ∧ ("name", field) ∈ fields ∧
        CompiledFrom .idle workspace 0 (child, text "label" (some "name")) field := by
  have hopen : workspace.isOpen 0 = true := rfl
  have hinherits := (reachable.inherits hopen).1 workspace (.refl reachable.sound.coherent)
  have hnode : (workspace.entry 0 .objects child.key).map
      (fun n : ObjectNode ↦ (n.cls, n.walk, ((n.fields .idle).runIn workspace).1.toOption.isSome)) =
        some (some child, [named, named, base, child], true) := by cbv
  obtain ⟨n, hn, hn'⟩ := Option.map_eq_some_iff.1 hnode
  obtain ⟨hcls, hwalk, hok⟩ : n.cls = some child ∧ n.walk = [named, named, base, child] ∧
      ((n.fields .idle).runIn workspace).1.toOption.isSome = true := by
    simpa only [Prod.mk.injEq] using hn'
  have hmerges := hinherits.objects child.key n child hn hcls rfl
  rw [hwalk] at hmerges
  rcases hfields : ((n.fields .idle).runIn workspace).1 with e | fields
  · rw [hfields] at hok
    cases hok
  obtain ⟨hkeys, hlast⟩ := hmerges.merges fields hfields
  have hnames : OrderedMap.keys fields = ["name", "id", "size"] := hkeys.trans (by cbv)
  have hmem : "name" ∈ OrderedMap.keys fields := hnames ▸ List.mem_cons_self
  obtain ⟨⟨key, field⟩, hfield, rfl⟩ := List.mem_map.1 hmem
  obtain ⟨x, hx, hcompiled⟩ := hlast _ field hfield
  have hx' : some (child, text "label" (some "name")) = some x :=
    Eq.trans (by cbv) (lastNamed_iff_find?.1 hx)
  cases hx'
  exact ⟨reachable, hopen, n, fields, field, hn, congrArg (List.map ClassRef.name) hwalk, hfields,
    hnames, hfield, hcompiled⟩
end ApiGraph
