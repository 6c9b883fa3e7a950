import ApiGraph.Discrimination
import ApiGraph.Proofs.Compile.Respects
import ApiGraph.Proofs.Lineage
import ApiGraph.Proofs.Session.Steps
import Mathlib

/-!
# The member of a union to which a value belongs

A union without a discriminator of the program's own looks through its members, in the order in
which they are declared, for one to whose class a value belongs.  If one member inherits from
another, a value may belong to both, and the order decides.  Otherwise it does not: the ancestors of
a class form a chain, so of two members to which a value belongs one inherits from the other.

## What is here

* `HostValue.BelongsTo` and `HostValue.FirstIn`: the classes to which a value belongs, and the first
  of a list.
* `Unrelated.eq_of_belongsTo`: of classes that do not inherit from each other a value belongs to one
  at most.
* `ObjectOf`: an object type is the one of a class, and `UnionNode.memberOf?_eq`: what a union
  answers, read off the classes of its members.
* `compileUnion_memberOf`: what a union answers, and when the order of its members matters.
-/

set_option autoImplicit false

namespace ApiGraph

open Compile (Respects Settles)

/-! ## The classes of a value -/

namespace HostValue

/-- A value is an instance of a class or of one that inherits from it. -/
def BelongsTo (value : HostValue) (c : ClassRef) : Prop :=
  ∃ i ∈ value.instance?, c.key ∈ i.cls.lineage.map ClassRef.key

theorem belongsTo_iff {value : HostValue} {c : ClassRef} :
    value.BelongsTo c ↔ (value.instance?.any fun i ↦ i.isA c.key) = true := by
  rw [Option.any_eq_true]
  exact exists_congr fun i ↦ and_congr_right fun _ ↦ (i.cls.isA_iff_mem_lineage c.key).symm

instance (value : HostValue) (c : ClassRef) : Decidable (value.BelongsTo c) :=
  decidable_of_iff' _ belongsTo_iff

/-- A class is the first of a list to which a value belongs. -/
def FirstIn (value : HostValue) (classes : List ClassRef) (c : ClassRef) : Prop :=
  ∃ before after, classes = before ++ c :: after ∧ value.BelongsTo c ∧
    ∀ c' ∈ before, ¬value.BelongsTo c'

theorem firstIn_iff_find? {value : HostValue} {classes : List ClassRef} {c : ClassRef} :
    value.FirstIn classes c ↔ classes.find? (value.BelongsTo ·) = some c := by
  rw [List.find?_eq_some_iff_append]
  simp only [FirstIn, decide_eq_true_eq, Bool.not_eq_true', decide_eq_false_iff_not]
  constructor
  · rintro ⟨before, after, hsplit, hc, hbefore⟩
    exact ⟨hc, before, after, hsplit, hbefore⟩
  · rintro ⟨hc, before, after, hsplit, hbefore⟩
    exact ⟨before, after, hsplit, hc, hbefore⟩

/-- A value of a class that is declared together with its ancestors, if of any. -/
def Declared (d : Declarations) (value : HostValue) : Prop :=
  ∀ i ∈ value.instance?, ∀ c ∈ i.cls.lineage, d.classes c

/-- A value belongs to the ancestors of its class. -/
theorem BelongsTo.mem_lineage {d : Declarations} {value : HostValue} (hv : value.Declared d)
    {i : Instance} (hi : i ∈ value.instance?) {c : ClassRef} (hc : d.classes c)
    (h : value.BelongsTo c) : c ∈ i.cls.lineage := by
  obtain ⟨i', hi', h⟩ := h
  cases Option.mem_unique hi hi'
  obtain ⟨a, ha, hkey⟩ := List.mem_map.1 h
  rwa [← d.classes_inj (hv i hi a ha) hc hkey]

end HostValue

/-- No class of a list is an ancestor of another one. -/
def Unrelated (classes : List ClassRef) : Prop :=
  ∀ c ∈ classes, ∀ c' ∈ classes, c'.key ∈ c.lineage.map ClassRef.key → c' = c

/-- A value belongs to one of several classes at most if none is an ancestor of another. -/
theorem Unrelated.eq_of_belongsTo {d : Declarations} {classes : List ClassRef}
    (h : Unrelated classes) (hclasses : ∀ c ∈ classes, d.classes c) {value : HostValue}
    (hv : value.Declared d) {c c' : ClassRef} (hc : c ∈ classes) (hc' : c' ∈ classes)
    (hb : value.BelongsTo c) (hb' : value.BelongsTo c') : c = c' := by
  obtain ⟨i, hi, -⟩ := id hb
  have hmem := hb.mem_lineage hv hi (hclasses c hc)
  have hmem' := hb'.mem_lineage hv hi (hclasses c' hc')
  rcases ClassRef.mem_lineage_or_mem_lineage hmem hmem' with hup | hup
  · exact h c' hc' c hc (List.mem_map_of_mem hup)
  · exact (h c hc c' hc' (List.mem_map_of_mem hup)).symm

/-! ## Unions and their classes -/

section Union

variable {σ : Type} {d : Declarations} {s : SessionId} {w : Workspace σ}

/-- The name of the object type of a class, if there is one. -/
def objectName? (s : SessionId) (w : Workspace σ) (c : ClassRef) : Option String :=
  ((compileObject s c).runIn w).1.toOption.map ObjectNode.name

/-- An object type is the one of a class. -/
def ObjectOf (s : SessionId) (w : Workspace σ) (c : ClassRef) (m : ObjectNode) : Prop :=
  m.cls = some c ∧ ((compileObject s c).runIn w).1 = .ok m

/-- Among the object types of classes the first one of an instance is that of the first class. -/
theorem find?_objectOf {classes : List ClassRef} {members : List ObjectNode}
    (h : List.Forall₂ (ObjectOf s w) classes members) (i : Instance) :
    (members.find? fun m ↦ m.cls.any fun c ↦ i.isA c.key).map ObjectNode.name =
      (classes.find? fun c ↦ i.isA c.key).bind (objectName? s w) := by
  induction h with
  | nil => rfl
  | @cons c m classes members hm _ ih =>
    rw [List.find?_cons, List.find?_cons, hm.1, Option.any_some]
    cases i.isA c.key with
    | true =>
      show some m.name = objectName? s w c
      rw [objectName?, hm.2]
      rfl
    | false => exact ih

/-- A union answers with the name of the first of its classes to which a value belongs. -/
theorem UnionNode.memberOf?_eq {n : UnionNode} {classes : List ClassRef}
    (h : List.Forall₂ (ObjectOf s w) classes n.members) (value : HostValue) :
    n.memberOf? value = (classes.find? (value.BelongsTo ·)).bind (objectName? s w) := by
  have hbelongs : ∀ c, decide (value.BelongsTo c) = value.instance?.any fun i ↦ i.isA c.key :=
    fun c ↦ by rw [Bool.eq_iff_iff, decide_eq_true_iff, HostValue.belongsTo_iff]
  simp only [memberOf?, hbelongs]
  cases value.instance? with
  | none => rw [List.find?_eq_none.2 fun c _ ↦ by simp]; rfl
  | some i => exact find?_objectOf h i

/-- A union answers exactly with the name of the first class to which a value belongs. -/
theorem UnionNode.memberOf?_eq_some_iff {n : UnionNode} {classes : List ClassRef}
    (h : List.Forall₂ (ObjectOf s w) classes n.members) {value : HostValue} {name : String} :
    n.memberOf? value = some name ↔ ∃ c m, value.FirstIn classes c ∧
      ((compileObject s c).runIn w).1 = .ok m ∧ m.name = name := by
  rw [memberOf?_eq h, Option.bind_eq_some_iff]
  refine exists_congr fun c ↦ ?_
  rw [exists_and_left, ← HostValue.firstIn_iff_find?]
  refine and_congr_right fun _ ↦ ?_
  rw [objectName?]
  rcases ((compileObject s c).runIn w).1 with e | m <;> simp [Except.toOption]

/-- A union answers for every value that belongs to one of its classes. -/
theorem UnionNode.memberOf?_eq_none_iff {n : UnionNode} {classes : List ClassRef}
    (h : List.Forall₂ (ObjectOf s w) classes n.members) {value : HostValue} :
    n.memberOf? value = none ↔ ∀ c ∈ classes, ¬value.BelongsTo c := by
  have hnone : (classes.find? (value.BelongsTo ·)).bind (objectName? s w) = none ↔
      classes.find? (value.BelongsTo ·) = none := by
    cases hfirst : classes.find? (value.BelongsTo ·) with
    | none => exact iff_of_true rfl rfl
    | some c =>
      obtain ⟨m, -, -, hm⟩ := exists_right_of_forall₂ h (List.mem_of_find?_eq_some hfirst)
      simp [objectName?, hm, Except.toOption]
  rw [memberOf?_eq h, hnone, List.find?_eq_none]
  simp only [decide_eq_true_eq]

/-! ## Making a union -/

/-- The node of a union with some options and members. -/
def UnionSpec.node (spec : UnionSpec) (s : SessionId) (cls : ClassRef) (members : List ObjectNode) :
    UnionNode where
  id := .compiled s .union cls.key
  name := spec.name.getD cls.name
  description := spec.description
  cls
  members
  custom := spec.discriminator

/-- A union that is not there yet is made of the options of its class, if its members can be
made. -/
theorem compileUnion_eq_ok_iff {cls : ClassRef} (hnone : w.entry s .unions cls.key = none)
    {n : UnionNode} :
    ((compileUnion s cls).runIn w).1 = .ok n ↔
      ∃ spec members, OrderedMap.find (w.registries s).unions cls.key = some spec ∧
        ((spec.members.mapM (compileMember s (spec.name.getD cls.name))).runIn w).1 = .ok members ∧
        spec.node s cls members = n := by
  rw [compileUnion, Compile.fst_runIn_remember_of_none hnone, Compile.runIn_get_bind]
  cases OrderedMap.find (w.registries s).unions cls.key with
  | none => exact iff_of_false nofun (by rintro ⟨_, _, h, -⟩; cases h)
  | some spec =>
    dsimp only
    rw [Compile.runIn_bind]
    constructor
    · intro h
      rcases hrun : (spec.members.mapM (compileMember s (spec.name.getD cls.name))).runIn w with
        ⟨e | members, w₁⟩ <;> rw [hrun] at h <;> cases h
      exact ⟨spec, members, rfl, congrArg Prod.fst hrun, rfl⟩
    · rintro ⟨_, members, hspec, hrun, rfl⟩
      cases hspec
      rw [(Prod.ext hrun rfl : (spec.members.mapM
        (compileMember s (spec.name.getD cls.name))).runIn w = (.ok members, _))]
      rfl

variable (host : Host σ) (hw : w.Coherent d) (hs : s < w.sessions.length)
include host hw hs

/-- A member of a union is the object type of its class, whatever has been made in the meantime. -/
theorem objectOf_of_compileMember {w₁ w₂ : Workspace σ} (hw₁ : w.Filled d host w₁) {c : ClassRef}
    (hc : d.classes c) {union : String} {m : ObjectNode}
    (h : (compileMember s union c).runIn w₁ = (.ok m, w₂)) : ObjectOf s w c m := by
  have hobject : (compileObject s c).runIn w₁ = (.ok m, w₂) := by
    rw [compileMember, Compile.runIn_get_bind] at h
    dsimp only at h
    split at h
    · cases h
    split at h
    · exact h
    · cases h
  have hsettles : Settles d host w [] (compileObject s c) _ := compileObject_settles hw hs hc
  refine ⟨?_, (hsettles.runIn_eq (.refl hw) hw₁).symm.trans (congrArg Prod.fst hobject)⟩
  obtain ⟨hcoherent, hentry⟩ := hsettles.kept hs hw₁ hobject
  obtain ⟨-, ⟨c', hcls, hc', hkey⟩, -⟩ := hcoherent.entries hentry
  rw [hcls, d.classes_inj hc' hc hkey]

/-- Members that are compiled one after the other are the object types of their classes. -/
theorem objectOf_of_runIn_mapM {classes : List ClassRef} (hclasses : ∀ c ∈ classes, d.classes c)
    {union : String} {members : List ObjectNode}
    (h : ((classes.mapM (compileMember s union)).runIn w).1 = .ok members) :
    List.Forall₂ (ObjectOf s w) classes members :=
  (Settles.forall₂_of_runIn_mapM (p := fun c m _ ↦ ObjectOf s w c m)
    (fun c hc ↦ compileMember_settles hw hs union (hclasses c hc))
    (fun c hc _ _ _ hw₁ hm ↦ objectOf_of_compileMember host hw hs hw₁ (hclasses c hc) hm)
    (fun _ _ _ _ _ ↦ id) (.refl hw) (Prod.ext h rfl)).2

/-- Members that can be compiled in one order can be compiled in every order. -/
theorem exists_members_of_perm {classes classes' : List ClassRef}
    (hclasses : ∀ c ∈ classes, d.classes c) (hperm : classes.Perm classes') {union : String}
    {members : List ObjectNode}
    (h : ((classes.mapM (compileMember s union)).runIn w).1 = .ok members) :
    ∃ members', ((classes'.mapM (compileMember s union)).runIn w).1 = .ok members' := by
  have hself : w.Filled d host w := .refl hw
  have hmembers : ∀ c ∈ classes, Settles d host w [] (compileMember s union c)
      (fun n ↦ [.object n]) := fun c hc ↦ compileMember_settles hw hs union (hclasses c hc)
  have hok : List.Forall₂ (fun c m ↦ ((compileMember s union c).runIn w).1 = .ok m)
      classes members :=
    (Settles.forall₂_of_runIn_mapM
      (p := fun c m _ ↦ ((compileMember s union c).runIn w).1 = .ok m) hmembers
      (fun c hc _ _ _ hw₁ hm ↦
        ((hmembers c hc).runIn_eq hself hw₁).symm.trans (congrArg Prod.fst hm))
      (fun _ _ _ _ _ ↦ id) hself (Prod.ext h rfl)).2
  obtain ⟨members', w₁, hrun⟩ := Settles.exists_runIn_mapM hself
    (fun c hc ↦ hmembers c (hperm.mem_iff.2 hc)) (fun c hc ↦ by
      obtain ⟨m, -, hm⟩ := exists_right_of_forall₂ hok (hperm.mem_iff.2 hc)
      exact ⟨m, hm⟩) hself
  exact ⟨members', congrArg Prod.fst hrun⟩

end Union

/-! ## Another order -/

section Order

variable {σ : Type} {d : Declarations} {s : SessionId} {w : Workspace σ}

namespace Workspace

/-- Two workspaces have the same nodes for a session that is there, and what is registered in it
differs at most in how its unions are. -/
structure AlikeNodes (s : SessionId) (w w' : Workspace σ) : Prop where
  opened : s < w.sessions.length
  opened' : s < w'.sessions.length
  alike : (w.registries s).Alike (w'.registries s)
  nodes : ∀ {t : CacheTable}, t.ofNodes = true → ∀ key, w'.entry s t key = w.entry s t key

/-- Making nodes that are no unions looks at nothing else. -/
theorem accord_alikeNodes (s : SessionId) : Accord s (AlikeNodes (σ := σ) s) where
  alike := AlikeNodes.alike
  nodes := AlikeNodes.nodes
  keep {w w'} h t ht key x := by
    refine ⟨(w.length_modifySession s _).symm ▸ h.opened,
      (w'.length_modifySession s _).symm ▸ h.opened', ?_, fun hu other ↦
        entry_keep_congr h.opened h.opened' key x (h.nodes hu other)⟩
    rw [registries_of_bare (bare_modifyCache w' s _), registries_of_bare (bare_modifyCache w s _)]
    exact h.alike

theorem registries_modifyRegistries (hs : s < w.sessions.length) (f : Registries → Registries) :
    (w.modifyRegistries s f).registries s = f (w.registries s) := by
  rw [registries, modifyRegistries, session_modifySession_self w _ hs]
  rfl

/-- A union can be registered again. -/
theorem AlikeNodes.unionType (hs : s < w.sessions.length) {cls : ClassRef}
    (hcls : (w.registries s).isUnion cls.key = true) (spec : UnionSpec) :
    w.AlikeNodes s (w.modifyRegistries s (·.unionType cls spec)) where
  opened := hs
  opened' := (w.length_modifySession s _).symm ▸ hs
  alike := by
    rw [registries_modifyRegistries hs]
    refine ⟨rfl, rfl, rfl, rfl, rfl, rfl, fun key ↦ ?_⟩
    rw [Registries.isUnion, OrderedMap.has, Registries.unionType, OrderedMap.find_put]
    split
    · rename_i hkey
      exact (hkey ▸ hcls).symm
    · rfl
  nodes _ key := w.entry_modifyRegistries s _ s _ key

end Workspace

/-- **The first member of a value.**  Let a session make a union that is not there yet and has no
discriminator of the program's own.  The session gives this node from then on.  Wherever the node is
asked for a value, it answers with the name of the object type of the first member, in the order of
the declaration, to whose class the value belongs; it does not answer if the value is no instance or
belongs to no member; and it changes nothing.  If no member is an ancestor of another one, a value
whose class is declared belongs to one member at most, and with the members declared in any other
order the union is made as well and answers the same. -/
theorem compileUnion_memberOf (host : Host σ) (hw : w.Coherent d) (hs : s < w.sessions.length)
    {cls : ClassRef} (hcls : d.classes cls) (hnone : w.entry s .unions cls.key = none)
    {n : UnionNode} {w' : Workspace σ} (h : (compileUnion s cls).runIn w = (.ok n, w'))
    (hcustom : n.custom = none) :
    (∀ v, w'.Follows v → (compileUnion s cls).runIn v = (.ok n, v)) ∧
    ∃ spec, OrderedMap.find (w.registries s).unions cls.key = some spec ∧
      (∀ value context info v,
        (n.concrete host value context info v).2 = v ∧
        (∀ name, (n.concrete host value context info v).1 = some name ↔
          ∃ c m, value.FirstIn spec.members c ∧ ((compileObject s c).runIn w).1 = .ok m ∧
            m.name = name) ∧
        ((n.concrete host value context info v).1 = none ↔
          value.instance? = none ∨ ∀ c ∈ spec.members, ¬value.BelongsTo c)) ∧
      (Unrelated spec.members →
        (∀ value : HostValue, value.Declared d → ∀ c ∈ spec.members, ∀ c' ∈ spec.members,
          value.BelongsTo c → value.BelongsTo c' → c = c') ∧
        ∀ members', spec.members.Perm members' →
          ∃ n', ((compileUnion s cls).runIn (w.modifyRegistries s
              (·.unionType cls { spec with members := members' }))).1 = .ok n' ∧
            n'.custom = none ∧
            ∀ value : HostValue, value.Declared d → ∀ context info v,
              n'.concrete host value context info v = n.concrete host value context info v) := by
  have hconcrete : ∀ {n : UnionNode}, n.custom = none → ∀ value context info v,
      n.concrete host value context info v = (n.memberOf? value, v) := by
    intro n hn value context info v
    rw [UnionNode.concrete, hn]
    rfl
  obtain ⟨spec, members, hspec, hrun, hnode⟩ :=
    (compileUnion_eq_ok_iff hnone).1 (congrArg Prod.fst h)
  have hclasses : ∀ c ∈ spec.members, d.classes c :=
    (hw.registries s).members spec (OrderedMap.mem_values_of_find hspec)
  have hmembers : List.Forall₂ (ObjectOf s w) spec.members n.members :=
    hnode ▸ objectOf_of_runIn_mapM host hw hs hclasses hrun
  refine ⟨fun v hv ↦ ?_, spec, hspec, fun value context info v ↦ ?_, fun hunrelated ↦ ?_⟩
  · have hsettles : Settles d host w [] (compileUnion s cls) _ := compileUnion_settles hw hs hcls
    exact Compile.runIn_remember_of_entry (hv.node rfl (hsettles.kept hs (.refl hw) h).2)
  · rw [hconcrete hcustom]
    refine ⟨rfl, fun name ↦ n.memberOf?_eq_some_iff hmembers, ?_⟩
    refine (n.memberOf?_eq_none_iff hmembers).trans (or_iff_right_of_imp fun hi c _ ↦ ?_).symm
    rintro ⟨i, hmem, -⟩
    rw [hi] at hmem
    cases hmem
  · have hunique : ∀ value : HostValue, value.Declared d → ∀ c ∈ spec.members,
        ∀ c' ∈ spec.members, value.BelongsTo c → value.BelongsTo c' → c = c' :=
      fun value hv c hc c' hc' ↦ hunrelated.eq_of_belongsTo hclasses hv hc hc'
    refine ⟨hunique, fun classes hperm ↦ ?_⟩
    obtain ⟨others, hothers⟩ := exists_members_of_perm host hw hs hclasses hperm hrun
    have hmembers' : List.Forall₂ (ObjectOf s w) classes others :=
      objectOf_of_runIn_mapM host hw hs (fun c hc ↦ hclasses c (hperm.mem_iff.2 hc)) hothers
    -- registering the union anew changes nothing for its members
    have halike := Workspace.AlikeNodes.unionType hs (OrderedMap.has_of_find hspec)
      { spec with members := classes }
    have hothers' := ((Respects.mapM (compileMember_respects (Workspace.accord_alikeNodes s)
      (spec.name.getD cls.name)) classes) _ _ halike).1.trans hothers
    have hdefault : spec.discriminator = none := by
      rw [← hnode] at hcustom
      exact hcustom
    refine ⟨_, (compileUnion_eq_ok_iff ?_).2
      ⟨{ spec with members := classes }, others, ?_, hothers', rfl⟩, hdefault,
      fun value hv context info v ↦ ?_⟩
    · rwa [Workspace.entry_modifyRegistries]
    · rw [Workspace.registries_modifyRegistries hs, Registries.unionType, OrderedMap.find_put,
        if_pos rfl]
    · have hsame : spec.members.find? (value.BelongsTo ·) = classes.find? (value.BelongsTo ·) :=
        List.find?_eq_find?_of_perm hperm fun c hc c' hc' ↦ hunique value hv c hc.1 c' hc'.1
          (of_decide_eq_true hc.2) (of_decide_eq_true hc'.2)
      rw [hconcrete hdefault, hconcrete hcustom, UnionNode.memberOf?_eq hmembers',
        UnionNode.memberOf?_eq hmembers, hsame]

/-! ### An instance -/

namespace Living

/-- A union. -/
def living : ClassRef := .base ⟨1⟩ "Living"

/-- A class that is no member. -/
def animal : ClassRef := .base ⟨2⟩ "Animal"

/-- A member that inherits from it. -/
def dog : ClassRef := .derived ⟨3⟩ "Dog" animal

/-- Another member. -/
def plant : ClassRef := .base ⟨4⟩ "Plant"

/-- The four classes. -/
def declared : Declarations := .ofClasses [living, animal, dog, plant] (by decide)

/-- A session in which the members and the union are registered. -/
def workspace : Workspace Unit :=
  (((Workspace.openSession { host := () } {}).2.modifyRegistries 0
    (·.objectType dog {})).modifyRegistries 0
    (·.objectType plant {})).modifyRegistries 0
    (·.unionType living { members := [dog, plant] })

/-- A dog. -/
def rex : HostValue := .instanceOf dog [] []

/-- An animal of no particular kind. -/
def creature : HostValue := .instanceOf animal [] []

theorem declares {c : ClassRef} (hc : c ∈ [dog, plant]) : declared.classes c :=
  List.mem_cons_of_mem _ (List.mem_cons_of_mem _ hc)

theorem reachable : workspace.Reachable declared .idle := by
  have hobjects (c : ClassRef) (hc : declared.classes c) {offered : GraphNode → Prop} :
      Registries.Change declared offered (·.objectType c {}) :=
    .objectType hc fun _ h ↦ absurd h List.not_mem_nil
  have hopened : Workspace.Reachable declared .idle _ := .opened () {}
  have hdog := hopened.registered (s := 0) rfl (hobjects dog (declares List.mem_cons_self))
  have hplant := hdog.registered (s := 0) rfl
    (hobjects plant (declares (List.mem_cons_of_mem _ List.mem_cons_self)))
  exact hplant.registered (s := 0) rfl (.unionType living fun _ ↦ declares)

theorem unrelated : Unrelated [dog, plant] := by
  simp [Unrelated, dog, animal, plant, ClassRef.lineage, ClassRef.key]

theorem rex_declared : rex.Declared declared := by
  intro i hi c hc
  cases hi
  have hc' : c ∈ [dog, animal] := hc
  rcases List.mem_cons.1 hc' with rfl | hc'
  · exact declares List.mem_cons_self
  · cases List.mem_singleton.1 hc'
    exact List.mem_cons_of_mem _ List.mem_cons_self

end Living

open Living in
/-- A dog is found whichever member is declared first, and an animal is none of them. -/
theorem compileUnion_memberOf_living :
    ∃ n, ((compileUnion 0 living).runIn workspace).1 = .ok n ∧
      (∀ v, (n.concrete .idle rex none {} v).1 = some "Dog") ∧
      (∀ v, (n.concrete .idle creature none {} v).1 = none) ∧
      ∃ n', ((compileUnion 0 living).runIn (workspace.modifyRegistries 0
          (·.unionType living { members := [plant, dog] }))).1 = .ok n' ∧
        ∀ v, (n'.concrete .idle rex none {} v).1 = some "Dog" := by
  have hcustom : ((compileUnion 0 living).runIn workspace).1.toOption.map UnionNode.custom =
    some none := by cbv
  have hdog : ((compileObject 0 dog).runIn workspace).1.toOption.map ObjectNode.name =
    some "Dog" := by cbv
  rcases hrun : (compileUnion 0 living).runIn workspace with ⟨e | n, w'⟩ <;> rw [hrun] at hcustom
  · cases hcustom
  rcases hm : (compileObject 0 dog).runIn workspace with ⟨e | m, w''⟩ <;> rw [hm] at hdog
  · cases hdog
  obtain ⟨-, spec, hspec, hanswer, horder⟩ := compileUnion_memberOf .idle reachable.sound.coherent
    (by decide) List.mem_cons_self rfl hrun (Option.some.inj hcustom)
  have hspec' : OrderedMap.find (workspace.registries 0).unions living.key =
    some { members := [dog, plant] } := by cbv
  cases hspec.symm.trans hspec'
  have hrex : ∀ v, (n.concrete .idle rex none {} v).1 = some "Dog" := fun v ↦
    ((hanswer rex none {} v).2.1 "Dog").2 ⟨dog, m,
      ⟨[], [plant], rfl, by decide, List.forall_mem_nil _⟩, congrArg Prod.fst hm,
      Option.some.inj hdog⟩
  refine ⟨n, rfl, hrex, fun v ↦ ?_, ?_⟩
  · exact (hanswer creature none {} v).2.2.2 (.inr (by decide))
  · obtain ⟨n', hn', -, hsame⟩ := (horder unrelated).2 [plant, dog] (.swap _ _ _)
    exact ⟨n', hn', fun v ↦ by rw [hsame rex rex_declared none {} v, hrex]⟩

end Order

open Living in
/-- Of two members that inherit from each other the one that is declared first takes the value. -/
example :
    ([animal, dog].find? (rex.BelongsTo ·)).map ClassRef.name = some "Animal" ∧
      ([dog, animal].find? (rex.BelongsTo ·)).map ClassRef.name = some "Dog" := by
  decide

end ApiGraph
