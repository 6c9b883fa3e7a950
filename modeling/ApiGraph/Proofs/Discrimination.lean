import ApiGraph.Execution.Result
import ApiGraph.Proofs.Schema.Complete
import ApiGraph.Proofs.Session.Apart
import ApiGraph.Proofs.Session.Ownership

/-!
# How long the concrete type of a value can be found

The types of a compiled schema are used as long as the schema or an executable of it is there, and
the session may be gone by then.  Whether the concrete type of a value can still be found depends on
where a union or an interface looks for it.  A union without a discriminator of the program's own
has its members with it.  Everything else asks the session that made it, and that one only.

## What is here

* `GraphNode.concreteIn`: the name that a union or an interface finds for a value.
* `GraphNode.concreteIn_of_closed` and `GraphNode.concreteIn_of_ne`: what becomes of the name when
  the session that made the node is closed, and when another session is changed.
* `compileSchema_concreteIn`: exactly which names outlive the session of a schema.
-/

set_option autoImplicit false

namespace ApiGraph

variable {σ : Type} {d : Declarations} {host : Host σ}

/-! ## Unions and interfaces -/

namespace GraphNode

/-- Whether a node is a union or an interface. -/
def isAbstract : GraphNode → Bool
  | .union _ | .interface _ => true
  | _ => false

/-- Whether a node has with it all that it needs to find the concrete type of a value. -/
def hasMembers : GraphNode → Bool
  | .union n => n.custom.isNone
  | _ => false

/-- The name of the object type to which a value of a node belongs. -/
def concrete (host : Host σ) (n : GraphNode) (value : HostValue) (context : Option RequestContext)
    (info : ResolveInfo) : Action σ (Option String) :=
  match n with
  | .union n => n.concrete host value context info
  | .interface n => n.concrete host value context info
  | _ => pure none

/-- The name of the object type to which a value of a node belongs, in a workspace. -/
def concreteIn (host : Host σ) (n : GraphNode) (value : HostValue)
    (context : Option RequestContext) (info : ResolveInfo) (w : Workspace σ) : Option String :=
  (n.concrete host value context info w).1

/-- A union or an interface that is known has been made by a session. -/
theorem session_of_holds {w : Workspace σ} (hw : w.Coherent d) {n : GraphNode} (hn : w.Holds d n)
    (ha : n.isAbstract = true) : ∃ b, n.id.session? = some b := by
  cases n with
  | scalar n | enum n | input n | object n => cases ha
  | union n =>
    obtain ⟨b, key, hn⟩ := hn
    have hid : n.id = _ := (hw.entries (t := .unions) hn).1
    exact ⟨b, by rw [GraphNode.id, hid]; rfl⟩
  | interface n =>
    obtain ⟨b, key, hn⟩ := hn
    have hid : n.id = _ := (hw.entries (t := .interfaces) hn).1
    exact ⟨b, by rw [GraphNode.id, hid]; rfl⟩

end GraphNode

/-! ## Where a name is looked for -/

section Lookup

variable {value : HostValue} {context : Option RequestContext} {info : ResolveInfo}
  {w : Workspace σ} {s b : SessionId}

theorem Action.bind_apply {α β : Type} (x : Action σ α) (f : α → Action σ β) (w : Workspace σ) :
    (x >>= f) w = f (x w).1 (x w).2 := rfl

theorem customName_apply (reference : TypeRef) (w : Workspace σ) :
    (customName host b reference w).1 =
      if w.isOpen b then
        ((resolveType host b reference { nullable := true }).runIn w).1.toOption.map fun t ↦
          t.node.name
      else none := by
  show ((if w.isOpen b = true then _ else _ : Action σ (Option String)) w).1 = _
  split
  · rfl
  · rfl

theorem customConcrete_apply (id : DiscriminatorId) (w : Workspace σ) :
    (customConcrete host b id value context info w).1 =
      (host.discriminate id value context info w.host).1.bind fun reference ↦
        (customName host b reference
          { w with host := (host.discriminate id value context info w.host).2 }).1 := by
  rw [customConcrete, Action.bind_apply, Action.ofHost]
  rcases host.discriminate id value context info w.host with ⟨_ | reference, state⟩
  · rfl
  · rfl

theorem InterfaceNode.implementorName_apply (n : InterfaceNode) (w : Workspace σ) :
    (n.implementorName b value w).1 =
      if w.isOpen b then
        (value.instance?.bind ((w.registries b).implementorFor n.cls)).bind fun c ↦
          ((compileObject b c).runIn w).1.toOption.map ObjectNode.name
      else none := by
  show ((if w.isOpen b = true then _ else _ : Action σ (Option String)) w).1 = _
  split
  · cases value.instance?.bind ((w.registries b).implementorFor n.cls) with
    | none => rfl
    | some c => rfl
  · rfl

/-! ### A closed session -/

theorem customConcrete_of_closed (hb : w.isOpen b = false) (id : DiscriminatorId) :
    (customConcrete host b id value context info w).1 = none := by
  rw [customConcrete_apply]
  refine Option.bind_eq_none_iff.2 fun reference _ ↦ ?_
  rw [customName_apply]
  exact if_neg (Bool.eq_false_iff.1 hb)

/-- A node whose session is closed finds what it has with it, and nothing else. -/
theorem GraphNode.concreteIn_of_closed {n : GraphNode} (hb : n.id.session? = some b)
    (hclosed : w.isOpen b = false) (w' : Workspace σ) :
    n.concreteIn host value context info w =
      if n.hasMembers then n.concreteIn host value context info w' else none := by
  cases n with
  | scalar n | enum n | input n | object n => rfl
  | union n =>
    rw [concreteIn, concreteIn, concrete, UnionNode.concrete]
    cases hcustom : n.custom with
    | none =>
      rw [hasMembers, hcustom]
      rfl
    | some id =>
      rw [show n.id.session? = some b from hb, hasMembers, hcustom]
      exact customConcrete_of_closed hclosed id
  | interface n =>
    rw [concreteIn, concrete, InterfaceNode.concrete]
    cases hcustom : n.custom with
    | none =>
      rw [show n.id.session? = some b from hb]
      exact (n.implementorName_apply w).trans (if_neg (Bool.eq_false_iff.1 hclosed))
    | some id =>
      rw [show n.id.session? = some b from hb]
      exact customConcrete_of_closed hclosed id

/-! ### Another session -/

theorem customConcrete_of_ne (h : s ≠ b) (id : DiscriminatorId) (f : Session → Session) :
    (customConcrete host b id value context info (w.modifySession s f)).1 =
      (customConcrete host b id value context info w).1 := by
  have hname : ∀ (reference : TypeRef) (w : Workspace σ),
      (customName host b reference (w.modifySession s f)).1 =
        (customName host b reference w).1 := by
    intro reference w
    rw [customName_apply, customName_apply, w.isOpen_modifySession_of_ne f h,
      resolveType_ignores h host reference _ f w]
  rw [customConcrete_apply, customConcrete_apply]
  exact congrArg _ (funext fun reference ↦
    hname reference { w with host := (host.discriminate id value context info w.host).2 })

theorem InterfaceNode.implementorName_of_ne (h : s ≠ b) (n : InterfaceNode)
    (f : Session → Session) :
    (n.implementorName b value (w.modifySession s f)).1 = (n.implementorName b value w).1 := by
  rw [implementorName_apply, implementorName_apply, w.isOpen_modifySession_of_ne f h,
    w.registries_modifySession_of_ne f h]
  simp only [compileObject_ignores h _ f w]

/-- A node knows nothing of the sessions that have not made it. -/
theorem GraphNode.concreteIn_of_ne {n : GraphNode} (hs : n.id.session? ≠ some s)
    (f : Session → Session) :
    n.concreteIn host value context info (w.modifySession s f) =
      n.concreteIn host value context info w := by
  cases n with
  | scalar n | enum n | input n | object n => rfl
  | union n =>
    rw [concreteIn, concreteIn, concrete, UnionNode.concrete]
    cases n.custom with
    | none => rfl
    | some id =>
      cases hid : n.id.session? with
      | none => rfl
      | some b =>
        have h : s ≠ b := fun h ↦ hs (h ▸ hid)
        exact customConcrete_of_ne h id f
  | interface n =>
    rw [concreteIn, concreteIn, concrete, InterfaceNode.concrete]
    cases hid : n.id.session? with
    | none => cases n.custom <;> rfl
    | some b =>
      have h : s ≠ b := fun h ↦ hs (h ▸ hid)
      cases n.custom with
      | none => exact n.implementorName_of_ne h f
      | some id => exact customConcrete_of_ne h id f

end Lookup

/-! ## After the session -/

open Workspace in
/-- **What outlives the session of a schema.**  Take a schema of any run and a union or an interface
among its types, at any later time `w₂`, and drop the session.  If the node was made by another
session, it finds the same name for every value as before.  If the session has made it itself, then
from then on it finds what it has with it, which is everything for a union that looks through its
members, and nothing otherwise: so the names that are not lost are those of such unions, and those
that have never been found. -/
theorem compileSchema_concreteIn {w w₁ w₂ : Workspace σ} (hw : w.Reachable d host) {s : SessionId}
    (hs : w.isOpen s = true) {roots : List ClassRef} {schema : Schema}
    (hschema : (compileSchema host s roots).runIn w = (.ok schema, w₁))
    (hsteps : Relation.ReflTransGen (Step d host) w₁ w₂) {n : GraphNode} (hn : n ∈ schema.types)
    (ha : n.isAbstract = true) (value : HostValue) (context : Option RequestContext)
    (info : ResolveInfo) :
    ∃ b, n.id.session? = some b ∧
      (b ≠ s → n.concreteIn host value context info (w₂.release s .session) =
        n.concreteIn host value context info w₂) ∧
      (b = s → ∀ w₃, Relation.ReflTransGen (Step d host) (w₂.release s .session) w₃ →
        n.concreteIn host value context info w₃ =
            (if n.hasMembers then n.concreteIn host value context info w₂ else none) ∧
          (n.concreteIn host value context info w₃ = n.concreteIn host value context info w₂ ↔
            n.hasMembers = true ∨ n.concreteIn host value context info w₂ = none)) := by
  have hw₁ : w₁.Reachable d host := by
    have hstep := hw.tail (.assembled hs roots)
    rwa [hschema] at hstep
  have hlater : w.Follows w₂ := by
    have hfollows : w.Follows ((compileSchema host s roots).runIn w).2 :=
      compileSchema_follows hw.sound hs roots
    rw [hschema] at hfollows
    exact hfollows.trans (follows_of_steps hsteps hw₁.sound).2
  obtain ⟨_, _, _, _, _, _, hheld⟩ := compileSchema_ok hw.sound hs hschema
  obtain ⟨b, hb⟩ := GraphNode.session_of_holds hw₁.sound.coherent (hheld n hn).1 ha
  refine ⟨b, hb, fun hne ↦ ?_, ?_⟩
  · exact GraphNode.concreteIn_of_ne (fun h ↦ hne (Option.some.inj (hb.symm.trans h))) _
  · rintro rfl w₃ hsteps'
    have hw₂ : w₂.Reachable d host := hw₁.steps hsteps
    have hlt : b < w₂.sessions.length :=
      Nat.lt_of_lt_of_le (lt_length_of_isOpen hs) hlater.sessions
    have hdropped : (w₂.release b .session).isOpen b = false := hw₂.isOpen_release hlt
    have hclosed : w₃.isOpen b = false := by
      have hw₂' := (hw₂.tail (.released w₂ b .session)).sound
      refine (follows_of_steps hsteps' hw₂').2.closed b ?_ hdropped
      rwa [release, length_modifySession]
    have hname : n.concreteIn host value context info w₃ =
        if n.hasMembers then n.concreteIn host value context info w₂ else none :=
      GraphNode.concreteIn_of_closed hb hclosed w₂
    refine ⟨hname, ?_⟩
    rw [hname]
    cases n.hasMembers with
    | true => exact iff_of_true rfl (.inl rfl)
    | false => simp [eq_comm]

/-! ### An instance -/

namespace Named

/-- The root of the query type. -/
def root : ClassRef := .base ⟨1⟩ "Root"

/-- An interface. -/
def named : ClassRef := .base ⟨2⟩ "Named"

/-- An object type that claims the interface. -/
def person : ClassRef := .base ⟨3⟩ "Person"

/-- The three classes. -/
def declared : Declarations := .ofClasses [root, named, person] (by decide)

/-- A root field of the interface. -/
def someone : FieldSpec where
  property := "someone"
  type := some (.cls named)
  method := some ⟨0⟩

/-- A session in which the three classes and the root field are registered. -/
def workspace : Workspace Unit :=
  ((((Workspace.openSession { host := () } {}).2.modifyRegistries 0
    (·.schemaRoot root {})).modifyRegistries 0
    (·.interfaceType named {})).modifyRegistries 0
    (·.objectType person { implements := [named] })).modifyRegistries 0
    (Registries.rootField root someone .query).apply

/-- A person. -/
def ada : HostValue := .instanceOf person [] []

section Setup

variable {d : Declarations} {host : Host Unit} (hnamed : d.classes named)
  (hperson : d.classes person)
include hnamed

theorem someone_within (offered : GraphNode → Prop) : someone.Within d offered := by
  refine ⟨fun t ht ↦ ?_, nofun, nofun⟩
  cases ht
  exact .cls hnamed

include hperson

theorem objectType_change (offered : GraphNode → Prop) :
    Registries.Change d offered (·.objectType person { implements := [named] }) := by
  refine .objectType hperson fun c hc ↦ ?_
  cases List.mem_singleton.1 hc
  exact hnamed

/-- The session can be set up wherever there are these classes. -/
theorem reachable_of : workspace.Reachable d host := by
  have hroot : Workspace.Reachable d host _ :=
    (Workspace.Reachable.opened () {}).registered (s := 0) rfl (.schemaRoot root {})
  have hinterface := hroot.registered (s := 0) rfl (.interfaceType named {})
  have hobject := hinterface.registered (s := 0) rfl (objectType_change hnamed hperson _)
  exact hobject.registered (s := 0) rfl (.rootField root .query (someone_within hnamed _))

end Setup

theorem named_declared : declared.classes named := List.mem_cons_of_mem _ List.mem_cons_self

theorem person_declared : declared.classes person :=
  List.mem_cons_of_mem _ (List.mem_cons_of_mem _ List.mem_cons_self)

theorem reachable : workspace.Reachable declared .idle :=
  reachable_of named_declared person_declared

end Named

open Named in
/-- A person is found behind an interface of a schema, but not once the session is dropped. -/
theorem compileSchema_concreteIn_named :
    workspace.Reachable declared .idle ∧ workspace.isOpen 0 = true ∧
      ∃ schema w₁, (compileSchema .idle 0 [root]).runIn workspace = (.ok schema, w₁) ∧
        ∃ n ∈ schema.types, n.isAbstract = true ∧
          n.concreteIn .idle ada none {} w₁ = some "Person" ∧
          n.concreteIn .idle ada none {} (w₁.release 0 .session) = none := by
  -- the only node that is not concrete, with the session that made it and the name it finds
  have hfound : (match (compileSchema .idle 0 [root]).runIn workspace with
      | (.ok schema, w₁) => (schema.types.filter GraphNode.isAbstract).map fun n ↦
          (n.id.session?, n.hasMembers, n.concreteIn .idle ada none {} w₁)
      | (.error _, _) => []) = [(some 0, false, some "Person")] := by cbv
  refine ⟨reachable, rfl, ?_⟩
  rcases hrun : (compileSchema .idle 0 [root]).runIn workspace with ⟨e | schema, w₁⟩ <;>
    rw [hrun] at hfound
  · cases hfound
  obtain ⟨n, hn, heq⟩ := List.map_eq_singleton_iff.1 hfound
  have hmem : n ∈ schema.types.filter GraphNode.isAbstract := hn ▸ List.mem_singleton_self n
  obtain ⟨hn, ha⟩ := List.mem_filter.1 hmem
  obtain ⟨b, hb, -, hlast⟩ := compileSchema_concreteIn reachable (s := 0) rfl hrun .refl hn ha ada
    none {}
  have hid : n.id.session? = some 0 := congrArg Prod.fst heq
  have hmembers : n.hasMembers = false := congrArg (fun x ↦ x.2.1) heq
  have hname := (hlast (Option.some.inj (hb.symm.trans hid)) _ .refl).1
  rw [hmembers] at hname
  exact ⟨schema, w₁, rfl, n, hn, ha, congrArg (fun x ↦ x.2.2) heq, hname⟩

end ApiGraph
