import ApiGraph.Proofs.Discrimination
import ApiGraph.Proofs.Lineage
import ApiGraph.Proofs.Session.Steadfast

/-!
# Which names are found for a value

The possible types of a union are its members, those of an interface the object types of the schema
that attach it.  A union that looks through its members finds nothing else.  An interface finds the
implementor to which a value belongs, which is a possible type if it was listed when the schema was
compiled and has kept to its interfaces; but for a value of no implementor it finds the class of the
value itself, and a discriminator of the program may name anything.

## What is here

* `Schema.Possible`: the possible types of a node, with `not_possible_stranger` for values whose
  name is none of them.
* `Schema.Names`: the ways in which a name is found.
* `compileSchema_names`: there is no other.
-/

set_option autoImplicit false

namespace ApiGraph

open Workspace (Reachable Step)

variable {σ : Type} {d : Declarations} {host : Host σ} {w w₁ v : Workspace σ} {s b : SessionId}
  {roots : List ClassRef} {schema : Schema}

/-- The names of the possible types of a union or an interface of a schema. -/
def Schema.Possible (schema : Schema) (name : String) : GraphNode → Prop
  | .union n => name ∈ n.members.map ObjectNode.name
  | .interface n => ∃ m, .object m ∈ schema.types ∧ m.name = name ∧ n ∈ m.interfaces
  | _ => False

/-- The discriminator of the program for a union or an interface. -/
def GraphNode.custom? : GraphNode → Option DiscriminatorId
  | .union n => n.custom
  | .interface n => n.custom
  | _ => none

/-- The ways in which a union or an interface that a session `b` has made finds a name for a value
in a workspace `v`.  It is a type of a schema that was compiled in a workspace `w`. -/
inductive Schema.Names (d : Declarations) (host : Host σ) (w v : Workspace σ) (b : SessionId)
    (schema : Schema) (value : HostValue) (context : Option RequestContext) (info : ResolveInfo) :
    GraphNode → String → Prop
  /-- The value belongs to a member. -/
  | member {n : UnionNode} {m : ObjectNode} {i : Instance} {c : ClassRef} (hn : n.custom = none)
    (hm : m ∈ n.members) (htypes : .object m ∈ schema.types) (hi : value.instance? = some i)
    (hc : m.cls = some c) (ha : i.isA c.key = true) :
    Names d host w v b schema value context info (.union n) m.name
  /-- The value belongs to an implementor, and to none that is listed before it. -/
  | implementor {n : InterfaceNode} {m : ObjectNode} {i : Instance} {c : ClassRef}
    (hn : n.custom = none) (hi : value.instance? = some i)
    (hc : ((v.registries b).implementorsOf n.cls).find? (fun c ↦ i.isA c.key) = some c)
    (hm : ((compileObject b c).runIn v).1 = .ok m)
    (htypes : c.key ∈ (w.registries b).implementorKeys n.cls → .object m ∈ schema.types)
    (hattached : v.Steadfast d host b c.key → n ∈ m.interfaces) :
    Names d host w v b schema value context info (.interface n) m.name
  /-- The value belongs to no implementor. -/
  | ownClass {n : InterfaceNode} {m : ObjectNode} {i : Instance} (hn : n.custom = none)
    (hi : value.instance? = some i)
    (hnone : ∀ c ∈ (v.registries b).implementorsOf n.cls, i.isA c.key = false)
    (hclaims : ¬ (v.registries b).Claims i.cls.key n.cls.key)
    (hm : ((compileObject b i.cls).runIn v).1 = .ok m) :
    Names d host w v b schema value context info (.interface n) m.name
  /-- The program says by a reference what the value is. -/
  | custom {n : GraphNode} {id : DiscriminatorId} {reference : TypeRef} {t : GraphType}
    (hn : n.custom? = some id)
    (hreference : (host.discriminate id value context info v.host).1 = some reference)
    (ht : ((resolveType host b reference { nullable := true }).runIn
      { v with host := (host.discriminate id value context info v.host).2 }).1 = .ok t) :
    Names d host w v b schema value context info n t.node.name

/-- A value of an interface belongs to an implementor, and those to which it belongs were listed
when the schema was compiled and have kept to their interfaces. -/
def GraphNode.Settled (d : Declarations) (host : Host σ) (w v : Workspace σ) (b : SessionId)
    (value : HostValue) : GraphNode → Prop
  | .interface n => ∀ i, value.instance? = some i →
    (∃ c ∈ (v.registries b).implementorsOf n.cls, i.isA c.key = true) ∧
      ∀ c ∈ (v.registries b).implementorsOf n.cls, i.isA c.key = true →
        c.key ∈ (w.registries b).implementorKeys n.cls ∧ v.Steadfast d host b c.key
  | _ => True

/-! ## Interfaces -/

/-- An interface that an object type attaches by its identity is among its interfaces. -/
theorem mem_interfaces_of_attaches (host : Host σ) (hv : v.Coherent d) {c : ClassRef}
    (hc : d.classes c) {m : ObjectNode} (hm : ((compileObject b c).runIn v).1 = .ok m)
    (hb : b < v.sessions.length) {n : InterfaceNode} (hn : v.Holds d (.interface n)) {key : TypeKey}
    (hid : n.id = .compiled b .interface key) (h : m.Attaches b key) : n ∈ m.interfaces := by
  obtain ⟨x, hx, hxid⟩ := h
  have hself : v.Filled d host v := .refl hv
  have hsettles : Compile.Settles d host v [] (compileObject b c) _ :=
    compileObject_settles hv hb hc
  have hfilled := hsettles.filled hself
  have hobject := hsettles.offers hself (List.forall_mem_nil _) hm (.object m)
    (List.mem_singleton_self _)
  have hx' := (hfilled.coherent.offers_parts hobject.1 _ (List.mem_map_of_mem hx)).1
  have hn' := hn.transfer hfilled.grows.retains
  have heq := hfilled.coherent.eq_of_id_eq hx' hn' (hxid.trans hid.symm)
  cases heq
  exact hx

/-- What was listed as an implementor when a schema was compiled is a type of the schema. -/
theorem implementor_mem_types (hw : w.Reachable d host) (hs : w.isOpen s = true)
    (hschema : (compileSchema host s roots).runIn w = (.ok schema, w₁))
    (hfollows : w₁.Follows v) {n : InterfaceNode} (hn : .interface n ∈ schema.types) {key : TypeKey}
    (hid : n.id = .compiled b .interface key) {c : ClassRef}
    (hlisted : c.key ∈ (w.registries b).implementorKeys n.cls) {m : ObjectNode}
    (hm : ((compileObject b c).runIn v).1 = .ok m) : .object m ∈ schema.types := by
  obtain ⟨_, _, _, _, _, _, hheld⟩ := compileSchema_ok hw.sound hs hschema
  have hreached := (Schema.Complete.of_ok hw.sound hs hschema).reached
  obtain ⟨-, objects, himplemented⟩ := (hheld _ hn).2.1
  have hgiven := InterfaceNode.runIn_implementations_of_implemented himplemented
  obtain ⟨b', role, key', hid', -, hobjects⟩ := himplemented
  cases hid.symm.trans hid'
  have hregistries : w₁.registries b = w.registries b := by
    have h : ((compileSchema host s roots).runIn w).2.registries b = w.registries b :=
      Workspace.registries_compileSchema hw.sound hs roots b
    rwa [hschema] at h
  rw [hregistries] at hobjects
  obtain ⟨c', hc', hkey⟩ := List.mem_map.1 hlisted
  obtain ⟨m', hm', hentry⟩ := exists_right_of_forall₂ hobjects hc'
  -- the object type has been there since
  have hlater := hfollows.node rfl hentry
  rw [hkey] at hlater
  rw [compileObject, Compile.runIn_remember_of_entry hlater] at hm
  cases hm
  exact (hreached _).2 (((hreached _).1 hn).tail (.implementor (congrArg Prod.fst hgiven) hm'))

/-- A class whose instances belong to no listed implementor does not claim the interface. -/
theorem not_claims_of_forall_isA (hv : v.Reachable d host) {interface : ClassRef} {i : Instance}
    (h : ∀ c ∈ (v.registries b).implementorsOf interface, i.isA c.key = false) :
    ¬ (v.registries b).Claims i.cls.key interface.key := by
  intro hclaims
  obtain ⟨past, hpast⟩ := hv.recorded b
  have hlisted := hpast.indexed.mem_implementorKeys_iff (i := interface).2
    (hpast.indexed.exists_call hclaims)
  obtain ⟨c, hc, hkey⟩ := List.mem_map.1 hlisted
  have hself : i.isA c.key = true := hkey ▸ i.cls.isA_key
  exact Bool.false_ne_true ((h c hc).symm.trans hself)

/-! ## Names -/

theorem eq_ok_of_toOption {ε α : Type} {r : Except ε α} {a : α} (h : r.toOption = some a) :
    r = .ok a := by
  cases r with
  | error e => cases h
  | ok x => exact congrArg _ (Option.some.inj h)

namespace Schema.Names

variable {value : HostValue} {context : Option RequestContext} {info : ResolveInfo} {name : String}

/-- A name that the program gives is that of the node to which its reference resolves. -/
theorem of_customConcrete {n : GraphNode} {id : DiscriminatorId} (hn : n.custom? = some id)
    (h : (customConcrete host b id value context info v).1 = some name) :
    Schema.Names d host w v b schema value context info n name := by
  rw [customConcrete_apply] at h
  obtain ⟨reference, hreference, h⟩ := Option.bind_eq_some_iff.1 h
  rw [customName_apply] at h
  split at h
  · obtain ⟨t, ht, rfl⟩ := Option.map_eq_some_iff.1 h
    exact .custom hn hreference (eq_ok_of_toOption ht)
  · cases h

theorem of_memberOf {n : UnionNode} (hn : n.custom = none)
    (htypes : ∀ m ∈ n.members, .object m ∈ schema.types) (h : n.memberOf? value = some name) :
    Schema.Names d host w v b schema value context info (.union n) name := by
  obtain ⟨i, hi, h⟩ := Option.bind_eq_some_iff.1 h
  obtain ⟨m, hfind, rfl⟩ := Option.map_eq_some_iff.1 h
  have hm := List.mem_of_find?_eq_some hfind
  have hany := List.find?_some hfind
  cases hc : m.cls with
  | none =>
    rw [hc] at hany
    cases hany
  | some c =>
    rw [hc] at hany
    exact .member hn hm (htypes m hm) hi hc hany

/-- An interface finds the object type of the first implementor that fits, or of the value's own
class. -/
theorem of_implementorName (hv : v.Reachable d host) {n : InterfaceNode}
    (hid : n.id = .compiled b .interface n.cls.key) (hholds : v.Holds d (.interface n))
    (hcustom : n.custom = none)
    (htypes : ∀ {c m}, ((compileObject b c).runIn v).1 = .ok m →
      c.key ∈ (w.registries b).implementorKeys n.cls → .object m ∈ schema.types)
    (h : (n.implementorName b value v).1 = some name) :
    Schema.Names d host w v b schema value context info (.interface n) name := by
  have hc := hv.sound.coherent
  rw [InterfaceNode.implementorName_apply] at h
  split at h
  swap
  · cases h
  rename_i hopen
  have hlength := Workspace.lt_length_of_isOpen hopen
  obtain ⟨c, hfound, h⟩ := Option.bind_eq_some_iff.1 h
  obtain ⟨i, hi, hfound⟩ := Option.bind_eq_some_iff.1 hfound
  obtain ⟨m, hm, rfl⟩ := Option.map_eq_some_iff.1 h
  replace hm := eq_ok_of_toOption hm
  rw [Registries.implementorFor] at hfound
  cases hfind : ((v.registries b).implementorsOf n.cls).find? (fun c ↦ i.isA c.key) with
  | some c' =>
    rw [hfind] at hfound
    cases hfound
    have hlisted := List.mem_of_find?_eq_some hfind
    refine .implementor hcustom hi hfind hm (htypes hm) fun hsteadfast ↦ ?_
    have hattached := hsteadfast.attached
    have hclaims := hattached.listed n.cls (List.mem_map_of_mem hlisted)
    exact mem_interfaces_of_attaches host hc ((hc.registries b).of_implementorsOf hlisted) hm
      hlength hholds hid ((hattached.attaches_iff host hc hlength rfl hm _).2 hclaims)
  | none =>
    rw [hfind] at hfound
    dsimp only at hfound
    split at hfound
    · cases hfound
      have hnone : ∀ c ∈ (v.registries b).implementorsOf n.cls, i.isA c.key = false := by
        simpa using hfind
      exact .ownClass hcustom hi hnone (not_claims_of_forall_isA hv hnone) hm
    · cases hfound

/-- For a settled value the name is that of a possible type, unless the program says it. -/
theorem possible {n : GraphNode} (h : Schema.Names d host w v b schema value context info n name)
    (hcustom : n.custom? = none) (hsettled : n.Settled d host w v b value) :
    schema.Possible name n := by
  cases h with
  | member _ hm => exact List.mem_map_of_mem hm
  | @implementor n m i c _ hi hc _ htypes hattached =>
    have hfits : i.isA c.key = true := by simpa using List.find?_some hc
    obtain ⟨hlisted, hsteadfast⟩ := (hsettled i hi).2 c (List.mem_of_find?_eq_some hc) hfits
    exact ⟨m, htypes hlisted, rfl, hattached hsteadfast⟩
  | ownClass _ hi hnone =>
    obtain ⟨⟨c, hc, hfits⟩, -⟩ := hsettled _ hi
    exact absurd ((hnone c hc).symm.trans hfits) Bool.false_ne_true
  | custom hn =>
    rw [hcustom] at hn
    cases hn

end Schema.Names

/-- **Where names come from.**  In every run, whenever a union or an interface of a compiled schema
finds a name for a value, in whatever context, it does so in one of the ways of `Schema.Names`.  A
union that looks through its members finds one of them, to whose class the value belongs.  An
interface that looks for an implementor finds the first listed one to which the value belongs: its
object type is a type of the schema if it was listed when the schema was compiled, and attaches the
interface if the class was never registered with other interfaces than at first.  If the value
belongs to no implementor, what is found is the object type of its own class, which does not claim
the interface.  And a discriminator of the program has the name of whatever its reference resolves
to.  So the name is that of a possible type if the program does not say it and the value, at an
interface, belongs to implementors that have been there and kept to their interfaces since. -/
theorem compileSchema_names (hw : w.Reachable d host) (hs : w.isOpen s = true)
    (hschema : (compileSchema host s roots).runIn w = (.ok schema, w₁))
    (hsteps : Relation.ReflTransGen (Step d host) w₁ v) {n : GraphNode} (hn : n ∈ schema.types)
    {value : HostValue} {context : Option RequestContext} {info : ResolveInfo} {name : String}
    (hname : n.concreteIn host value context info v = some name) :
    ∃ b, n.id.session? = some b ∧ Schema.Names d host w v b schema value context info n name ∧
      (n.custom? = none → n.Settled d host w v b value → schema.Possible name n) := by
  suffices h : ∃ b, n.id.session? = some b ∧
      Schema.Names d host w v b schema value context info n name by
    obtain ⟨b, hb, hnames⟩ := h
    exact ⟨b, hb, hnames, hnames.possible⟩
  have hw₁ : w₁.Reachable d host := by
    have hstep := hw.tail (.assembled hs roots)
    rwa [hschema] at hstep
  have hv := hw₁.steps hsteps
  have hfollows := (Workspace.follows_of_steps hsteps hw₁.sound).2
  obtain ⟨_, _, _, _, _, _, hheld⟩ := compileSchema_ok hw.sound hs hschema
  have hholds : v.Holds d n := (hheld n hn).1.of_follows hw₁.sound hfollows
  cases n with
  | scalar n | enum n | input n | object n => cases hname
  | union n =>
    obtain ⟨b, hb⟩ := GraphNode.session_of_holds hv.sound.coherent hholds rfl
    refine ⟨b, hb, ?_⟩
    rw [GraphNode.concreteIn, GraphNode.concrete, UnionNode.concrete] at hname
    cases hcustom : n.custom with
    | none =>
      rw [hcustom] at hname
      have hreached := (Schema.Complete.of_ok hw.sound hs hschema).reached
      exact .of_memberOf hcustom
        (fun m hm ↦ (hreached _).2 (((hreached _).1 hn).tail (.member hm))) hname
    | some id =>
      rw [hcustom, show n.id.session? = some b from hb] at hname
      exact .of_customConcrete hcustom hname
  | interface n =>
    obtain ⟨b, key, hentry⟩ := id hholds
    obtain ⟨hid, ⟨-, rfl⟩, -⟩ := hv.sound.coherent.entries hentry
    have hb : n.id.session? = some b := by rw [hid]; rfl
    refine ⟨b, hb, ?_⟩
    rw [GraphNode.concreteIn, GraphNode.concrete, InterfaceNode.concrete, hb] at hname
    cases hcustom : n.custom with
    | none =>
      rw [hcustom] at hname
      exact .of_implementorName hv hid hholds hcustom
        (fun hm hlisted ↦ implementor_mem_types hw hs hschema hfollows hn hid hlisted hm) hname
    | some id =>
      rw [hcustom] at hname
      exact .of_customConcrete hcustom hname

/-! ### Instances -/

namespace Named

/-- Nobody registers the person with other interfaces. -/
theorem steadfast : workspace.Steadfast declared .idle 0 person.key := by
  have hroot : Workspace.Steadfast declared .idle 0 person.key _ :=
    (Workspace.Steadfast.opened () {}).tail (.registered (s := 0) rfl (.schemaRoot root {}))
      (.of_objects rfl)
  have hinterface := hroot.tail (.registered (s := 0) rfl (.interfaceType named {}))
    (.of_objects rfl)
  have hperson := hinterface.tail (.registered (s := 0) rfl
    (objectType_change named_declared person_declared _))
    fun h ↦ absurd h (by decide)
  exact hperson.tail (.registered (s := 0) rfl (.rootField root .query
    (someone_within named_declared _)))
    (.of_objects rfl)

end Named

open Named in
/-- The name that an interface finds for a person is that of a possible type. -/
theorem compileSchema_names_named :
    workspace.Reachable declared .idle ∧ workspace.isOpen 0 = true ∧
      ∃ schema w₁, (compileSchema .idle 0 [root]).runIn workspace = (.ok schema, w₁) ∧
        ∃ n : InterfaceNode, .interface n ∈ schema.types ∧
          GraphNode.concreteIn .idle (.interface n) ada none {} w₁ = some "Person" ∧
          GraphNode.Settled declared .idle workspace w₁ 0 ada (.interface n) ∧
          schema.Possible "Person" (.interface n) := by
  -- the only interface, and the name that it finds
  have hfound : (match (compileSchema .idle 0 [root]).runIn workspace with
      | (.ok schema, w₁) => schema.types.filterMap fun
          | .interface n => some (n.id.session?, n.cls.key, n.custom.isNone,
              GraphNode.concreteIn .idle (.interface n) ada none {} w₁)
          | _ => none
      | (.error _, _) => []) = [(some 0, named.key, true, some "Person")] := by cbv
  refine ⟨reachable, rfl, ?_⟩
  rcases hrun : (compileSchema .idle 0 [root]).runIn workspace with ⟨e | schema, w₁⟩ <;>
    rw [hrun] at hfound
  · cases hfound
  have hmem := hfound.symm ▸ List.mem_singleton_self _
  obtain ⟨n, hn, heq⟩ := List.mem_filterMap.1 hmem
  cases n with
  | scalar n | enum n | input n | object n | union n => cases heq
  | interface n =>
    simp only [Option.some.injEq, Prod.mk.injEq] at heq
    obtain ⟨hid, hcls, hcustom, hname⟩ := heq
    have hregistries : w₁.registries 0 = workspace.registries 0 := by
      have h : ((compileSchema .idle 0 [root]).runIn workspace).2.registries 0 = _ :=
        Workspace.registries_compileSchema reachable.sound rfl [root] 0
      rwa [hrun] at h
    have hsteadfast : w₁.Steadfast declared .idle 0 person.key := by
      have hstep : Workspace.Step declared .idle workspace
          ((compileSchema .idle 0 [root]).runIn workspace).2 := .assembled (s := 0) rfl [root]
      rw [hrun] at hstep
      exact steadfast.tail hstep (.of_objects (congrArg Registries.objects hregistries))
    have hlisted : (workspace.registries 0).implementorsOf n.cls = [person] := by
      rw [Registries.implementorsOf, hcls]
      rfl
    have hsettled : GraphNode.Settled declared .idle workspace w₁ 0 ada (.interface n) := by
      rintro i ⟨⟩
      rw [hregistries, hlisted, Registries.implementorKeys, hlisted]
      refine ⟨⟨person, List.mem_singleton_self person, by decide⟩, fun c hc _ ↦ ?_⟩
      cases List.mem_singleton.1 hc
      exact ⟨List.mem_cons_self, hsteadfast⟩
    obtain ⟨b, hb, -, hpossible⟩ :=
      compileSchema_names reachable (s := 0) rfl hrun .refl hn hname
    cases hid.symm.trans hb
    exact ⟨schema, w₁, rfl, n, hn, hname, hsettled,
      hpossible (Option.isNone_iff_eq_none.1 hcustom) hsettled⟩

namespace Stranger

/-- An object type that claims nothing. -/
def stranger : ClassRef := .base ⟨4⟩ "Stranger"

/-- A root, an interface, an object type that claims it and one that does not. -/
def declared : Declarations :=
  .ofClasses [Named.root, Named.named, Named.person, stranger] (by decide)

/-- The session of an interface, in which the stranger is registered too. -/
def workspace : Workspace Unit := Named.workspace.modifyRegistries 0 (·.objectType stranger {})

/-- The same session, with a discriminator for the interface. -/
def guided : Workspace Unit :=
  workspace.modifyRegistries 0 (·.interfaceType Named.named { discriminator := some ⟨0⟩ })

/-- A program that takes everything for a stranger. -/
def suspicious : Host Unit :=
  { Host.idle with discriminate := fun _ _ _ _ ↦ pure (some (.cls stranger)) }

/-- The stranger claims the interface after all. -/
def claimLate (w : Workspace Unit) : Workspace Unit :=
  w.modifyRegistries 0 (·.objectType stranger { implements := [Named.named] })

/-- A stranger. -/
def eve : HostValue := .instanceOf stranger [] []

/-- A schema is compiled, and later the interface among its types takes a value for a stranger,
which is none of its possible types. -/
def Mistakes (host : Host Unit) (w : Workspace Unit) (later : Workspace Unit → Workspace Unit)
    (value : HostValue) : Prop :=
  w.Reachable declared host ∧ w.isOpen 0 = true ∧
    ∃ schema w₁, (compileSchema host 0 [Named.root]).runIn w = (.ok schema, w₁) ∧
      Relation.ReflTransGen (Step declared host) w₁ (later w₁) ∧
      ∃ n : InterfaceNode, .interface n ∈ schema.types ∧
        GraphNode.concreteIn host (.interface n) value none {} (later w₁) = some "Stranger" ∧
        ¬ schema.Possible "Stranger" (.interface n)

/-- What is computed of a mistake: the names of the types, and the name that the interface finds. -/
theorem mistakes_of_found {host : Host Unit} {w : Workspace Unit}
    {later : Workspace Unit → Workspace Unit} {value : HostValue}
    (hw : w.Reachable declared host) (hopen : w.isOpen 0 = true)
    (hlater : ∀ w₁ : Workspace Unit, w₁.isOpen 0 = true →
      Relation.ReflTransGen (Step declared host) w₁ (later w₁))
    (hfound : (match (compileSchema host 0 [Named.root]).runIn w with
      | (.ok schema, w₁) => (w₁.isOpen 0, schema.types.map GraphNode.name,
          schema.types.filterMap fun
            | .interface n => some (GraphNode.concreteIn host (.interface n) value none {} (later w₁))
            | _ => none)
      | (.error _, _) => (false, [], [])) =
        (true, ["Query", "Named", "Person"], [some "Stranger"])) :
    Mistakes host w later value := by
  refine ⟨hw, hopen, ?_⟩
  rcases hrun : (compileSchema host 0 [Named.root]).runIn w with ⟨e | schema, w₁⟩ <;>
    rw [hrun] at hfound
  · cases hfound
  simp only [Prod.mk.injEq] at hfound
  obtain ⟨hopen₁, htypes, hfound⟩ := hfound
  have hmem := hfound.symm ▸ List.mem_singleton_self _
  obtain ⟨n, hn, heq⟩ := List.mem_filterMap.1 hmem
  cases n with
  | scalar n | enum n | input n | object n | union n => cases heq
  | interface n =>
    refine ⟨schema, w₁, rfl, hlater w₁ hopen₁, n, hn, Option.some.inj heq, ?_⟩
    rintro ⟨m, hm, hname, -⟩
    have hstranger : "Stranger" ∈ schema.types.map GraphNode.name :=
      List.mem_map.2 ⟨.object m, hm, hname⟩
    rw [htypes] at hstranger
    exact absurd hstranger (by decide)

section Setup

variable {host : Host Unit}

theorem named_declared : declared.classes Named.named := List.mem_cons_of_mem _ List.mem_cons_self

theorem stranger_declared : declared.classes stranger :=
  List.mem_cons_of_mem _ (List.mem_cons_of_mem _ (List.mem_cons_of_mem _ List.mem_cons_self))

theorem person_declared : declared.classes Named.person :=
  List.mem_cons_of_mem _ (List.mem_cons_of_mem _ List.mem_cons_self)

theorem reachable_named : Named.workspace.Reachable declared host :=
  Named.reachable_of named_declared person_declared

theorem reachable : workspace.Reachable declared host :=
  reachable_named.registered (s := 0) rfl (.objectType stranger_declared nofun)

theorem claimLate_steps (w : Workspace Unit) (h : w.isOpen 0 = true) :
    Relation.ReflTransGen (Step declared host) w (claimLate w) := by
  refine .single (.registered h (.objectType stranger_declared fun c hc ↦ ?_))
  cases List.mem_singleton.1 hc
  exact named_declared

end Setup

end Stranger

open Stranger in
/-- An interface finds the name of no possible type if the value belongs to no implementor, if it
belongs to one that has come later than the schema, and if the program says so. -/
theorem not_possible_stranger :
    Mistakes .idle workspace id eve ∧ Mistakes .idle Named.workspace claimLate eve ∧
      Mistakes suspicious guided id Named.ada := by
  refine ⟨?_, ?_, ?_⟩
  · exact mistakes_of_found reachable rfl (fun _ _ ↦ .refl) (by cbv)
  · exact mistakes_of_found reachable_named rfl claimLate_steps (by cbv)
  · exact mistakes_of_found (reachable.registered (s := 0) rfl (.interfaceType Named.named _)) rfl
      (fun _ _ ↦ .refl) (by cbv)

end ApiGraph
