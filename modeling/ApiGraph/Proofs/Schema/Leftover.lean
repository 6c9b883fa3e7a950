import ApiGraph.Proofs.Schema.Again
import ApiGraph.Proofs.Schema.Complete

/-!
# What a schema that fails leaves behind

A schema that cannot be compiled is given up, but not what was compiled on its behalf: the nodes and
the field maps stay in the tables, since a session compiles a declaration once.  When it was made,
each of them was what the session makes of its registrations.  More can be registered after that,
and a class can be registered again.  What is found in a table then is found as it was made, so a
correction reaches only what had not been compiled before the failure.

Nothing else is left.  So a later schema comes out as if the failed one had never been asked for, as
long as what was left is still right.

## What is here

* `Workspace.register`: registrations one after another, and `Workspace.Registers`: those that can
  be made.
* `Schema.renumber_self`: a schema under its own serial number.
* `compileSchema_leaves_nothing`: the failures that leave no entry.
* `compileSchema_after_failure`: all of it.
* `not_traceless_twins`: a correction that comes too late.
-/

set_option autoImplicit false

namespace ApiGraph

variable {σ : Type} {d : Declarations} {host : Host σ} {w v : Workspace σ} {s : SessionId}

/-! ## Registrations -/

namespace Workspace

/-- Registrations, each in a session, one after another. -/
def register (w : Workspace σ) (calls : List (SessionId × (Registries → Registries))) :
    Workspace σ :=
  calls.foldl (fun w call ↦ w.modifyRegistries call.1 call.2) w

/-- Registrations that can be made: in open sessions, of what is declared and offered. -/
def Registers (d : Declarations) (w : Workspace σ)
    (calls : List (SessionId × (Registries → Registries))) : Prop :=
  ∀ call ∈ calls, w.isOpen call.1 = true ∧ Registries.Change d (w.Offers d) call.2

theorem isOpen_modifyRegistries (w : Workspace σ) (s b : SessionId)
    (f : Registries → Registries) : (w.modifyRegistries s f).isOpen b = w.isOpen b := by
  rw [isOpen, isOpen, modifyRegistries, session_modifySession]
  split <;> rfl

theorem bare_modifyRegistries (w : Workspace σ) (s : SessionId) (f : Registries → Registries) :
    (w.modifyRegistries s f).bare = w.bare.modifyRegistries s f := by
  rw [bare, bare, modifyRegistries, modifyRegistries, modifySession, modifySession]
  congr 1
  refine List.ext_getElem? fun i ↦ ?_
  simp only [List.getElem?_map, List.getElem?_modify]
  cases w.sessions[i]? with
  | none => rfl
  | some x => by_cases hs : s = i <;> simp [hs]

/-- What has grown beside another workspace has still grown if both register the same. -/
theorem Grows.modifyRegistries (h : w.Grows v) (s : SessionId) (f : Registries → Registries) :
    (w.modifyRegistries s f).Grows (v.modifyRegistries s f) where
  bare := by rw [bare_modifyRegistries, bare_modifyRegistries, h.bare]
  kept hx :=
    (v.entry_modifyRegistries ..).trans (h.kept ((w.entry_modifyRegistries ..).symm.trans hx))

variable {calls : List (SessionId × (Registries → Registries))}

theorem entry_register (w : Workspace σ) (calls : List (SessionId × (Registries → Registries)))
    (b : SessionId) (t : CacheTable) (key : TypeKey) :
    (w.register calls).entry b t key = w.entry b t key := by
  induction calls generalizing w with
  | nil => rfl
  | cons call rest ih => exact (ih _).trans (w.entry_modifyRegistries ..)

theorem isOpen_register (w : Workspace σ) (calls : List (SessionId × (Registries → Registries)))
    (b : SessionId) : (w.register calls).isOpen b = w.isOpen b := by
  induction calls generalizing w with
  | nil => rfl
  | cons call rest ih => exact (ih _).trans (w.isOpen_modifyRegistries ..)

theorem Grows.register (h : w.Grows v) (calls : List (SessionId × (Registries → Registries))) :
    (w.register calls).Grows (v.register calls) := by
  induction calls generalizing w v with
  | nil => exact h
  | cons call rest ih => exact ih (h.modifyRegistries _ _)

/-- Registrations that can be made can be made one after another. -/
theorem Registers.sound (hw : w.Sound d) (h : w.Registers d calls) :
    (w.register calls).Sound d := by
  induction calls generalizing w with
  | nil => exact hw
  | cons call rest ih =>
    obtain ⟨-, hf⟩ := h call List.mem_cons_self
    refine ih (hw.registered call.1 hf) fun other hother ↦ ?_
    obtain ⟨hopen, hchange⟩ := h other (List.mem_cons_of_mem _ hother)
    exact ⟨(w.isOpen_modifyRegistries ..).trans hopen,
      hchange.imp fun _ ↦ .registered hw.coherent _ _⟩

theorem Registers.of_grows (h : w.Registers d calls) (hg : w.Grows v) : v.Registers d calls := by
  intro call hcall
  obtain ⟨hopen, hchange⟩ := h call hcall
  exact ⟨(hg.isOpen _).trans hopen, hchange.imp fun _ ↦ .mono hg⟩

/-- In an aged workspace the tables have what the first one would give. -/
theorem Aged.answered (h : w.Aged d host v) {b : SessionId} {t : CacheTable} {key : TypeKey}
    {x : t.Value} (hx : v.entry b t key = some x) : w.Answers d host b t key x := by
  obtain ⟨u, hu, hcache⟩ := h.tables
  rw [entry, hcache] at hx
  exact hu.answered hx

/-- A workspace that has grown, and whose new entries are what the first one would give. -/
theorem Filled.of_new (hw : w.Coherent d) (hv : v.Coherent d) (hg : w.Grows v)
    (hnew : ∀ b t key x, v.entry b t key = some x → w.entry b t key = none →
      w.Answers d host b t key x) : w.Filled d host v := by
  refine ⟨hg, hv, fun {b t key x} hx ↦ ?_⟩
  cases hentry : w.entry b t key with
  | none => exact hnew b t key x hx hentry
  | some y =>
    cases (hg.kept hentry).symm.trans hx
    exact (Filled.refl hw).answered hentry

theorem Filled.aged (h : w.Filled d host v) : w.Aged d host v :=
  ⟨(Kin.refl w).of_bare h.grows.bare, v, h, fun _ ↦ rfl⟩

end Workspace

/-! ## A schema under its own serial number -/

theorem ObjectNode.renumber_self (k : Nat) (n : ObjectNode) : n.renumber k k = n := by
  have hid : n.id.renumber k k = n.id := by
    cases h : n.id with
    | native | custom | compiled => rfl
    | root serial operation =>
      rw [NodeId.renumber]
      split
      · rw [‹serial = k›]
      · rfl
  rw [renumber, hid]

theorem GraphNode.renumber_self (k : Nat) (n : GraphNode) : n.renumber k k = n := by
  cases n with
  | object n => exact congrArg GraphNode.object (n.renumber_self k)
  | scalar | input | enum | union | interface => rfl

theorem Schema.renumber_self (schema : Schema) : schema.renumber schema.serial = schema := by
  simp [Schema.renumber, ObjectNode.renumber_self, GraphNode.renumber_self]

/-! ## After a failure -/

/-- A call that fails for its roots leaves no entry: it has not come to compile anything. -/
theorem compileSchema_leaves_nothing (hw : w.Sound d) (hs : w.isOpen s = true)
    {roots : List ClassRef} {fault : AssemblyError}
    (h : (compileSchema host s roots).runIn w = (.error (.assembly fault), v))
    (hfault : ∀ name, fault ≠ .duplicateTypeName name) : ∃ state, v = { w with host := state } := by
  obtain ⟨⟨state, hstate⟩, hfields⟩ : (∃ state,
      ((gatherRoots host s roots).runIn w).2 = { w with host := state }) ∧
      ∀ fields, ((gatherRoots host s roots).runIn w).1 = .ok fields →
        fields.Within d (w.Offers d) := gatherRoots_spec hw.coherent s roots
  rcases hroots : (compileRoots host s roots).runIn w with ⟨e | made, w₁⟩
  · rw [runIn_compileSchema_of_error hroots] at h
    cases h
    rw [compileRoots] at hroots
    rcases hgather : (gatherRoots host s roots).runIn w with ⟨e | fields, w₂⟩ <;>
      rw [hgather] at hstate hfields <;> cases hstate
    · rw [Compile.runIn_bind_of_error hgather] at hroots
      cases hroots
      exact ⟨state, rfl⟩
    · rw [Compile.runIn_bind_of_ok hgather] at hroots
      split at hroots
      · cases hroots
        exact ⟨state, rfl⟩
      · -- the root fields themselves never fail as the assembly does
        have hfilled : w.Filled d host { w with host := state } := .ofHost hw.coherent state
        have herr := (makeRoots_spec hw hfilled (Workspace.lt_length_of_isOpen hs)
          (hfields fields rfl)).2 _ _ hroots
        exact absurd rfl (herr.2 fault)
  · cases compileSchema_error hw hs hroots (congrArg Prod.fst h) with
    | clash => exact absurd rfl (hfault _)
    | successors _ _ hne => exact absurd rfl (hne fault)

/-- **What a schema that fails leaves behind.**  Take any workspace of a run, of a program whose
constructors always give the same instance, and a call in an open session that fails.  Nothing has
become of the workspace but that there may be more nodes and field maps in the tables, each what the
untouched workspace gives; and none at all if the call has failed for its roots.  Register anything
after that, as in the untouched workspace.  If what was left is still what the session makes of its
registrations, a schema comes to the same in both workspaces: to the same error, or to the same
types with the same fields, arguments and implementors. -/
theorem compileSchema_after_failure (hhost : host.Steady) (hw : w.Reachable d host)
    (hs : w.isOpen s = true) {roots : List ClassRef} {e : CompileError}
    (h : (compileSchema host s roots).runIn w = (.error e, v)) :
    w.Grows v ∧
    (∀ b t key x, v.entry b t key = some x → w.Answers d host b t key x) ∧
    (∀ fault, e = .assembly fault → (∀ name, fault ≠ .duplicateTypeName name) →
      ∀ b t key, v.entry b t key = w.entry b t key) ∧
    ∀ calls, w.Registers d calls →
      (∀ b t key x, v.entry b t key = some x → w.entry b t key = none →
        (w.register calls).Answers d host b t key x) →
      ∀ b, w.isOpen b = true → ∀ later,
        ((compileSchema host b later).runIn (v.register calls)).1 =
          ((compileSchema host b later).runIn (w.register calls)).1 ∧
        ∀ schema w₁ v₁, (compileSchema host b later).runIn (w.register calls) = (.ok schema, w₁) →
          (compileSchema host b later).runIn (v.register calls) = (.ok schema, v₁) →
            ∀ n ∈ schema.types, n.Agrees host w₁ v₁ n := by
  have hsound := hw.sound
  have hlt := Workspace.lt_length_of_isOpen hs
  obtain ⟨hv, hgrows⟩ : ((compileSchema host s roots).runIn w).2.Sound d ∧
      ∀ e, ((compileSchema host s roots).runIn w).1 = .error e →
        w.Grows ((compileSchema host s roots).runIn w).2 := compileSchema_spec hsound hlt roots
  have hgrows : w.Grows v := by
    have hgrows := hgrows e (congrArg Prod.fst h)
    rwa [h] at hgrows
  rw [h] at hv
  have haged : w.Aged d host v := by
    have hright :=
      (compileSchema_renumber hsound hhost hlt (.refl hsound.coherent) hsound roots).right
    rwa [h] at hright
  refine ⟨hgrows, fun b t key x ↦ haged.answered, fun fault he hfault b t key ↦ ?_,
    fun calls hcalls hleft b hb later ↦ ?_⟩
  · obtain ⟨state, rfl⟩ := compileSchema_leaves_nothing hsound hs (he ▸ h) hfault
    rfl
  have hsound' := hcalls.sound hsound
  have hv' := (hcalls.of_grows hgrows).sound hv
  have hfilled : (w.register calls).Filled d host (v.register calls) := by
    refine .of_new hsound'.coherent hv'.coherent (hgrows.register calls) fun b t key x hx hnone ↦ ?_
    rw [Workspace.entry_register] at hx hnone
    exact hleft b t key x hx hnone
  have hb' : (w.register calls).isOpen b = true := (w.isOpen_register calls b).trans hb
  have hlt' := Workspace.lt_length_of_isOpen hb'
  have hsame := compileSchema_renumber hsound' hhost hlt' hfilled.aged hv' later
  have hnext : (v.register calls).nextSchema = (w.register calls).nextSchema :=
    hfilled.grows.nextSchema
  have hself : ∀ schema, ((compileSchema host b later).runIn (w.register calls)).1 = .ok schema →
      schema.serial = (v.register calls).nextSchema := fun schema hok ↦
    (compileSchema_publishes hsound' hlt' (Prod.ext hok rfl)).2.1.trans hnext.symm
  refine ⟨?_, fun schema w₁ v₁ hok hok' n hn ↦ ?_⟩
  · rw [hsame.outcome]
    cases hok : ((compileSchema host b later).runIn (w.register calls)).1 with
    | error e => rfl
    | ok schema => rw [← hself schema hok, Except.map, schema.renumber_self]
  · have hagrees := hsame.good schema (congrArg Prod.fst hok) n hn
    rwa [hok, hok', ← hself schema (congrArg Prod.fst hok), GraphNode.renumber_self] at hagrees

/-! ### Two instances -/

namespace Twins

/-- The root of the query type. -/
def root : ClassRef := .base ⟨1⟩ "Root"

/-- A type. -/
def first : ClassRef := .base ⟨2⟩ "First"

/-- A type that may be given the name of the first one. -/
def second : ClassRef := .base ⟨3⟩ "Second"

/-- The three classes. -/
def declared : Declarations := .ofClasses [root, first, second] (by decide)

/-- A query for the first type. -/
def one : FieldSpec where
  property := "one"
  type := some (.cls first)
  method := some ⟨0⟩

/-- A query for the second type. -/
def two : FieldSpec where
  property := "two"
  type := some (.cls second)
  method := some ⟨1⟩

/-- The second type under a name of its own. -/
def other : SessionId × (Registries → Registries) :=
  (0, (·.objectType second { name := some "Other" }))

/-- A session in which the second type has been forgotten. -/
def forgotten : Workspace Unit :=
  ((((Workspace.openSession { host := () } {}).2.modifyRegistries 0
    (·.schemaRoot root {})).modifyRegistries 0
    (·.objectType first { name := some "Same" })).modifyRegistries 0
    (Registries.rootField root one .query).apply).modifyRegistries 0
    (Registries.rootField root two .query).apply

/-- A session in which both types have one name. -/
def twins : Workspace Unit :=
  forgotten.modifyRegistries 0 (·.objectType second { name := some "Same" })

theorem forgotten_reachable : forgotten.Reachable declared .idle := by
  have hone : ∀ offered, one.Within declared offered := by
    refine fun _ ↦ ⟨fun t ht ↦ ?_, nofun, nofun⟩
    cases ht
    exact .cls (List.mem_cons_of_mem _ List.mem_cons_self)
  have htwo : ∀ offered, two.Within declared offered := by
    refine fun _ ↦ ⟨fun t ht ↦ ?_, nofun, nofun⟩
    cases ht
    exact .cls (List.mem_cons_of_mem _ (List.mem_cons_of_mem _ List.mem_cons_self))
  have hfirst : ∀ offered,
      Registries.Change declared offered (·.objectType first { name := some "Same" }) :=
    fun _ ↦ .objectType (List.mem_cons_of_mem _ List.mem_cons_self) nofun
  have hroot : Workspace.Reachable declared .idle _ :=
    (Workspace.Reachable.opened () {}).registered (s := 0) rfl (.schemaRoot root {})
  exact ((hroot.registered (s := 0) rfl (hfirst _)).registered (s := 0) rfl
    (.rootField root .query (hone _))).registered (s := 0) rfl (.rootField root .query (htwo _))

theorem second_change (name : String) (offered : GraphNode → Prop) :
    Registries.Change declared offered (·.objectType second { name := some name }) :=
  .objectType (List.mem_cons_of_mem _ (List.mem_cons_of_mem _ List.mem_cons_self)) nofun

/-- The node of the first type. -/
def node : ObjectNode where
  id := .compiled 0 .object first.key
  name := "Same"
  description := none
  cls := some first
  interfaces := []
  mixins := []

end Twins

open Twins in
/-- Two types of one name are refused, and one of them is then registered under another name.  That
would be enough without the failure, and is too late after it: both nodes are there. -/
theorem not_traceless_twins :
    Host.Steady .idle ∧ twins.Reachable declared .idle ∧ twins.isOpen 0 = true ∧
      twins.Registers declared [other] ∧
      ∃ v, (compileSchema .idle 0 [root]).runIn twins =
          (.error (.assembly (.duplicateTypeName "Same")), v) ∧
        ((compileSchema .idle 0 [root]).runIn (v.register [other])).1 =
          .error (.assembly (.duplicateTypeName "Same")) ∧
        ((compileSchema .idle 0 [root]).runIn (twins.register [other])).1.toOption.map
            (fun schema ↦ schema.types.map GraphNode.name) = some ["Query", "Other", "Same"] := by
  have hreachable : twins.Reachable declared .idle :=
    forgotten_reachable.registered (s := 0) rfl (second_change "Same" _)
  have hregisters : twins.Registers declared [other] := by
    intro call hcall
    cases List.mem_singleton.1 hcall
    exact ⟨rfl, second_change "Other" _⟩
  exact ⟨fun _ ↦ ⟨_, fun _ ↦ rfl⟩, hreachable, rfl, hregisters, _, Prod.ext (by cbv) rfl, by cbv,
    by cbv⟩

open Twins in
/-- A type that was forgotten is registered after the failure, which has left the node of the other
type: the schema comes out as if it had been registered in time. -/
theorem compileSchema_after_failure_forgotten :
    Host.Steady .idle ∧ forgotten.Reachable declared .idle ∧ forgotten.isOpen 0 = true ∧
      forgotten.Registers declared [other] ∧
      ∃ e v, (compileSchema .idle 0 [root]).runIn forgotten = (.error e, v) ∧
        v.entry 0 .objects first.key = some node ∧
        ((compileSchema .idle 0 [root]).runIn (v.register [other])).1.toOption.map
            (fun schema ↦ schema.types.map GraphNode.name) = some ["Query", "Other", "Same"] := by
  have hregisters : forgotten.Registers declared [other] := by
    intro call hcall
    cases List.mem_singleton.1 hcall
    exact ⟨rfl, second_change "Other" _⟩
  have hleft : ((compileSchema .idle 0 [root]).runIn forgotten).2 =
      forgotten.keep 0 .objects first.key node := by cbv
  rcases hrun : (compileSchema .idle 0 [root]).runIn forgotten with ⟨e | schema, v⟩ <;>
    rw [hrun] at hleft
  · obtain rfl : v = forgotten.keep 0 .objects first.key node := hleft
    have hentry := forgotten.entry_keep_self (s := 0) (by decide) .objects first.key node
    obtain ⟨-, -, -, hsame⟩ :=
      compileSchema_after_failure (fun _ ↦ ⟨_, fun _ ↦ rfl⟩) forgotten_reachable rfl hrun
    have hstill : ∀ b t key x, (forgotten.keep 0 .objects first.key node).entry b t key = some x →
        forgotten.entry b t key = none →
          (forgotten.register [other]).Answers declared .idle b t key x := by
      intro b t key x hx hnone
      by_cases heq : 0 = b ∧ CacheTable.objects = t ∧ first.key = key
      · obtain ⟨rfl, rfl, rfl⟩ := heq
        cases hentry.symm.trans hx
        exact ⟨first, List.mem_cons_of_mem _ List.mem_cons_self, rfl, by cbv⟩
      · cases (forgotten.entry_keep_of_ne heq node ▸ hx).symm.trans hnone
    refine ⟨fun _ ↦ ⟨_, fun _ ↦ rfl⟩, forgotten_reachable, rfl, hregisters, e, _, rfl, hentry, ?_⟩
    rw [(hsame [other] hregisters hstill 0 rfl [root]).1]
    cbv
  · have herror : ((compileSchema .idle 0 [root]).runIn forgotten).1.toOption.isNone = true := by cbv
    rw [hrun] at herror
    cases herror

end ApiGraph
