import ApiGraph.Proofs.Session.Follows
import ApiGraph.Proofs.Session.Registration
import ApiGraph.Schema.Executable
import Mathlib.Logic.Relation

/-!
# The workspaces of a run

A program opens sessions, registers declarations, asks for nodes and fields, compiles schemas,
builds executables and drops what it no longer needs, in any order.  Its own code runs in between
and may change its state at will.

## What is here

* `Workspace.Request`: what can be asked of the compiler.
* `Workspace.Step`: one step of a run, and `Workspace.Reachable`: the workspaces of all runs.
* `Workspace.Step.sound` and `Workspace.Step.follows`: what a step preserves, and what it leads to.
* `Workspace.Stays`: what is left as it is by all steps but registrations, with `Stays.step`.
* `Workspace.Reachable.sound`: every workspace of a run is sound, and `Workspace.follows_of_steps`:
  nothing is taken back in a run.
-/

set_option autoImplicit false

namespace ApiGraph

open Compile (Settles)

variable {σ : Type} {d : Declarations} {host : Host σ}

namespace Workspace

/-! ## Steps -/

/-- What can be asked of the compiler. -/
inductive Request (d : Declarations) (host : Host σ) (w : Workspace σ) :
    {α : Type} → Compile σ α → Prop
  | object {s : SessionId} {c : ClassRef} (hs : w.isOpen s = true) (hc : d.classes c) :
    Request d host w (compileObject s c)
  | input {s : SessionId} {c : ClassRef} (hs : w.isOpen s = true) (hc : d.classes c) :
    Request d host w (compileInput s c)
  | enum {s : SessionId} {e : EnumDef} (hs : w.isOpen s = true) (he : d.enums e) :
    Request d host w (compileEnum s e)
  | union {s : SessionId} {c : ClassRef} (hs : w.isOpen s = true) (hc : d.classes c) :
    Request d host w (compileUnion s c)
  | interface {s : SessionId} {c : ClassRef} (hs : w.isOpen s = true) (hc : d.classes c) :
    Request d host w (compileInterface s c)
  | reference {s : SessionId} {t : TypeRef} (hs : w.isOpen s = true)
    (ht : t.Within d (w.Offers d)) (o : ResolveOptions) :
    Request d host w (resolveType host s t o)
  | objectFields {n : ObjectNode} (hn : w.Offers d (.object n)) :
    Request d host w (n.fields host)
  | interfaceFields {n : InterfaceNode} (hn : w.Offers d (.interface n)) :
    Request d host w (n.fields host)
  | inputFields {n : InputNode} (hn : w.Offers d (.input n)) :
    Request d host w (n.fields host)
  | implementations {n : InterfaceNode} (hn : w.Offers d (.interface n)) :
    Request d host w n.implementations

/-- One step of a run. -/
inductive Step (d : Declarations) (host : Host σ) : Workspace σ → Workspace σ → Prop
  /-- A session is opened. -/
  | opened (w : Workspace σ) (config : Config) : Step d host w (w.openSession config).2
  /-- Something is registered in a session. -/
  | registered {w : Workspace σ} {s : SessionId} {f : Registries → Registries}
    (hs : w.isOpen s = true) (hf : Registries.Change d (w.Offers d) f) :
    Step d host w (w.modifyRegistries s f)
  /-- The compiler is asked for something. -/
  | asked {w : Workspace σ} {α : Type} {x : Compile σ α} (hx : w.Request d host x) :
    Step d host w (x.runIn w).2
  /-- A schema is compiled, or cannot be. -/
  | assembled {w : Workspace σ} {s : SessionId} (hs : w.isOpen s = true) (roots : List ClassRef) :
    Step d host w ((compileSchema host s roots).runIn w).2
  /-- An executable is built of a schema that is still kept, or cannot be, whatever the engine says
  of it. -/
  | lowered {w : Workspace σ} {schema : Schema} (verdict : EngineVerdict)
    (hkept : .schema schema.serial ∈ (w.session schema.session).owners)
    (htypes : ∀ n ∈ schema.types, w.Offers d n) :
    Step d host w ((schema.executable verdict host).runIn w).2
  /-- A session, a schema or an executable is dropped. -/
  | released (w : Workspace σ) (s : SessionId) (owner : Owner) :
    Step d host w (w.release s owner)
  /-- The program runs code of its own. -/
  | moved (w : Workspace σ) (state : σ) : Step d host w { w with host := state }
  /-- A resolver is called. -/
  | called (w : Workspace σ) : Step d host w { w with nextCall := w.nextCall + 1 }

/-! ## What each step preserves -/

theorem Request.settles {w : Workspace σ} (hw : w.Coherent d) {α : Type} {x : Compile σ α}
    (hx : w.Request d host x) : ∃ nodes, Settles d host w [] x nodes := by
  have hself : w.Filled d host w := .refl hw
  cases hx with
  | object hs hc => exact ⟨_, compileObject_settles hw (lt_length_of_isOpen hs) hc⟩
  | input hs hc => exact ⟨_, compileInput_settles hw (lt_length_of_isOpen hs) hc⟩
  | enum hs he => exact ⟨_, compileEnum_settles hw (lt_length_of_isOpen hs) he⟩
  | union hs hc => exact ⟨_, compileUnion_settles hw (lt_length_of_isOpen hs) hc⟩
  | interface hs hc => exact ⟨_, compileInterface_settles hw (lt_length_of_isOpen hs) hc⟩
  | reference hs ht o => exact ⟨_, resolveType_settles hw (lt_length_of_isOpen hs) ht o⟩
  | objectFields hn => exact ⟨_, ObjectNode.fields_settles hw hself hn.1⟩
  | interfaceFields hn => exact ⟨_, InterfaceNode.fields_settles hw hself hn.1⟩
  | inputFields hn => exact ⟨_, InputNode.fields_settles hw hself hn.1⟩
  | implementations hn => exact ⟨_, InterfaceNode.implementations_settles hw hself hn.1⟩

theorem session_openSession (w : Workspace σ) (config : Config) (s : SessionId) :
    (w.openSession config).2.session s =
      if s = w.sessions.length then { config } else w.session s := by
  rw [session, session, openSession, List.getElem?_append]
  split
  · rename_i hs
    rw [if_neg (Nat.ne_of_lt hs)]
  · rename_i hs
    split
    · rename_i heq
      rw [heq, Nat.sub_self]
      rfl
    · rename_i hne
      rw [List.getElem?_eq_none (Nat.le_of_not_lt hs), List.getElem?_eq_none]
      exact Nat.sub_pos_of_lt (Nat.lt_of_le_of_ne (Nat.le_of_not_lt hs) (Ne.symm hne))

theorem session_length (w : Workspace σ) : w.session w.sessions.length = { owners := [] } := by
  rw [session, List.getElem?_eq_none (Nat.le_refl _), Option.getD_none]

/-- A session that has been opened has nothing registered. -/
theorem registries_openSession (w : Workspace σ) (config : Config) (s : SessionId) :
    (w.openSession config).2.registries s = w.registries s := by
  rw [registries, registries, session_openSession]
  split
  · rename_i hs
    rw [hs, session_length]
  · rfl

/-- A session that has been opened keeps nothing. -/
theorem entry_openSession (w : Workspace σ) (config : Config) (s : SessionId) (t : CacheTable)
    (key : TypeKey) : (w.openSession config).2.entry s t key = w.entry s t key := by
  rw [entry, entry, cache, cache, session_openSession]
  split
  · rename_i hs
    rw [hs, session_length]
  · rfl

theorem Sound.openSession {w : Workspace σ} (hw : w.Sound d) (config : Config) :
    (w.openSession config).2.Sound d :=
  ⟨hw.coherent.of_same (w.registries_openSession config) (w.entry_openSession config) rfl
    (Nat.le_refl _), hw.complete⟩

/-- What is offered is so still when something is registered. -/
theorem Offers.registered {w : Workspace σ} (hw : w.Coherent d) (s : SessionId)
    (f : Registries → Registries) {n : GraphNode} (hn : w.Offers d n) :
    (w.modifyRegistries s f).Offers d n := by
  refine Offers.transfer hw ?_ ?_ ?_ hn
  · exact fun _ h ↦ (entry_modifyRegistries ..).trans h
  · exact fun _ ↦ rfl
  · exact Nat.le_refl _

theorem Sound.registered {w : Workspace σ} (hw : w.Sound d) (s : SessionId)
    {f : Registries → Registries} (hf : Registries.Change d (w.Offers d) f) :
    (w.modifyRegistries s f).Sound d := by
  have hentry := w.entry_modifyRegistries s f
  have hr : ∀ b, (w.modifyRegistries s f).registries b = w.registries b ∨
      (w.modifyRegistries s f).registries b = f (w.registries b) := by
    intro b
    rw [registries, modifyRegistries, session_modifySession]
    split
    · exact .inr rfl
    · exact .inl rfl
  have ho : ∀ n, w.Offers d n → (w.modifyRegistries s f).Offers d n :=
    fun _ ↦ .registered hw.coherent s f
  refine ⟨hw.coherent.transfer ho (fun b ↦ ?_) (fun b ↦ ?_) (fun h ↦ hentry .. ▸ h) .inl,
    hw.complete⟩
  · rcases hr b with h | h <;> rw [h]
    · exact .refl _
    · exact hf.extends _
  · rcases hr b with h | h <;> rw [h]
    · exact (hw.coherent.registries b).imp ho
    · exact (hf.within (hw.coherent.registries b)).imp ho

/-- Releasing an owner drops field maps at most, and those of a session without owners. -/
theorem entry_release (w : Workspace σ) (s : SessionId) (owner : Owner) (b : SessionId)
    (t : CacheTable) (key : TypeKey) :
    (w.release s owner).entry b t key = w.entry b t key ∨
      t.ofNodes = false ∧ (w.release s owner).entry b t key = none ∧
        ((w.release s owner).session b).owners = [] := by
  rw [entry, entry, cache, cache, release, session_modifySession]
  split
  · rename_i hs
    cases hempty : ((w.session b).owners.erase owner).isEmpty with
    | false =>
      simp only [Session.release, hempty]
      exact .inl rfl
    | true =>
      simp only [Session.release, hempty]
      cases t with
      | objects | inputs | enums | unions | interfaces => exact .inl rfl
      | objectFields | interfaceFields | inputFields =>
        exact .inr ⟨rfl, rfl, List.isEmpty_iff.1 hempty⟩
  · exact .inl rfl

theorem registries_release (w : Workspace σ) (s : SessionId) (owner : Owner) (b : SessionId) :
    (w.release s owner).registries b = w.registries b := by
  rw [registries, registries, release, session_modifySession]
  split <;> rfl

theorem Sound.release {w : Workspace σ} (hw : w.Sound d) (s : SessionId) (owner : Owner) :
    (w.release s owner).Sound d := by
  have ho : ∀ n, w.Offers d n → (w.release s owner).Offers d n := by
    intro n hn
    refine Offers.transfer hw.coherent ?_ ?_ ?_ hn
    · intro b t key v ht h
      rcases entry_release w s owner b t key with he | ⟨hf, -⟩
      · rw [he, h]
      · rw [ht] at hf
        cases hf
    · exact fun _ ↦ rfl
    · exact Nat.le_refl _
  refine ⟨hw.coherent.transfer ho (fun b ↦ ?_) (fun b ↦ ?_) (fun {b t key v} h ↦ ?_) .inl,
    hw.complete⟩
  · rw [registries_release]
    exact .refl _
  · rw [registries_release]
    exact (hw.coherent.registries b).imp ho
  · rcases entry_release w s owner b t key with he | ⟨-, he, -⟩
    · rwa [he] at h
    · rw [he] at h
      cases h

/-- Lowering a node asks for its fields at most. -/
theorem lower_settles {w : Workspace σ} (hw : w.Coherent d) {n : GraphNode} (hn : w.Holds d n) :
    Settles d host w [] (n.lower host) fun _ ↦ [] := by
  have hself : w.Filled d host w := .refl hw
  cases n with
  | object n =>
    rw [GraphNode.lower]
    exact (ObjectNode.fields_settles hw hself hn).bind fun _ _ ↦ .value rfl trivial
  | interface n =>
    rw [GraphNode.lower]
    exact (InterfaceNode.fields_settles hw hself hn).bind fun _ _ ↦ .value rfl trivial
  | input n =>
    rw [GraphNode.lower]
    exact (InputNode.fields_settles hw hself hn).bind fun _ _ ↦ .value rfl trivial
  | union n | enum n | scalar n =>
    rw [GraphNode.lower]
    exact .value rfl trivial

/-- Lowering the types of a schema fills tables at most. -/
theorem filled_mapM_lower {w : Workspace σ} (hw : w.Coherent d) {types : List GraphNode}
    (htypes : ∀ n ∈ types, w.Offers d n) :
    w.Filled d host ((types.mapM (GraphNode.lower host)).runIn w).2 := by
  have hsettles : Settles d host w [] (types.mapM (GraphNode.lower host)) _ _ :=
    .mapM fun n hn ↦ lower_settles hw (htypes n hn).1
  exact hsettles.filled (.refl hw)

/-- What building an executable comes to: its types cannot be made, or the engine refuses them, or
the executable is one more owner. -/
theorem runIn_executable (verdict : EngineVerdict) (schema : Schema) (w : Workspace σ) :
    (schema.executable verdict host).runIn w =
      match (schema.types.mapM (GraphNode.lower host)).runIn w with
      | (.error e, w₁) => (.error e, w₁)
      | (.ok types, w₁) =>
        let x := schema.withTypes w₁.nextExecutable (types.filterMap id)
        match verdict x with
        | some reason => (.error (.assembly (.engine reason)), w₁)
        | none =>
          (.ok x, { w₁.modifySession x.session fun s ↦
            { s with owners := s.owners ++ [.executable x.serial] } with
              nextExecutable := x.serial + 1 }) := by
  rw [Schema.executable, Schema.lower, bind_assoc]
  rcases hrun : (schema.types.mapM (GraphNode.lower host)).runIn w with ⟨e | types, w₁⟩
  · rw [Compile.runIn_bind_of_error hrun]
  · rw [Compile.runIn_bind_of_ok hrun]
    rw [bind_assoc, Compile.runIn_get_bind]
    dsimp only
    cases verdict (schema.withTypes w₁.nextExecutable (types.filterMap id)) <;> rfl

theorem Sound.lowered {w : Workspace σ} (hw : w.Sound d) {schema : Schema}
    (htypes : ∀ n ∈ schema.types, w.Offers d n) (verdict : EngineVerdict) :
    ((schema.executable verdict host).runIn w).2.Sound d := by
  have hfilled : w.Filled d host _ := filled_mapM_lower hw.coherent htypes
  rw [runIn_executable]
  rcases hrun : (schema.types.mapM (GraphNode.lower host)).runIn w with ⟨e | types, w₁⟩ <;>
    rw [hrun] at hfilled
  · exact hw.of_grows hfilled.grows hfilled.coherent
  · have hw₁ : w₁.Sound d := hw.of_grows hfilled.grows hfilled.coherent
    dsimp only
    split
    · exact hw₁
    · refine ⟨hw₁.coherent.of_same ?_ ?_ rfl (Nat.le_refl _), hw₁.complete⟩
      · exact registries_modifySession w₁ _ fun _ ↦ rfl
      · exact entry_modifySession w₁ _ fun _ ↦ rfl

theorem Step.sound {w w' : Workspace σ} (h : Step d host w w') (hw : w.Sound d) : w'.Sound d := by
  cases h with
  | opened config => exact hw.openSession config
  | registered hs hf => exact hw.registered _ hf
  | asked hx =>
    obtain ⟨nodes, hsettles⟩ := hx.settles hw.coherent
    exact hw.of_grows (hsettles.grows (.refl hw.coherent))
      (hsettles.filled (.refl hw.coherent)).coherent
  | assembled hs roots => exact (compileSchema_spec hw (lt_length_of_isOpen hs) roots).1
  | lowered verdict hkept htypes => exact hw.lowered htypes verdict
  | released s owner => exact hw.release s owner
  | moved state => exact hw.of_grows (.ofHost w state) (hw.coherent.ofHost state)
  | called => exact hw.of_grows (.ofCall w _) (hw.coherent.of_grows (.ofCall w _) .inl)

/-! ## What each step leads to -/

theorem follows_openSession (w : Workspace σ) (config : Config) :
    w.Follows (w.openSession config).2 := by
  refine .of_same (fun s hs ↦ ?_) ?_ (w.entry_openSession config) (fun _ ↦ rfl) (Nat.le_refl _)
  · rw [session_openSession, if_neg (Nat.ne_of_lt hs)]
  · rw [openSession, List.length_append]
    exact Nat.le_add_right _ _

theorem follows_modifyRegistries (w : Workspace σ) (s : SessionId) (f : Registries → Registries) :
    w.Follows (w.modifyRegistries s f) := by
  refine .of_same (fun b _ ↦ ?_) ?_ (fun b t key ↦ ?_) (fun _ ↦ rfl) (Nat.le_refl _)
  · rw [modifyRegistries, session_modifySession]
    split <;> rfl
  · exact Nat.le_of_eq (by rw [modifyRegistries, length_modifySession])
  · exact entry_modifyRegistries w s f b t key

theorem follows_release (w : Workspace σ) (s : SessionId) (owner : Owner) :
    w.Follows (w.release s owner) := by
  have howners : ∀ b, ((w.release s owner).session b).owners = (w.session b).owners ∨
      ((w.release s owner).session b).owners = (w.session b).owners.erase owner := by
    intro b
    rw [release, session_modifySession]
    split
    · exact .inr rfl
    · exact .inl rfl
  refine ⟨?_, fun b _ h ↦ ?_, fun b _ h ↦ ?_, fun _ h ↦ ?_, fun {b t key} _ ht _ h ↦ ?_,
    fun _ ↦ rfl, Nat.le_refl _⟩
  · exact Nat.le_of_eq (by rw [release, length_modifySession])
  · rw [isOpen, Session.isOpen, List.contains_eq_mem] at h ⊢
    refine decide_eq_false fun hmem ↦ of_decide_eq_false h ?_
    rcases howners b with hb | hb <;> rw [hb] at hmem
    · exact hmem
    · exact List.mem_of_mem_erase hmem
  · rcases howners b with hb | hb <;> rw [hb, h]
    rfl
  · rcases entry_release w s owner _ _ _ with he | he
    · exact .inl (he.trans h)
    · exact .inr he
  · rcases entry_release w s owner b t key with he | ⟨-, he, -⟩
    · exact he.trans h
    · exact he

theorem follows_executable {w : Workspace σ} (hw : w.Sound d) {schema : Schema}
    (hkept : .schema schema.serial ∈ (w.session schema.session).owners)
    (htypes : ∀ n ∈ schema.types, w.Offers d n) (verdict : EngineVerdict) :
    w.Follows ((schema.executable verdict host).runIn w).2 := by
  have hfilled : w.Filled d host _ := filled_mapM_lower hw.coherent htypes
  rw [runIn_executable]
  rcases hrun : (schema.types.mapM (GraphNode.lower host)).runIn w with ⟨e | types, w₁⟩ <;>
    rw [hrun] at hfilled
  · exact hfilled.follows hw.coherent
  · dsimp only
    split
    · exact hfilled.follows hw.coherent
    · refine (hfilled.follows hw.coherent).trans (.addOwner rfl ?_ nofun rfl (Nat.le_refl _))
      rw [hfilled.grows.owners]
      exact List.ne_nil_of_mem hkept

theorem Step.follows {w w' : Workspace σ} (h : Step d host w w') (hw : w.Sound d) :
    w.Follows w' := by
  cases h with
  | opened config => exact follows_openSession w config
  | registered _ _ => exact follows_modifyRegistries w _ _
  | asked hx =>
    obtain ⟨nodes, hsettles⟩ := hx.settles hw.coherent
    exact (hsettles.filled (.refl hw.coherent)).follows hw.coherent
  | assembled hs roots => exact compileSchema_follows hw hs roots
  | lowered verdict hkept htypes => exact follows_executable hw hkept htypes verdict
  | released s owner => exact follows_release w s owner
  | moved | called =>
    exact .of_same (fun _ _ ↦ rfl) (Nat.le_refl _) (fun _ _ _ ↦ rfl) (fun _ ↦ rfl) (Nat.le_refl _)

/-- Nothing is taken back in a run. -/
theorem follows_of_steps {w w' : Workspace σ} (h : Relation.ReflTransGen (Step d host) w w')
    (hw : w.Sound d) : w'.Sound d ∧ w.Follows w' := by
  induction h with
  | refl => exact ⟨hw, .refl w⟩
  | tail _ hstep ih => exact ⟨hstep.sound ih.1, ih.2.trans (hstep.follows ih.1)⟩

/-! ## What only registrations change -/

section Drops

variable {w w' : Workspace σ}

/-- Nothing is registered, and field maps are dropped at most. -/
structure Drops (w w' : Workspace σ) : Prop where
  sessions : w.sessions.length ≤ w'.sessions.length
  registries : ∀ s, w'.registries s = w.registries s
  entries : ∀ {s : SessionId} {t : CacheTable} {key : TypeKey} {v : t.Value},
    w'.entry s t key = some v → w.entry s t key = some v
  nodes : ∀ {t : CacheTable}, t.ofNodes = true → ∀ s key, w'.entry s t key = w.entry s t key

theorem Drops.of_same (hsessions : w.sessions.length ≤ w'.sessions.length)
    (hregistries : ∀ s, w'.registries s = w.registries s)
    (hentries : ∀ s t key, w'.entry s t key = w.entry s t key) : w.Drops w' where
  sessions := hsessions
  registries := hregistries
  entries h := hentries .. ▸ h
  nodes _ s key := hentries s _ key

theorem Drops.of_sessions (h : w'.sessions = w.sessions) : w.Drops w' := by
  refine .of_same (Nat.le_of_eq (congrArg List.length h.symm)) (fun s ↦ ?_) fun s t key ↦ ?_
  · rw [Workspace.registries, session, h]
    rfl
  · rw [entry, cache, session, h]
    rfl

theorem Drops.of_modifySession {s : SessionId} {f : Session → Session}
    (h : w'.sessions = (w.modifySession s f).sessions) (hcache : ∀ x, (f x).cache = x.cache)
    (hregistries : ∀ x, (f x).registries = x.registries) : w.Drops w' := by
  have hd : (w.modifySession s f).Drops w' := .of_sessions h
  refine ⟨?_, fun b ↦ ?_, fun hv ↦ ?_, fun ht b key ↦ ?_⟩
  · exact (w.length_modifySession s f).symm ▸ hd.sessions
  · exact (hd.registries b).trans (registries_modifySession w s hregistries b)
  · exact (entry_modifySession w s hcache _ _ _).symm.trans (hd.entries hv)
  · exact (hd.nodes ht b key).trans (entry_modifySession w s hcache _ _ _)

theorem drops_release (w : Workspace σ) (s : SessionId) (owner : Owner) :
    w.Drops (w.release s owner) := by
  refine ⟨Nat.le_of_eq (w.length_modifySession s _).symm, registries_release w s owner,
    fun {b t key v} h ↦ ?_, fun {t} ht b key ↦ ?_⟩
  · rcases entry_release w s owner b t key with he | ⟨-, he, -⟩ <;> rw [he] at h
    · exact h
    · cases h
  · rcases entry_release w s owner b t key with he | ⟨hnot, -⟩
    · exact he
    · cases ht.symm.trans hnot

end Drops

/-- Filling tables and dropping field maps leave something as it is. -/
structure Stays (d : Declarations) (host : Host σ) (p : Workspace σ → Prop) : Prop where
  filled : ∀ {w w' : Workspace σ}, w.Coherent d → w.Filled d host w' → p w → p w'
  dropped : ∀ {w w' : Workspace σ}, w.Coherent d → w'.Coherent d → w.Drops w' → p w → p w'

namespace Stays

variable {p : Workspace σ → Prop} {w w' : Workspace σ}

theorem assembled (hp : Stays d host p) (hw : w.Sound d) {s : SessionId}
    (hs : w.isOpen s = true) (roots : List ClassRef) (h : p w) :
    p ((compileSchema host s roots).runIn w).2 := by
  have hlt := lt_length_of_isOpen hs
  rcases hroots : (compileRoots host s roots).runIn w with ⟨e | made, w₁⟩
  · rw [runIn_compileSchema_of_error hroots]
    exact hp.filled hw.coherent ((compileRoots_spec hw hlt roots).2 e w₁ hroots).1 h
  have henr := (compileRoots_spec hw hlt roots).1 made w₁ hroots
  obtain ⟨w₀, hw₀, hw₁⟩ := henr.grown
  -- the root types are enrolled beside the tables
  have h₁ : p w₁ := by
    rw [hw₁]
    exact hp.dropped hw₀.coherent (hw₁ ▸ henr.coherent) (.of_sessions rfl)
      (hp.filled hw.coherent hw₀ h)
  obtain ⟨hwalked, -⟩ : w₁.Filled d host _ ∧ _ := collectTypes_spec henr.coherent henr.held
  have h₂ := hp.filled henr.coherent hwalked h₁
  have hsound : ((compileSchema host s roots).runIn w).2.Coherent d :=
    (compileSchema_spec hw hlt roots).1.coherent
  rcases htypes : (collectTypes host made.nodes).runIn w₁ with ⟨e | types, w₂⟩ <;>
    rw [htypes] at h₂ hwalked
  · rw [runIn_compileSchema_of_blocked hroots htypes] at hsound ⊢
    exact hp.dropped hwalked.coherent hsound (.of_sessions rfl) h₂
  · rw [runIn_compileSchema_of_types hroots htypes] at hsound ⊢
    exact hp.dropped hwalked.coherent hsound
      (.of_modifySession rfl (fun _ ↦ rfl) fun _ ↦ rfl) h₂

theorem lowered (hp : Stays d host p) (hw : w.Sound d) {schema : Schema}
    (htypes : ∀ n ∈ schema.types, w.Offers d n) (verdict : EngineVerdict) (h : p w) :
    p ((schema.executable verdict host).runIn w).2 := by
  have hfilled : w.Filled d host _ := filled_mapM_lower hw.coherent htypes
  have hlowered := hp.filled hw.coherent hfilled h
  have hsound : ((schema.executable verdict host).runIn w).2.Coherent d :=
    (hw.lowered htypes verdict).coherent
  rw [runIn_executable] at hsound ⊢
  rcases hrun : (schema.types.mapM (GraphNode.lower host)).runIn w with ⟨e | types, w₁⟩ <;>
    rw [hrun] at hlowered hsound hfilled
  · exact hlowered
  · dsimp only at hsound ⊢
    split at hsound
    · exact hlowered
    · exact hp.dropped hfilled.coherent hsound
        (.of_modifySession rfl (fun _ ↦ rfl) fun _ ↦ rfl) hlowered

/-- A step registers something, or leaves it as it is. -/
theorem step (hp : Stays d host p) (hstep : Step d host w w') (hw : w.Sound d)
    (hregistered : ∀ s f, Registries.Change d (w.Offers d) f → w' = w.modifyRegistries s f → p w')
    (h : p w) : p w' := by
  have hsound := hstep.sound hw
  cases hstep with
  | opened config =>
    refine hp.dropped hw.coherent hsound.coherent (.of_same ?_ (w.registries_openSession config)
      (w.entry_openSession config)) h
    rw [Workspace.openSession, List.length_append]
    exact Nat.le_add_right _ _
  | registered hs hf => exact hregistered _ _ hf rfl
  | asked hx =>
    obtain ⟨nodes, hsettles⟩ := hx.settles hw.coherent
    exact hp.filled hw.coherent (hsettles.filled (.refl hw.coherent)) h
  | assembled hs roots => exact hp.assembled hw hs roots h
  | lowered verdict hkept htypes => exact hp.lowered hw htypes verdict h
  | released s owner => exact hp.dropped hw.coherent hsound.coherent (w.drops_release s owner) h
  | moved | called => exact hp.dropped hw.coherent hsound.coherent (.of_sessions rfl) h

end Stays

/-- Registries stay as they are. -/
theorem Stays.registries (s : SessionId) (q : Registries → Prop) :
    Stays d host fun w : Workspace σ ↦ q (w.registries s) where
  filled _ hf h := by rwa [hf.grows.registries]
  dropped _ _ hd h := by rwa [hd.registries]

/-! ## Runs -/

/-- The workspaces of all runs. -/
def Reachable (d : Declarations) (host : Host σ) (w : Workspace σ) : Prop :=
  ∃ state, Relation.ReflTransGen (Step d host) { host := state } w

theorem Reachable.tail {w w' : Workspace σ} (h : w.Reachable d host) (hstep : Step d host w w') :
    w'.Reachable d host := by
  obtain ⟨state, h⟩ := h
  exact ⟨state, h.tail hstep⟩

theorem Reachable.steps {w w' : Workspace σ} (h : w.Reachable d host)
    (hsteps : Relation.ReflTransGen (Step d host) w w') : w'.Reachable d host := by
  obtain ⟨state, h⟩ := h
  exact ⟨state, h.trans hsteps⟩

/-- A run begins by opening a session. -/
theorem Reachable.opened (state : σ) (config : Config) :
    Reachable d host (openSession { host := state } config).2 :=
  ⟨state, .single (.opened _ config)⟩

theorem Reachable.registered {w : Workspace σ} (h : w.Reachable d host) {s : SessionId}
    {f : Registries → Registries} (hs : w.isOpen s = true)
    (hf : Registries.Change d (w.Offers d) f) : (w.modifyRegistries s f).Reachable d host :=
  h.tail (.registered hs hf)

/-- The workspace in which a run begins is sound: nothing is registered, kept or rooted. -/
theorem Sound.initial (state : σ) : Sound d ({ host := state } : Workspace σ) := by
  have hentry : ∀ s t key, Workspace.entry ({ host := state } : Workspace σ) s t key = none := by
    intro s t key
    cases t <;> rfl
  have hwithin : Registries.Within d (Offers d ({ host := state } : Workspace σ)) {} :=
    { implements := fun _ h ↦ absurd h List.not_mem_nil
      members := fun _ h ↦ absurd h List.not_mem_nil
      implementors := fun _ h ↦ absurd h List.not_mem_nil
      fields := fun _ _ h ↦ absurd h List.not_mem_nil
      args := fun _ _ h ↦ absurd h List.not_mem_nil
      inputFields := fun _ _ h ↦ absurd h List.not_mem_nil }
  refine ⟨⟨fun s ↦ hwithin, fun {s t key v} h ↦ ?_, fun h ↦ ?_⟩, fun h ↦ ?_⟩
  · rw [hentry] at h
    cases h
  · rw [OrderedMap.find_nil] at h
    cases h
  · rw [OrderedMap.find_nil] at h
    cases h

/-- **Every workspace of a run is sound.** -/
theorem Reachable.sound {w : Workspace σ} (h : w.Reachable d host) : w.Sound d := by
  obtain ⟨state, h⟩ := h
  induction h with
  | refl => exact .initial state
  | tail _ hstep ih => exact hstep.sound ih

end Workspace

/-- A program that declares callables which do nothing. -/
def Host.idle : Host Unit where
  forced _ := pure ()
  construct _ := pure { cls := .base ⟨0⟩ "" }
  discriminate _ _ _ _ := pure none
  method _ _ _ := .done (.ok .null)
  before _ _ := pure (pure (.ok ()))
  after _ _ _ := pure (pure (.ok ()))
  inject _ _ := pure .null

end ApiGraph
