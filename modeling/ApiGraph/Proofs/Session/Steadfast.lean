import ApiGraph.Proofs.Session.Implementors

/-!
# Classes that keep to their interfaces

An object type attaches the interfaces that its class claims when the type is made; an interface
lists every class that has ever claimed it.  The two agree for a class that, once registered as an
object type, is never registered with other interfaces: in all workspaces of such runs the class
claims every interface that lists it, and its object type has attached what the class claims.

## What is here

* `Workspace.Steadfast`: the workspaces of such runs, for one class.
* `ObjectNode.Attaches`: an object type has an interface of its session.
* `Workspace.Attached`: the agreement, with `Workspace.Step.attached` for one step and
  `Workspace.Steadfast.attached` for a run.
-/

set_option autoImplicit false

namespace ApiGraph

variable {σ : Type} {d : Declarations} {host : Host σ} {w w' : Workspace σ} {b : SessionId}
  {key : TypeKey}

/-- An object type attaches the interface that a session has made for a class. -/
def ObjectNode.Attaches (m : ObjectNode) (b : SessionId) (interface : TypeKey) : Prop :=
  ∃ x ∈ m.interfaces, x.id = .compiled b .interface interface

/-- An object type that is not there yet attaches what its class claims now. -/
theorem attaches_iff_of_none (host : Host σ) (hw : w.Coherent d) (hb : b < w.sessions.length)
    {c : ClassRef} (hnone : w.entry b .objects c.key = none) {m : ObjectNode}
    (h : ((compileObject b c).runIn w).1 = .ok m) (interface : TypeKey) :
    m.Attaches b interface ↔ (w.registries b).Claims c.key interface := by
  have hself : w.Filled d host w := .refl hw
  obtain ⟨spec, -, hmade⟩ := compileObject_ofSpec hw hb hself hnone h
  have hid : ∀ x ∈ m.interfaces, x.id = .compiled b .interface x.cls.key := by
    intro x hx
    obtain ⟨i, -, hid, rfl⟩ := exists_left_of_forall₂ hmade.interfaces hx
    exact hid
  rw [← mem_interfaces_iff host hw hb hnone h, List.mem_map]
  refine exists_congr fun x ↦ and_congr_right fun hx ↦ ?_
  simp [hid x hx]

namespace Workspace

/-- If a class was registered as an object type, it claims the interfaces that it claimed. -/
def KeepsClaims (b : SessionId) (key : TypeKey) (w w' : Workspace σ) : Prop :=
  (w.registries b).isObject key = true → ∀ i,
    (w'.registries b).Claims key i ↔ (w.registries b).Claims key i

/-- The workspaces of the runs in which a class, once registered as an object type, is never
registered with other interfaces. -/
def Steadfast (d : Declarations) (host : Host σ) (b : SessionId) (key : TypeKey)
    (w : Workspace σ) : Prop :=
  ∃ state, Relation.ReflTransGen (fun v v' ↦ Step d host v v' ∧ KeepsClaims b key v v')
    { host := state } w

theorem Steadfast.reachable (h : w.Steadfast d host b key) : w.Reachable d host := by
  obtain ⟨state, h⟩ := h
  exact ⟨state, Relation.ReflTransGen.mono (fun _ _ ↦ And.left) _ _ h⟩

theorem Steadfast.tail (h : w.Steadfast d host b key) (hstep : Step d host w w')
    (hkeeps : KeepsClaims b key w w') : w'.Steadfast d host b key := by
  obtain ⟨state, h⟩ := h
  exact ⟨state, h.tail ⟨hstep, hkeeps⟩⟩

theorem KeepsClaims.of_objects (h : (w'.registries b).objects = (w.registries b).objects) :
    KeepsClaims b key w w' := by
  intro _ i
  rw [Registries.Claims, h, Registries.Claims]

/-- A run begins by opening a session, in which nothing is registered yet. -/
theorem Steadfast.opened (state : σ) (config : Config) :
    Steadfast d host b key (openSession { host := state } config).2 :=
  ⟨state, .single ⟨.opened _ config,
    .of_objects (congrArg Registries.objects (registries_openSession _ config b))⟩⟩

/-- A class claims the interfaces that list it, and its object type, if it is there, attaches those
that it claims. -/
structure Attached (b : SessionId) (key : TypeKey) (w : Workspace σ) : Prop where
  listed : ∀ i, key ∈ (w.registries b).implementorKeys i → (w.registries b).Claims key i.key
  kept : ∀ m, w.entry b .objects key = some m → ∀ i,
    m.Attaches b i ↔ (w.registries b).Claims key i

namespace Attached

theorem of_drops (h : w.Attached b key) (hd : w.Drops w') : w'.Attached b key := by
  refine ⟨hd.registries b ▸ h.listed, fun m hm ↦ ?_⟩
  rw [hd.registries b]
  exact h.kept m (hd.entries hm)

/-- The object type of the class, made now or before, attaches what the class claims. -/
theorem attaches_iff (h : w.Attached b key) (host : Host σ) (hw : w.Coherent d)
    (hb : b < w.sessions.length) {c : ClassRef} (hc : c.key = key) {m : ObjectNode}
    (hm : ((compileObject b c).runIn w).1 = .ok m) (i : TypeKey) :
    m.Attaches b i ↔ (w.registries b).Claims key i := by
  subst hc
  cases hentry : w.entry b .objects c.key with
  | none => exact attaches_iff_of_none host hw hb hentry hm i
  | some n =>
    rw [compileObject, Compile.runIn_remember_of_entry hentry] at hm
    cases hm
    exact h.kept m hentry i

/-- Filling tables leaves it so. -/
theorem filled (h : w.Attached b key) (hw : w.Coherent d) (hf : w.Filled d host w') :
    w'.Attached b key := by
  have hr := hf.grows.registries b
  refine ⟨hr ▸ h.listed, fun m hm ↦ ?_⟩
  obtain ⟨c, -, hc, hrun⟩ := hf.answered hm
  rw [hr]
  exact h.attaches_iff host hw (hf.grows.sessions_length ▸ lt_length_of_entry hm) hc hrun

/-- So does a registration that keeps to what the class claims. -/
theorem registered (h : w.Attached b key) (hw : w.Coherent d) {s : SessionId}
    {f : Registries → Registries} (hf : Registries.Change d (w.Offers d) f)
    (hkeeps : KeepsClaims b key w (w.modifyRegistries s f)) :
    (w.modifyRegistries s f).Attached b key := by
  have hentry := fun m (hm : (w.modifyRegistries s f).entry b .objects key = some m) ↦
    (w.entry_modifyRegistries s f b .objects key).symm.trans hm
  have hr : (w.modifyRegistries s f).registries b = w.registries b ∨
      (w.modifyRegistries s f).registries b = f (w.registries b) := by
    rw [registries, modifyRegistries, session_modifySession]
    split
    · exact .inr rfl
    · exact .inl rfl
  rcases hr with hr | hr
  · refine ⟨hr ▸ h.listed, fun m hm ↦ ?_⟩
    rw [hr]
    exact h.kept m (hentry m hm)
  -- what the class claimed it still claims, as it was registered then
  have hclaims : ∀ i, (w.registries b).Claims key i →
      ((w.modifyRegistries s f).registries b).Claims key i := by
    rintro i ⟨spec, hspec, hclaims⟩
    exact (hkeeps (OrderedMap.has_of_find hspec) i).2 ⟨spec, hspec, hclaims⟩
  refine ⟨fun i hi ↦ ?_, fun m hm i ↦ ?_⟩
  · rcases hf.call_or_aloof with ⟨c, rfl⟩ | haloof
    · rw [hr, c.implementorKeys_run] at hi
      split at hi
      · rename_i hnew
        rcases List.mem_append.1 hi with hi | hi
        · exact hclaims _ (h.listed i hi)
        · rw [hr, List.mem_singleton.1 hi]
          refine ⟨c.spec, ?_, hnew.1⟩
          rw [c.objects_run, OrderedMap.find_put, if_pos rfl]
      · exact hclaims _ (h.listed i hi)
    · refine hclaims _ (h.listed i ?_)
      rwa [hr, Registries.implementorKeys, Registries.implementorsOf,
        (haloof (w.registries b)).2] at hi
  · have hobject : (w.registries b).isObject key = true := (hw.entries (hentry m hm)).2.2.1
    rw [hkeeps hobject]
    exact h.kept m (hentry m hm) i

end Attached

/-- One step. -/
theorem Step.attached (h : Step d host w w') (hw : w.Sound d) (hkeeps : KeepsClaims b key w w')
    (ha : w.Attached b key) : w'.Attached b key := by
  have hstays : Stays d host (Attached (σ := σ) b key) :=
    ⟨fun hw hf ha ↦ ha.filled hw hf, fun _ _ hd ha ↦ ha.of_drops hd⟩
  refine hstays.step h hw (fun s f hf heq ↦ ?_) ha
  subst heq
  exact ha.registered hw.coherent hf hkeeps

/-- **A class that keeps to its interfaces.**  In every run, if the class is never registered with
other interfaces than at first, it claims the interfaces that list it, and its object type attaches
those that it claims. -/
theorem Steadfast.attached (h : w.Steadfast d host b key) : w.Attached b key := by
  obtain ⟨state, h⟩ := h
  induction h with
  | refl =>
    refine ⟨fun i hi ↦ ?_, fun m hm ↦ ?_⟩
    · exact absurd hi List.not_mem_nil
    · cases hm
  | tail hsteps hstep ih =>
    have hreachable : Steadfast d host b key _ := ⟨state, hsteps⟩
    exact hstep.1.attached hreachable.reachable.sound hstep.2 ih

end Workspace

end ApiGraph
