import ApiGraph.Proofs.Schema.Roots
import ApiGraph.Proofs.Schema.Walk

/-!
# What compiling a schema leaves

A schema that cannot be compiled leaves a workspace that has only grown: its roots are given up.
One that can is one more owner of the session's field maps, and its roots are there for good.

## What is here

* `Workspace.publish`: the workspace that a complete schema leaves.
* `compileSchema_spec`, `compileSchema_publishes`: what has become of the workspace, in each of the
  two cases.
-/

set_option autoImplicit false

namespace ApiGraph

variable {σ : Type} {d : Declarations} {host : Host σ} {w w₁ w₂ : Workspace σ} {s : SessionId}
  {roots : List ClassRef}

/-- A workspace in which the schema of the next serial number is complete. -/
def Workspace.publish (w : Workspace σ) (s : SessionId) (serial : Nat) : Workspace σ :=
  let w := w.modifySession s fun x ↦ { x with owners := x.owners ++ [.schema serial] }
  { w with nextSchema := serial + 1 }

/-- The schema of some roots and types. -/
def SchemaRoots.schema (made : SchemaRoots) (s : SessionId) (types : List GraphNode) : Schema where
  serial := made.serial
  session := s
  query := made.query
  mutation := made.mutation
  types
  config := made.config

theorem Workspace.session_publish (w : Workspace σ) (s b : SessionId) (serial : Nat) :
    (w.publish s serial).session b =
      if s = b ∧ b < w.sessions.length then
        { w.session b with owners := (w.session b).owners ++ [.schema serial] }
      else w.session b :=
  w.session_modifySession s b _

/-- A schema that owns a session does not open it, nor does it close it. -/
theorem Workspace.isOpen_publish (w : Workspace σ) (s b : SessionId) (serial : Nat) :
    (w.publish s serial).isOpen b = w.isOpen b := by
  rw [isOpen, isOpen, session_publish]
  split
  · simp [Session.isOpen]
  · rfl

/-- A complete schema takes nothing away. -/
theorem Workspace.retains_publish (w : Workspace σ) (s : SessionId) (serial : Nat) :
    w.Retains (w.publish s serial) where
  kept {b t key _} h := (entry_modifySession w s (f := fun x ↦
    { x with owners := x.owners ++ [.schema serial] }) (fun _ ↦ rfl) b t key).trans h
  isOpen b h := (w.isOpen_publish s b serial).trans h
  registries := registries_modifySession w s fun _ ↦ rfl
  roots := rfl

/-! ## The three ways in which compiling ends -/

theorem runIn_compileSchema_of_error {e : CompileError}
    (h : (compileRoots host s roots).runIn w = (.error e, w₁)) :
    (compileSchema host s roots).runIn w = (.error e, w₁) := by
  rw [compileSchema, Compile.runIn_get_bind, Compile.runIn_bind_of_error h]

theorem runIn_compileSchema_of_blocked {made : SchemaRoots} {e : CompileError}
    (h : (compileRoots host s roots).runIn w = (.ok made, w₁))
    (ht : (collectTypes host made.nodes).runIn w₁ = (.error e, w₂)) :
    (compileSchema host s roots).runIn w = (.error e, { w₂ with roots := w.roots }) := by
  have hcaught : (tryCatch (collectTypes host made.nodes) fun e ↦ do
      modify fun w' ↦ { w' with roots := w.roots }
      throw e).runIn w₁ = (.error e, { w₂ with roots := w.roots }) := by
    rw [Compile.runIn_tryCatch_of_error ht]
    rfl
  rw [compileSchema, Compile.runIn_get_bind, Compile.runIn_bind_of_ok h,
    Compile.runIn_bind_of_error hcaught]

theorem runIn_compileSchema_of_types {made : SchemaRoots} {types : List GraphNode}
    (h : (compileRoots host s roots).runIn w = (.ok made, w₁))
    (ht : (collectTypes host made.nodes).runIn w₁ = (.ok types, w₂)) :
    (compileSchema host s roots).runIn w =
      (.ok (made.schema s types), w₂.publish s made.serial) := by
  rw [compileSchema, Compile.runIn_get_bind, Compile.runIn_bind_of_ok h,
    Compile.runIn_bind_of_ok (Compile.runIn_tryCatch_of_ok ht)]
  rfl

/-! ## Soundness -/

namespace Workspace

/-- The roots of a schema that fails can be given up: nothing refers to them. -/
theorem Enrolled.restore {made : SchemaRoots} (hw : w.Sound d) (h : w.Enrolled d host made w₁)
    (hf : w₁.Filled d host w₂) :
    w.Grows { w₂ with roots := w.roots } ∧ Sound d { w₂ with roots := w.roots } := by
  obtain ⟨w₀, hw₀, hw₁⟩ := h.grown
  have hg := hw₀.grows
  have hnext : w₁.nextSchema = w.nextSchema := by
    rw [hw₁]
    exact hg.nextSchema
  have hgrows : w.Grows { w₂ with roots := w.roots } := by
    constructor
    · have hb := congrArg (fun b : Workspace Unit ↦ { b with roots := w.roots }) hf.grows.bare
      have hb₀ := congrArg (fun b : Workspace Unit ↦ { b with roots := w.roots }) hg.bare
      rw [hw₁] at hb
      exact hb.trans hb₀
    · intro b t key v he
      have he₁ : w₁.entry b t key = some v := by
        rw [hw₁]
        exact hg.kept he
      exact hf.grows.kept he₁
  have ho : ∀ n, w₂.Offers d n → Offers d { w₂ with roots := w.roots } n := by
    intro n hn
    refine Offers.transfer hf.coherent ?_ ?_ ?_ hn
    · exact fun _ h ↦ h
    · intro serial operation hs
      rw [hf.grows.nextSchema, hnext] at hs
      rw [hf.grows.roots]
      exact (h.older hs).symm
    · exact Nat.le_refl _
  refine ⟨hgrows, hf.coherent.transfer ho (fun b ↦ .refl _) (fun b ↦ ?_) id fun he ↦ .inl ?_,
    fun he ↦ ?_⟩
  · exact (hf.coherent.registries b).imp ho
  · rw [hf.grows.roots, h.older (hw.complete he)]
    exact he
  · exact hgrows.nextSchema ▸ hw.complete he

/-- A complete schema leaves a sound workspace. -/
theorem Enrolled.publish {made : SchemaRoots} (h : w.Enrolled d host made w₁)
    (hf : w₁.Filled d host w₂) (s : SessionId) : (w₂.publish s made.serial).Sound d := by
  have hnext : w₂.nextSchema = made.serial := by
    obtain ⟨w₀, hw₀, hw₁⟩ := h.grown
    rw [hf.grows.nextSchema, hw₁, h.serial]
    exact hw₀.grows.nextSchema
  refine ⟨hf.coherent.of_same ?_ ?_ rfl ?_, fun he ↦ ?_⟩
  · exact registries_modifySession w₂ s fun _ ↦ rfl
  · exact entry_modifySession w₂ s fun _ ↦ rfl
  · rw [hnext]
    exact Nat.le_succ _
  · have hle := h.newer (hf.grows.roots ▸ he)
    rw [← h.serial] at hle
    exact Nat.lt_succ_of_le hle

end Workspace

/-- **What compiling a schema leaves.**  A schema that cannot be compiled leaves a workspace that
has only grown, and in either case the workspace is sound. -/
theorem compileSchema_spec (hw : w.Sound d) (hs : s < w.sessions.length) (roots : List ClassRef) :
    ((compileSchema host s roots).runIn w).2.Sound d ∧
      ∀ e, ((compileSchema host s roots).runIn w).1 = .error e →
        w.Grows ((compileSchema host s roots).runIn w).2 := by
  obtain ⟨hok, herr⟩ := compileRoots_spec hw hs roots
  rcases hroots : (compileRoots host s roots).runIn w with ⟨e | made, w₁⟩
  · rw [runIn_compileSchema_of_error hroots]
    have hf := (herr e w₁ hroots).1
    exact ⟨hw.of_grows hf.grows hf.coherent, fun _ _ ↦ hf.grows⟩
  have henr := hok made w₁ hroots
  have hfilled : w₁.Filled d host ((collectTypes host made.nodes).runIn w₁).2 :=
    (collectTypes_spec henr.coherent henr.held).1
  rcases htypes : (collectTypes host made.nodes).runIn w₁ with ⟨e | types, w₂⟩ <;>
    rw [htypes] at hfilled
  · rw [runIn_compileSchema_of_blocked hroots htypes]
    obtain ⟨hg, hs⟩ := henr.restore hw hfilled
    exact ⟨hs, fun _ _ ↦ hg⟩
  · rw [runIn_compileSchema_of_types hroots htypes]
    exact ⟨henr.publish hfilled s, nofun⟩

/-- Whatever compiling a schema comes to, it leaves a sound workspace. -/
theorem Workspace.Sound.of_compileSchema (hw : w.Sound d) (hs : w.isOpen s = true)
    {outcome : Except CompileError Schema} {w' : Workspace σ}
    (h : (compileSchema host s roots).runIn w = (outcome, w')) : w'.Sound d := by
  have hw' : ((compileSchema host s roots).runIn w).2.Sound d :=
    (compileSchema_spec hw (lt_length_of_isOpen hs) roots).1
  rwa [h] at hw'

/-- A complete schema is published under the next serial number. -/
theorem compileSchema_publishes (hw : w.Sound d) (hs : s < w.sessions.length) {schema : Schema}
    {w' : Workspace σ} (h : (compileSchema host s roots).runIn w = (.ok schema, w')) :
    schema.session = s ∧ schema.serial = w.nextSchema ∧
      ∃ w₂ : Workspace σ, w.Grows { w₂ with roots := w.roots } ∧ w' = w₂.publish s schema.serial := by
  rcases hroots : (compileRoots host s roots).runIn w with ⟨e | made, w₁⟩
  · rw [runIn_compileSchema_of_error hroots] at h
    cases h
  have henr := (compileRoots_spec hw hs roots).1 made w₁ hroots
  have hfilled : w₁.Filled d host ((collectTypes host made.nodes).runIn w₁).2 :=
    (collectTypes_spec henr.coherent henr.held).1
  rcases htypes : (collectTypes host made.nodes).runIn w₁ with ⟨e | types, w₂⟩ <;>
    rw [htypes] at hfilled
  · rw [runIn_compileSchema_of_blocked hroots htypes] at h
    cases h
  · rw [runIn_compileSchema_of_types hroots htypes] at h
    cases h
    exact ⟨rfl, henr.serial, w₂, (henr.restore hw hfilled).1, rfl⟩

end ApiGraph
