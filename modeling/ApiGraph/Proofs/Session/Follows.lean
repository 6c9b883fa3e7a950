import ApiGraph.Proofs.Schema.Assembly

/-!
# What is never taken back

Nodes are kept for good, and so are the roots of complete schemas.  A field map is kept until its
session has lost its last owner.  None is made for a session that is closed, and nothing owns again
a session that has lost its owners.

## What is here

* `Workspace.Follows`: one workspace is a later one of the same run, as far as these facts tell.
* `Workspace.Follows.trans`.
* `Workspace.Filled.follows`, `compileSchema_follows`: whatever the compiler does leads to a later
  workspace.
-/

set_option autoImplicit false

namespace ApiGraph

open Compile (Settles)

variable {σ : Type} {d : Declarations} {host : Host σ}

/-- The table of the nodes whose fields a table keeps. -/
def CacheTable.subject : CacheTable → CacheTable
  | .objectFields => .objects
  | .interfaceFields => .interfaces
  | .inputFields => .inputs
  | t => t

@[simp] theorem CacheTable.ofNodes_subject (t : CacheTable) : t.subject.ofNodes = true := by
  cases t <;> rfl

namespace Workspace

theorem isOpen_of_owners_eq_nil {w : Workspace σ} {s : SessionId}
    (h : (w.session s).owners = []) : w.isOpen s = false := by
  rw [isOpen, Session.isOpen, h]
  rfl

/-- What became of one workspace in another, later one. -/
structure Follows (w w' : Workspace σ) : Prop where
  sessions : w.sessions.length ≤ w'.sessions.length
  /-- A closed session stays closed. -/
  closed : ∀ s < w.sessions.length, w.isOpen s = false → w'.isOpen s = false
  /-- A session without owners stays without. -/
  abandoned : ∀ s < w.sessions.length, (w.session s).owners = [] → (w'.session s).owners = []
  /-- An entry is still there, unless it is a field map of a session without owners. -/
  entries : ∀ {s : SessionId} {t : CacheTable} {key : TypeKey} {v : t.Value},
    (∃ n, w.entry s t.subject key = some n) → w.entry s t key = some v →
      w'.entry s t key = some v ∨
        t.ofNodes = false ∧ w'.entry s t key = none ∧ (w'.session s).owners = []
  /-- A closed session makes no field map for the nodes that it has. -/
  unmade : ∀ {s : SessionId} {t : CacheTable} {key : TypeKey},
    (∃ n, w.entry s t.subject key = some n) → t.ofNodes = false → w.isOpen s = false →
      w.entry s t key = none → w'.entry s t key = none
  /-- The roots of complete schemas are as they were. -/
  roots : ∀ {serial : Nat} {operation : Operation}, serial < w.nextSchema →
    OrderedMap.find w'.roots (serial, operation) = OrderedMap.find w.roots (serial, operation)
  nextSchema : w.nextSchema ≤ w'.nextSchema

namespace Follows

variable {w w' w'' : Workspace σ}

/-- Nodes are kept for good. -/
theorem node (h : w.Follows w') {s : SessionId} {t : CacheTable} {key : TypeKey} {v : t.Value}
    (ht : t.ofNodes = true) (hv : w.entry s t key = some v) : w'.entry s t key = some v := by
  have hsubject : ∃ n, w.entry s t.subject key = some n := by
    cases t with
    | objects | inputs | enums | unions | interfaces => exact ⟨v, hv⟩
    | objectFields | interfaceFields | inputFields => cases ht
  rcases h.entries hsubject hv with hv | ⟨hf, -⟩
  · exact hv
  · rw [ht] at hf
    cases hf

theorem subject (h : w.Follows w') {s : SessionId} {t : CacheTable} {key : TypeKey}
    (hn : ∃ n, w.entry s t.subject key = some n) : ∃ n, w'.entry s t.subject key = some n := by
  obtain ⟨n, hn⟩ := hn
  exact ⟨n, h.node t.ofNodes_subject hn⟩

/-- A workspace in which nothing has happened that could be taken back. -/
theorem of_same (hs : ∀ s < w.sessions.length, (w'.session s).owners = (w.session s).owners)
    (hlength : w.sessions.length ≤ w'.sessions.length)
    (he : ∀ s t key, w'.entry s t key = w.entry s t key)
    (hroots : ∀ {serial : Nat} {operation : Operation}, serial < w.nextSchema →
      OrderedMap.find w'.roots (serial, operation) = OrderedMap.find w.roots (serial, operation))
    (hnext : w.nextSchema ≤ w'.nextSchema) : w.Follows w' where
  sessions := hlength
  closed s hlt h := by rw [isOpen, Session.isOpen, hs s hlt]; exact h
  abandoned s hlt h := (hs s hlt).trans h
  entries _ h := .inl ((he ..).trans h)
  unmade _ _ _ h := (he ..).trans h
  roots := hroots
  nextSchema := hnext

theorem refl (w : Workspace σ) : w.Follows w :=
  .of_same (fun _ _ ↦ rfl) (Nat.le_refl _) (fun _ _ _ ↦ rfl) (fun _ ↦ rfl) (Nat.le_refl _)

theorem trans (h : w.Follows w') (h' : w'.Follows w'') : w.Follows w'' where
  sessions := Nat.le_trans h.sessions h'.sessions
  closed s hlt hs := h'.closed s (Nat.lt_of_lt_of_le hlt h.sessions) (h.closed s hlt hs)
  abandoned s hlt hs := h'.abandoned s (Nat.lt_of_lt_of_le hlt h.sessions) (h.abandoned s hlt hs)
  entries hn hv := by
    obtain ⟨n, hn'⟩ := h.subject hn
    have hlt := lt_length_of_entry hn'
    rcases h.entries hn hv with hv | ⟨ht, hv, ho⟩
    · exact h'.entries ⟨n, hn'⟩ hv
    · exact .inr ⟨ht, h'.unmade ⟨n, hn'⟩ ht (isOpen_of_owners_eq_nil ho) hv,
        h'.abandoned _ hlt ho⟩
  unmade hn ht hs hv := by
    obtain ⟨n, hn₀⟩ := hn
    have hs' := h.closed _ (lt_length_of_entry hn₀) hs
    exact h'.unmade (h.subject ⟨n, hn₀⟩) ht hs' (h.unmade ⟨n, hn₀⟩ ht hs hv)
  roots hs := (h'.roots (Nat.lt_of_lt_of_le hs h.nextSchema)).trans (h.roots hs)
  nextSchema := Nat.le_trans h.nextSchema h'.nextSchema

end Follows

/-- What is known stays known. -/
theorem Holds.of_follows {w w' : Workspace σ} (hw : w.Sound d) (h : w.Follows w') {n : GraphNode}
    (hn : w.Holds d n) : w'.Holds d n :=
  hn.imp h.node fun _ hm ↦ (h.roots (hw.complete hm)).trans hm

/-! ## What the compiler does -/

/-- The fields of a node that are not kept are not given once the session is closed. -/
theorem Answers.not_of_closed {w : Workspace σ} (hw : w.Coherent d) {s : SessionId}
    {t : CacheTable} {key : TypeKey} (hn : ∃ n, w.entry s t.subject key = some n)
    (ht : t.ofNodes = false) (hs : w.isOpen s = false) (hnone : w.entry s t key = none)
    (v : t.Value) : ¬w.Answers d host s t key v := by
  intro h
  cases t with
  | objects | inputs | enums | unions | interfaces => cases ht
  | objectFields =>
    obtain ⟨(n : ObjectNode), hn⟩ := hn
    obtain ⟨hid, ⟨c, hcls, hc, rfl⟩, -⟩ := hw.entries (t := .objects) hn
    have hanswer := h c n hc rfl hid hcls (congrArg Prod.fst (Compile.runIn_remember_of_entry hn))
    rw [ObjectNode.fields, hid, hcls] at hanswer
    dsimp only at hanswer
    rw [Compile.runIn_remember_of_closed hnone hs] at hanswer
    cases hanswer
  | interfaceFields =>
    obtain ⟨(n : InterfaceNode), hn⟩ := hn
    obtain ⟨hid, ⟨hc, rfl⟩, -⟩ := hw.entries (t := .interfaces) hn
    have hanswer := h n.cls n hc rfl hid rfl
      (congrArg Prod.fst (Compile.runIn_remember_of_entry hn))
    rw [InterfaceNode.fields, hid] at hanswer
    dsimp only at hanswer
    rw [Compile.runIn_remember_of_closed hnone hs] at hanswer
    cases hanswer
  | inputFields =>
    obtain ⟨(n : InputNode), hn⟩ := hn
    obtain ⟨hid, ⟨hc, rfl⟩, -⟩ := hw.entries (t := .inputs) hn
    have hanswer := h n.cls n hc rfl hid rfl
      (congrArg Prod.fst (Compile.runIn_remember_of_entry hn))
    rw [InputNode.fields, hid] at hanswer
    dsimp only at hanswer
    rw [Compile.runIn_remember_of_closed hnone hs] at hanswer
    cases hanswer

/-- Filling tables leads to a later workspace. -/
theorem Filled.follows {w w' : Workspace σ} (hw : w.Coherent d) (hf : w.Filled d host w') :
    w.Follows w' where
  sessions := Nat.le_of_eq hf.grows.sessions_length.symm
  closed s _ h := (hf.grows.isOpen s).trans h
  abandoned s _ h := (hf.grows.owners s).trans h
  entries _ h := .inl (hf.grows.kept h)
  unmade hn ht hs h := by
    by_contra hne
    obtain ⟨v, hv⟩ := Option.ne_none_iff_exists'.1 hne
    exact Answers.not_of_closed hw hn ht hs h v (hf.answered hv)
  roots _ := by rw [hf.grows.roots]
  nextSchema := Nat.le_of_eq hf.grows.nextSchema.symm

/-- One more owner of a session that has one leads to a later workspace. -/
theorem Follows.addOwner {w w' : Workspace σ} {s : SessionId} {owner : Owner}
    (hw' : w'.sessions = (w.modifySession s fun x ↦
      { x with owners := x.owners ++ [owner] }).sessions)
    (ho : (w.session s).owners ≠ []) (hne : owner ≠ .session) (hroots : w'.roots = w.roots)
    (hnext : w.nextSchema ≤ w'.nextSchema) : w.Follows w' := by
  have hsession : ∀ b, w'.session b =
      (w.modifySession s fun x ↦ { x with owners := x.owners ++ [owner] }).session b := by
    intro b
    rw [session, hw', session]
  have howners : ∀ b, (w'.session b).owners = (w.session b).owners ∨
      b = s ∧ (w'.session b).owners = (w.session b).owners ++ [owner] := by
    intro b
    rw [hsession, session_modifySession]
    split
    · rename_i h
      exact .inr ⟨h.1.symm, rfl⟩
    · exact .inl rfl
  have hentry : ∀ b t key, w'.entry b t key = w.entry b t key := by
    intro b t key
    rw [← entry_modifySession w s (f := fun x ↦ { x with owners := x.owners ++ [owner] })
      (fun _ ↦ rfl), entry, cache, hsession]
    rfl
  refine ⟨?_, fun b _ h ↦ ?_, fun b _ h ↦ ?_, fun _ h ↦ .inl ((hentry ..).trans h),
    fun _ _ _ h ↦ (hentry ..).trans h, fun _ ↦ by rw [hroots], hnext⟩
  · exact Nat.le_of_eq (by rw [hw', length_modifySession])
  · rw [isOpen, Session.isOpen] at h ⊢
    rcases howners b with hb | ⟨-, hb⟩ <;> rw [hb]
    · exact h
    · rw [List.contains_eq_mem] at h ⊢
      refine decide_eq_false fun hmem ↦ ?_
      rcases List.mem_append.1 hmem with hmem | hmem
      · exact of_decide_eq_false h hmem
      · exact hne (List.mem_singleton.1 hmem).symm
  · rcases howners b with hb | ⟨rfl, -⟩
    · rw [hb, h]
    · exact absurd h ho

theorem owners_ne_nil_of_isOpen {w : Workspace σ} {s : SessionId} (h : w.isOpen s = true) :
    (w.session s).owners ≠ [] := by
  intro ho
  rw [isOpen_of_owners_eq_nil ho] at h
  cases h

/-- Enrolling roots leads to a later workspace. -/
theorem Enrolled.follows {w w₁ : Workspace σ} {made : SchemaRoots} (hw : w.Coherent d)
    (h : w.Enrolled d host made w₁) : w.Follows w₁ := by
  obtain ⟨w₀, hw₀, hw₁⟩ := h.grown
  refine (hw₀.follows hw).trans (.of_same ?_ ?_ ?_ ?_ ?_)
  · intro b _
    rw [hw₁]
    rfl
  · exact Nat.le_of_eq (congrArg (fun w ↦ w.sessions.length) hw₁).symm
  · intro b t key
    rw [hw₁]
    rfl
  · intro serial operation hlt
    rw [h.older (hw₀.grows.nextSchema ▸ hlt), hw₀.grows.roots]
  · exact Nat.le_of_eq (congrArg Workspace.nextSchema hw₁).symm

end Workspace

open Workspace in
/-- Compiling a schema leads to a later workspace, whether or not it succeeds. -/
theorem compileSchema_follows {w : Workspace σ} (hw : w.Sound d) {s : SessionId}
    (hs : w.isOpen s = true) (roots : List ClassRef) :
    w.Follows ((compileSchema host s roots).runIn w).2 := by
  obtain ⟨hok, herr⟩ := compileRoots_spec hw (lt_length_of_isOpen hs) roots
  rcases hroots : (compileRoots host s roots).runIn w with ⟨e | made, w₁⟩
  · rw [runIn_compileSchema_of_error hroots]
    exact (herr e w₁ hroots).1.follows hw.coherent
  have henr := hok made w₁ hroots
  have hfilled : w₁.Filled d host ((collectTypes host made.nodes).runIn w₁).2 :=
    (collectTypes_spec henr.coherent henr.held).1
  have hfollows := (henr.follows hw.coherent).trans (hfilled.follows henr.coherent)
  rcases htypes : (collectTypes host made.nodes).runIn w₁ with ⟨e | types, w₂⟩ <;>
    rw [htypes] at hfilled hfollows
  · rw [runIn_compileSchema_of_blocked hroots htypes]
    obtain ⟨w₀, hw₀, hw₁⟩ := henr.grown
    refine ⟨hfollows.sessions, hfollows.closed, hfollows.abandoned, hfollows.entries,
      hfollows.unmade, fun _ ↦ rfl, hfollows.nextSchema⟩
  · rw [runIn_compileSchema_of_types hroots htypes]
    obtain ⟨w₀, hw₀, hw₁⟩ := henr.grown
    have hopen : w₂.isOpen s = true := by
      rw [hfilled.grows.isOpen, hw₁]
      exact (hw₀.grows.isOpen s).trans hs
    have hnext : w₂.nextSchema = made.serial := by
      rw [hfilled.grows.nextSchema, hw₁, henr.serial]
      exact hw₀.grows.nextSchema
    refine hfollows.trans (.addOwner rfl (owners_ne_nil_of_isOpen hopen) nofun rfl ?_)
    rw [hnext]
    exact Nat.le_succ _

end ApiGraph
