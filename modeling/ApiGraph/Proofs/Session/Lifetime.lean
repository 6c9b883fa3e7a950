import ApiGraph.Proofs.Schema.RootTypes
import ApiGraph.Proofs.Session.Closed
import ApiGraph.Proofs.Session.LazyNode

/-!
# How long field maps live

The fields of an object type, an interface or an input type are made when they are first asked for,
which takes an open session.  Once made they are kept for the owners of the session, whichever of
them is left, and released with the last one.  A failure is not kept.  The roots of a schema have
their fields from the beginning, and for good.

## What is here

* `LazyNode.Lives`: what accesses give, now and later in a run, with `Reachable.lives`, and
  `Reachable.eq_of_fields`: it is the same.
* `lifetimes_of_steps`: this holds of every node of every run.
-/

set_option autoImplicit false

namespace ApiGraph

open Relation (ReflTransGen)
open Workspace (Step)

variable {σ : Type} {d : Declarations} {host : Host σ} {w w' v : Workspace σ} {s : SessionId}
  {key : TypeKey}

namespace LazyNode

/-- What accesses to the fields of a node of a session give, now and later in a run. -/
structure Lives (d : Declarations) (host : Host σ) (s : SessionId) (key : TypeKey) (x : LazyNode)
    (w : Workspace σ) : Prop where
  /-- The node is kept for good. -/
  node : ∀ v, ReflTransGen (Step d host) w v → x.KeptBy v s key
  /-- Fields that are not there are evaluated, in an open session only. -/
  evaluated : w.entry s x.table key = none → ((x.fields host).runIn w).1 =
    if w.isOpen s then ((x.evaluate host s).runIn w).1 else .error .sessionDropped
  /-- After a failure they are not there, so the next access evaluates them again. -/
  failed : ∀ e w', (x.fields host).runIn w = (.error e, w') →
    w'.entry s x.table key = none ∧ ((x.fields host).runIn w').1 =
      if w'.isOpen s then ((x.evaluate host s).runIn w').1 else .error .sessionDropped
  /-- After a success every access gives the same fields, as long as the session has an owner. -/
  given : ∀ map w', (x.fields host).runIn w = (.ok map, w') →
    ∀ v, ReflTransGen (Step d host) w' v → (∃ o, o ∈ (v.session s).owners) →
      (x.fields host).runIn v = (.ok map, v)
  /-- Fields that are not there when the session is closed are never given. -/
  unmade : w.isOpen s = false → w.entry s x.table key = none →
    ∀ v, ReflTransGen (Step d host) w v → (x.fields host).runIn v = (.error .sessionDropped, v)
  /-- Without owners of the session no fields are given, even if they were there. -/
  released : (∀ o, o ∉ (w.session s).owners) →
    ∀ v, ReflTransGen (Step d host) w v → (x.fields host).runIn v = (.error .sessionDropped, v)

end LazyNode

namespace Workspace

theorem Reachable.lives (hw : w.Reachable d host) {x : LazyNode} (hx : x.KeptBy w s key) :
    x.Lives d host s key w := by
  have hcoherent := hw.sound.coherent
  have hlater {v : Workspace σ} (hv : ReflTransGen (Step d host) w v) : x.KeptBy v s key :=
    hx.of_follows (follows_of_steps hv hw.sound).2
  have hunmade (hs : w.isOpen s = false) (hnone : w.entry s x.table key = none) {v : Workspace σ}
      (hv : ReflTransGen (Step d host) w v) :
      (x.fields host).runIn v = (.error .sessionDropped, v) := by
    obtain ⟨hsound, hfollows⟩ := follows_of_steps hv hw.sound
    refine (hlater hv).runIn_fields_of_closed hsound.coherent ?_ ?_
    · exact hfollows.unmade hx.subject x.ofNodes_table hs hnone
    · exact hfollows.closed s hx.lt_length hs
  have hasked : Step d host w ((x.fields host).runIn w).2 := .asked (hx.request hcoherent)
  refine ⟨fun v ↦ hlater, hx.runIn_fields_of_none hcoherent, fun e w' h ↦ ?_,
    fun map w' h v hv ho ↦ ?_, fun hs hnone v ↦ hunmade hs hnone, fun ho v ↦ ?_⟩
  · rw [h] at hasked
    have hnone := hx.entry_of_error hcoherent h
    exact ⟨hnone, (hlater (.single hasked)).runIn_fields_of_none (hasked.sound hw.sound).coherent
      hnone⟩
  · rw [h] at hasked
    have hw' := hasked.sound hw.sound
    have hx' := hlater (.single hasked)
    obtain ⟨hsound, hfollows⟩ := follows_of_steps hv hw'
    obtain ⟨o, ho⟩ := ho
    exact (hx'.of_follows hfollows).runIn_fields_of_entry hsound.coherent
      (hfollows.fields (List.ne_nil_of_mem ho) hx'.subject (hx.entry_of_ok hcoherent h))
  · have ho := List.eq_nil_iff_forall_not_mem.2 ho
    exact hunmade (isOpen_of_owners_eq_nil ho) (hw.bared s ho x.table x.ofNodes_table key)

/-- Fields that are given later are those that were given first. -/
theorem Reachable.eq_of_fields (hw : w.Reachable d host) {x : LazyNode} (hx : x.KeptBy w s key)
    {map map' : x.table.Value} (h : (x.fields host).runIn w = (.ok map, w'))
    (hv : ReflTransGen (Step d host) w' v) (h' : ((x.fields host).runIn v).1 = .ok map') :
    map' = map := by
  have hasked : Step d host w ((x.fields host).runIn w).2 := .asked (hx.request hw.sound.coherent)
  rw [h] at hasked
  by_cases ho : ∃ o, o ∈ (v.session s).owners
  · rw [(hw.lives hx).given map w' h v hv ho] at h'
    exact (Except.ok.inj h').symm
  · have hx' := (hw.lives hx).node v (hv.head hasked)
    have hlives := ((hw.tail hasked).steps hv).lives hx'
    rw [hlives.released (not_exists.1 ho) v .refl] at h'
    cases h'

/-- The root types of a schema keep their fields for good. -/
theorem exists_fields_of_root (hw : w.Sound d) (hs : w.isOpen s = true) {roots : List ClassRef}
    {schema : Schema} (h : (compileSchema host s roots).runIn w = (.ok schema, w'))
    {operation : Operation} {n : ObjectNode} (hn : schema.root? operation = some n) :
    ∃ map, ∀ v, ReflTransGen (Step d host) w' v → (n.fields host).runIn v = (.ok map, v) := by
  obtain ⟨fields, -, hmade⟩ := compileSchema_root hw hs h
  have hroot := hmade operation
  rw [hn] at hroot
  obtain ⟨-, serial, m, map, hid, hfind, -⟩ := hroot
  have hw' : w'.Sound d := hw.of_compileSchema hs h
  exact ⟨map, fun v hv ↦ ObjectNode.runIn_fields_of_root hw' hv hid hfind⟩

/-- **How long field maps live.**  Take any workspace of a run and any object type, interface or
input type that a session keeps in it.  As long as its fields are not there, an access evaluates
them if the session is open, and is refused if it is not; a failure is not kept, so the next access
evaluates again.  After a success every access gives the same fields as long as anyone owns the
session, and none does once nobody owns it.  The owners are those who have joined, the session
itself with its opening, schemas and executables when they are complete, and who have not been
dropped.  The root types of a schema give the same fields throughout. -/
theorem lifetimes_of_steps {state : σ} (hw : ReflTransGen (Step d host) { host := state } w) :
    (∀ s key (x : LazyNode), x.KeptBy w s key → x.Lives d host s key w) ∧
      (∀ s o, o ∈ (w.session s).owners ↔
        (∃ u u', ReflTransGen (Step d host) { host := state } u ∧ u.Joins d host s o u' ∧
          ReflTransGen (Step d host) u' w) ∧
        ¬∃ u, ReflTransGen (Step d host) { host := state } u ∧ o ∈ (u.session s).owners ∧
          ReflTransGen (Step d host) (u.release s o) w) ∧
      ∀ s roots schema w', w.isOpen s = true →
        (compileSchema host s roots).runIn w = (.ok schema, w') →
        ∀ operation n, schema.root? operation = some n → ∃ map, ∀ v,
          ReflTransGen (Step d host) w' v → (n.fields host).runIn v = (.ok map, v) := by
  have hreachable : w.Reachable d host := ⟨state, hw⟩
  refine ⟨fun s key x ↦ hreachable.lives, mem_owners_iff_of_steps hw, ?_⟩
  intro s roots schema w' hs h operation n
  exact exists_fields_of_root hreachable.sound hs h

end Workspace

open Friends in
/-- A schema keeps the fields of its types when the session is dropped, and they go with the schema;
the root type has its own still. -/
theorem Workspace.lifetimes_of_steps_friends :
    ∃ state schema w₁ person fields,
      ReflTransGen (Step declared .idle) { host := state } workspace ∧
      (compileSchema .idle 0 [root]).runIn workspace = (.ok schema, w₁) ∧
      w₁.entry 0 .objects Friends.person.key = some person ∧
      let w₂ := w₁.release 0 .session
      let w₃ := w₂.release 0 (.schema schema.serial)
      (person.fields .idle).runIn w₂ = (.ok fields, w₂) ∧
        (person.fields .idle).runIn w₃ = (.error .sessionDropped, w₃) ∧
        ∃ map, (schema.query.fields .idle).runIn w₃ = (.ok map, w₃) := by
  obtain ⟨state, hstart⟩ := reachable
  have hfacts : ((compileSchema .idle 0 [root]).runIn workspace).1.toOption.map
      (fun schema ↦ (schema.serial,
        (((compileSchema .idle 0 [root]).runIn workspace).2.session 0).owners,
        (((compileSchema .idle 0 [root]).runIn workspace).2.entry 0 .objects
          Friends.person.key).isSome,
        (((compileSchema .idle 0 [root]).runIn workspace).2.entry 0 .objectFields
          Friends.person.key).isSome)) = some (0, [.session, .schema 0], true, true) := by cbv
  have hstep : Step declared .idle workspace _ := .assembled (s := 0) rfl [root]
  rcases hrun : (compileSchema .idle 0 [root]).runIn workspace with ⟨e | schema, w₁⟩ <;>
    rw [hrun] at hfacts hstep
  · cases hfacts
  obtain ⟨hserial, howners, hperson, hfields⟩ : schema.serial = 0 ∧
      (w₁.session 0).owners = [.session, .schema 0] ∧
      (w₁.entry 0 .objects Friends.person.key).isSome = true ∧
      (w₁.entry 0 .objectFields Friends.person.key).isSome = true := by
    simpa only [Except.toOption, Option.map_some, Option.some.injEq, Prod.mk.injEq] using hfacts
  obtain ⟨person, hperson⟩ := Option.isSome_iff_exists.1 hperson
  obtain ⟨fields, hfields⟩ := Option.isSome_iff_exists.1 hfields
  have hw₁ := hstart.tail hstep
  have hkept : LazyNode.KeptBy w₁ 0 Friends.person.key (.object person) := hperson
  have hlives := (lifetimes_of_steps hw₁).1 0 _ _ hkept
  have hgiven := hlives.given fields w₁
    (hkept.runIn_fields_of_entry (Reachable.sound ⟨state, hw₁⟩).coherent hfields)
  have hlt : 0 < w₁.sessions.length := hkept.lt_length
  have hlt₂ : 0 < (w₁.release 0 .session).sessions.length := by
    rwa [release, length_modifySession]
  have howners₂ : ((w₁.release 0 .session).session 0).owners = [.schema 0] := by
    rw [owners_release_self hlt, howners]
    rfl
  have howners₃ : (((w₁.release 0 .session).release 0 (.schema schema.serial)).session 0).owners =
      [] := by
    rw [owners_release_self hlt₂, howners₂, hserial]
    rfl
  have hw₂ := hw₁.tail (.released w₁ 0 .session)
  have hw₃ := hw₂.tail (.released _ 0 (.schema schema.serial))
  have hsteps₂ : ReflTransGen (Step declared .idle) w₁ _ := .single (.released w₁ 0 .session)
  have hsteps₃ := hsteps₂.tail (.released _ 0 (.schema schema.serial))
  have hlives₃ := (lifetimes_of_steps hw₃).1 0 _ _ (hlives.node _ hsteps₃)
  obtain ⟨map, hmap⟩ := (lifetimes_of_steps hstart).2.2 0 [root] schema w₁ rfl hrun .query
    schema.query rfl
  refine ⟨state, schema, w₁, person, fields, hstart, rfl, hperson, ?_, ?_, map, hmap _ hsteps₃⟩
  · exact hgiven _ hsteps₂ ⟨.schema 0, howners₂ ▸ List.mem_singleton_self _⟩
  · exact hlives₃.released (fun o ho ↦ List.not_mem_nil (howners₃ ▸ ho)) _ .refl

end ApiGraph
