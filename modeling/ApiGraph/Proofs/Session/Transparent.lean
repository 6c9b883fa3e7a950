import ApiGraph.Proofs.Schema.Again
import ApiGraph.Proofs.Schema.Complete

/-!
# Tables do not show

Whatever has been asked of a session before, a schema that is compiled comes out as it would have
come out at once.  And whatever is asked for a declaration in a role, and whichever way it is asked,
the node that is given is the one that was given the first time.

## What is here

* `Workspace.Consults`: a call that compiles something and registers nothing.
* `Workspace.aged_of_consults`: what has become of a workspace in a run of such calls.
* `Workspace.Obtains`: the calls that give the node of a declaration in a role.
* `compileSchema_transparent`: all of it.
-/

set_option autoImplicit false

namespace ApiGraph

open Compile (Parallel Respects Settles)
open Relation (ReflTransGen)

variable {σ : Type} {d : Declarations} {host : Host σ} {w₀ w v w' : Workspace σ} {s : SessionId}

/-! ## Requests in an aged workspace -/

section Requests

variable (hw₀ : w₀.Coherent d)
include hw₀

/-- The type of a reference comes out the same in two aged workspaces, even if the reference names
roots that were not there at first. -/
theorem resolveType_parallel (hs : s < w₀.sessions.length) {offered : GraphNode → Prop}
    {t : TypeRef} (ht : t.Within d offered) (o : ResolveOptions) (hw : w₀.Aged d host w)
    (hv : w₀.Aged d host v) :
    Parallel d host w₀ w v id (fun _ _ _ ↦ True) (resolveType host s t o)
      (resolveType host s t o) := by
  induction ht generalizing o w v with
  | node h | scalar scalar =>
    rw [resolveType]
    exact .pure hw hv trivial
  | cls h =>
    rw [resolveType]
    have hsettles : Settles d host w₀ [] _ _ := compileClass_settles hw₀ hs h o.argument
    exact (hsettles.parallel hw₀ (.refl hw₀) (List.forall_mem_nil _) hw hv
      (compileClass_respects (hw.kin.congruence s).accord (hw.kin.congruence s).concord.unions _ _)
      (compileClass_respects (hv.kin.congruence s).accord (hv.kin.congruence s).concord.unions _
        _)).bind fun _ _ _ _ _ hw hv _ ↦ .pure hw hv trivial
  | enum h =>
    rw [resolveType]
    have hsettles : Settles d host w₀ [] _ _ := compileEnum_settles hw₀ hs h
    exact (hsettles.parallel hw₀ (.refl hw₀) (List.forall_mem_nil _) hw hv
      (compileEnum_respects (hw.kin.congruence s).accord _)
      (compileEnum_respects (hv.kin.congruence s).accord _)).bind
        fun _ _ _ _ _ hw hv _ ↦ .pure hw hv trivial
  | @array items _ ih =>
    rcases items with _ | ⟨item, _ | ⟨second, rest⟩⟩
    · rw [resolveType]
      · exact .throw hw hv _
      · rintro item ⟨⟩
    · rw [resolveType]
      exact (ih item (List.mem_singleton_self _) _ hw hv).bind
        fun _ _ _ _ _ hw hv _ ↦ .pure hw hv trivial
    · rw [resolveType]
      · exact .throw hw hv _
      · rintro item ⟨⟩
  | @thunk label _ _ ih =>
    rw [resolveType]
    split
    · have hforced : Parallel d host w₀ w v id (fun _ _ _ ↦ True)
          (Compile.ofHost (host.forced label)) (Compile.ofHost (host.forced label)) :=
        .of_ok rfl rfl (hw.ofHost _) (hv.ofHost _) trivial
      refine hforced.bind fun _ _ _ _ _ hw hv _ ↦ ?_
      split
      · exact .throw hw hv _
      · exact ih _ hw hv
    · exact .throw hw hv _

namespace Workspace

/-- A request leaves an aged workspace. -/
theorem Aged.request (ha : w₀.Aged d host w) (hw : w.Coherent d) {α : Type} {x : Compile σ α}
    (hx : w.Request d host x) : w₀.Aged d host (x.runIn w).2 := by
  have hcong := ha.kin.congruence
  have hlt {s : SessionId} (hs : w.isOpen s = true) : s < w₀.sessions.length :=
    ha.kin.sessions ▸ lt_length_of_isOpen hs
  -- what is asked settles in the first workspace, if it can be told what it settles to
  have hsettled {α : Type} {x : Compile σ α} {nodes : α → List GraphNode} {good : α → Prop}
      (hx : Settles d host w₀ [] x nodes good) (hr : Respects (w₀.Beside w) x) :
      w₀.Aged d host (x.runIn w).2 := (hx.aged hw₀ ha hr).2.2
  cases hx with
  | object hs hc =>
    exact hsettled (compileObject_settles hw₀ (hlt hs) hc)
      (compileObject_respects (hcong _).accord _)
  | input hs hc =>
    exact hsettled (compileInput_settles hw₀ (hlt hs) hc) (compileInput_respects (hcong _).accord _)
  | enum hs he =>
    exact hsettled (compileEnum_settles hw₀ (hlt hs) he) (compileEnum_respects (hcong _).accord _)
  | union hs hc =>
    exact hsettled (compileUnion_settles hw₀ (hlt hs) hc)
      (compileUnion_respects (hcong _).accord (hcong _).concord.unions _)
  | interface hs hc =>
    exact hsettled (compileInterface_settles hw₀ (hlt hs) hc)
      (compileInterface_respects (hcong _).accord _)
  | reference hs ht o => exact (resolveType_parallel hw₀ (hlt hs) ht o ha ha).left
  | @objectFields n hn =>
    rcases hn.1 with ⟨s, key, h⟩ | ⟨⟨serial, operation⟩, fields, h⟩
    · exact (ObjectNode.fields_aged hw₀ ha (ha.attains_of_entry h _ List.mem_cons_self)).2
    · have hid : n.id = .root serial operation := by rw [(hw.roots h).1, rootNode]
      rw [ObjectNode.runIn_fields_of_kept (.inr ⟨serial, operation, n, hid, h⟩)]
      exact ha
  | interfaceFields hn =>
    obtain ⟨s, key, h⟩ := hn.1
    exact (InterfaceNode.fields_aged hw₀ ha (ha.attains_of_entry h _ List.mem_cons_self)).2
  | inputFields hn =>
    obtain ⟨s, key, h⟩ := hn.1
    exact (InputNode.fields_aged hw₀ ha (ha.attains_of_entry h _ List.mem_cons_self)).2
  | implementations hn =>
    obtain ⟨s, key, h⟩ := hn.1
    exact (InterfaceNode.implementations_aged hw₀ ha
      (ha.attains_of_entry h _ List.mem_cons_self)).2

end Workspace
end Requests

/-! ## Runs without a registration -/

namespace Workspace

/-- A call that compiles something, with or without success, and registers nothing. -/
inductive Consults (d : Declarations) (host : Host σ) : Workspace σ → Workspace σ → Prop
  /-- The compiler is asked for a node, a type, the fields or the implementors of a node. -/
  | asked {w : Workspace σ} {α : Type} {x : Compile σ α} (hx : w.Request d host x) :
    Consults d host w (x.runIn w).2
  /-- A schema is compiled, or cannot be. -/
  | assembled {w : Workspace σ} {s : SessionId} (hs : w.isOpen s = true) (roots : List ClassRef) :
    Consults d host w ((compileSchema host s roots).runIn w).2
  /-- The program runs code of its own. -/
  | moved (w : Workspace σ) (state : σ) : Consults d host w { w with host := state }
  /-- A resolver is called. -/
  | called (w : Workspace σ) : Consults d host w { w with nextCall := w.nextCall + 1 }

theorem Consults.step (h : Consults d host w w') : Step d host w w' := by
  cases h with
  | asked hx => exact .asked hx
  | assembled hs roots => exact .assembled hs roots
  | moved state => exact .moved w state
  | called => exact .called w

theorem Consults.aged (hhost : host.Steady) (hw₀ : w₀.Sound d) (hw : w.Sound d)
    (ha : w₀.Aged d host w) (h : Consults d host w w') : w₀.Aged d host w' := by
  cases h with
  | asked hx => exact ha.request hw₀.coherent hw.coherent hx
  | @assembled s hs roots =>
    have hlt : s < w₀.sessions.length := ha.kin.sessions ▸ lt_length_of_isOpen hs
    exact (compileSchema_renumber hw₀ hhost hlt ha hw roots).right
  | moved state => exact ha.ofHost state
  | called => exact ha.of_same (ha.kin.of_bare rfl) fun _ ↦ rfl

/-- **Nothing ages in a run without a registration.** -/
theorem aged_of_consults (hhost : host.Steady) (hw₀ : w₀.Sound d)
    (h : ReflTransGen (Consults d host) w₀ w) : w₀.Aged d host w ∧ w.Sound d := by
  induction h with
  | refl => exact ⟨.refl hw₀.coherent, hw₀⟩
  | tail _ hstep ih => exact ⟨hstep.aged hhost hw₀ ih.2 ih.1, hstep.step.sound ih.2⟩

/-! ## One node for a declaration in a role -/

/-- A call for a declaration in a role has given a node, and left a workspace. -/
inductive Obtains (d : Declarations) (host : Host σ) (w : Workspace σ) (s : SessionId) :
    Role → TypeKey → GraphNode → Workspace σ → Prop
  | object {c : ClassRef} {n : ObjectNode} {w' : Workspace σ} (hs : w.isOpen s = true)
    (hc : d.classes c) (h : (compileObject s c).runIn w = (.ok n, w')) :
    Obtains d host w s .object c.key (.object n) w'
  | input {c : ClassRef} {n : InputNode} {w' : Workspace σ} (hs : w.isOpen s = true)
    (hc : d.classes c) (h : (compileInput s c).runIn w = (.ok n, w')) :
    Obtains d host w s .input c.key (.input n) w'
  | enum {e : EnumDef} {n : EnumNode} {w' : Workspace σ} (hs : w.isOpen s = true)
    (he : d.enums e) (h : (compileEnum s e).runIn w = (.ok n, w')) :
    Obtains d host w s .enum e.key (.enum n) w'
  | union {c : ClassRef} {n : UnionNode} {w' : Workspace σ} (hs : w.isOpen s = true)
    (hc : d.classes c) (h : (compileUnion s c).runIn w = (.ok n, w')) :
    Obtains d host w s .union c.key (.union n) w'
  | interface {c : ClassRef} {n : InterfaceNode} {w' : Workspace σ} (hs : w.isOpen s = true)
    (hc : d.classes c) (h : (compileInterface s c).runIn w = (.ok n, w')) :
    Obtains d host w s .interface c.key (.interface n) w'
  /-- The type of a reference has the declaration in the role at the bottom. -/
  | reference {t : TypeRef} {o : ResolveOptions} {g : GraphType} {role : Role} {key : TypeKey}
    {w' : Workspace σ} (hs : w.isOpen s = true) (ht : t.Within d (w.Offers d))
    (h : (resolveType host s t o).runIn w = (.ok g, w'))
    (hid : g.node.id = .compiled s role key) : Obtains d host w s role key g.node w'

/-- The node that has been given is the one of its identity from then on. -/
theorem Obtains.node? (hw : w.Sound d) {role : Role} {key : TypeKey}
    {n : GraphNode} (h : w.Obtains d host s role key n w') :
    w'.Sound d ∧ w.Follows w' ∧ w'.node? (.compiled s role key) = some n := by
  have hleft {α : Type} {x : Compile σ α} {a : α} {w' : Workspace σ} (hx : w.Request d host x)
      (h : x.runIn w = (.ok a, w')) : w'.Sound d ∧ w.Follows w' := by
    have hstep : Step d host w w' := by
      have hstep := Step.asked hx
      rwa [h] at hstep
    exact ⟨hstep.sound hw, hstep.follows hw⟩
  have hmade {t : CacheTable} {key : TypeKey} {make : Compile σ t.Value} {x : t.Value}
      {w' : Workspace σ} (hs : w.isOpen s = true)
      (hx : w.Request d host (Compile.remember s t key make))
      (h : (Compile.remember s t key make).runIn w = (.ok x, w')) :
      w'.Sound d ∧ w.Follows w' ∧ w'.entry s t key = some x := by
    obtain ⟨hw', hf⟩ := hleft hx h
    exact ⟨hw', hf, Compile.entry_of_runIn_remember h
      (Nat.lt_of_lt_of_le (lt_length_of_isOpen hs) hf.sessions)⟩
  cases h with
  | object hs hc h =>
    obtain ⟨hw', hf, hentry⟩ := hmade (t := .objects) hs (.object hs hc) h
    exact ⟨hw', hf, by rw [Workspace.node?, hentry, Option.map_some]⟩
  | input hs hc h =>
    obtain ⟨hw', hf, hentry⟩ := hmade (t := .inputs) hs (.input hs hc) h
    exact ⟨hw', hf, by rw [Workspace.node?, hentry, Option.map_some]⟩
  | enum hs he h =>
    obtain ⟨hw', hf, hentry⟩ := hmade (t := .enums) hs (.enum hs he) h
    exact ⟨hw', hf, by rw [Workspace.node?, hentry, Option.map_some]⟩
  | union hs hc h =>
    obtain ⟨hw', hf, hentry⟩ := hmade (t := .unions) hs (.union hs hc) h
    exact ⟨hw', hf, by rw [Workspace.node?, hentry, Option.map_some]⟩
  | interface hs hc h =>
    obtain ⟨hw', hf, hentry⟩ := hmade (t := .interfaces) hs (.interface hs hc) h
    exact ⟨hw', hf, by rw [Workspace.node?, hentry, Option.map_some]⟩
  | @reference t o g role key w' hs ht h hid =>
    obtain ⟨hw', hf⟩ := hleft (.reference hs ht o) h
    have hsettles : Settles d host w [] _ _ :=
      resolveType_settles hw.coherent (lt_length_of_isOpen hs) ht o
    have hoffers := hsettles.offers (.refl hw.coherent) (List.forall_mem_nil _)
      (congrArg Prod.fst h) g.node List.mem_cons_self
    rw [h] at hoffers
    refine ⟨hw', hf, ?_⟩
    -- a node that the program has made by hand has no identity of this kind
    rcases hw'.coherent.node?_id hoffers.1 with hmade | hnode
    · obtain ⟨serial, hserial⟩ := hmade.custom
      rw [hserial] at hid
      cases hid
    · rwa [hid] at hnode

/-- What an identity stands for it stands for in every later workspace. -/
theorem Follows.node? (h : w.Follows w') {role : Role} {key : TypeKey} {n : GraphNode}
    (hn : w.node? (.compiled s role key) = some n) :
    w'.node? (.compiled s role key) = some n := by
  cases role with
  | object | input | enum | union | interface =>
    obtain ⟨x, hx, rfl⟩ := Option.map_eq_some_iff.1 hn
    exact Option.map_eq_some_iff.2 ⟨x, h.node rfl hx, rfl⟩

end Workspace

open Workspace (Consults Obtains Step aged_of_consults)

/-- **Tables do not show.**  Take any workspace of a run, of a program whose constructors always
give the same instance, and a session that is open in it.  Ask the compiler for anything, any number
of times, for schemas too, with or without success, but register nothing.  Then a schema comes to
what it comes to in the untouched workspace: to the same error, or to the same schema with another
serial number for its roots.  Its types have the same names in the same order, and the same fields,
arguments and implementors.  And the node that has once been given for a declaration in a role is
kept, and is given by every later call, whatever else the run does, registrations included. -/
theorem compileSchema_transparent (hhost : host.Steady) (hw₀ : w₀.Reachable d host)
    (hs : w₀.isOpen s = true) (hrun : ReflTransGen (Consults d host) w₀ w)
    (roots : List ClassRef) :
    ((compileSchema host s roots).runIn w).1 =
        ((compileSchema host s roots).runIn w₀).1.map (Schema.renumber w.nextSchema) ∧
      (∀ schema w₁ schema' w₁', (compileSchema host s roots).runIn w₀ = (.ok schema, w₁) →
        (compileSchema host s roots).runIn w = (.ok schema', w₁') →
          schema'.types.map GraphNode.name = schema.types.map GraphNode.name ∧
          List.Forall₂ (GraphNode.Agrees host w₁ w₁') schema.types schema'.types) ∧
      ∀ b role key n w₁ w₁' w₂, ReflTransGen (Step d host) w₀ w₁ →
        w₁.Obtains d host b role key n w₁' → ReflTransGen (Step d host) w₁' w₂ →
          w₂.node? (.compiled b role key) = some n ∧
            ∀ m w₂', w₂.Obtains d host b role key m w₂' → m = n := by
  have hsound := hw₀.sound
  obtain ⟨haged, hw⟩ := aged_of_consults hhost hsound hrun
  have hlt : s < w₀.sessions.length := Workspace.lt_length_of_isOpen hs
  have hsame := compileSchema_renumber hsound hhost hlt haged hw roots
  refine ⟨hsame.outcome, fun schema w₁ schema' w₁' h h' ↦ ?_, ?_⟩
  · have hout := hsame.outcome
    have hagrees := hsame.good schema (congrArg Prod.fst h)
    rw [h, h'] at hout hagrees
    cases hout
    refine ⟨by simp [Schema.renumber], ?_⟩
    exact List.forall₂_map_right_iff.2 (List.forall₂_same.2 hagrees)
  · intro b role key n w₁ w₁' w₂ hrun₁ hn hrun₂
    have hw₁ := (Workspace.follows_of_steps hrun₁ hsound).1
    obtain ⟨hw₁', -, hnode⟩ := hn.node? hw₁
    obtain ⟨hw₂, hlater⟩ := Workspace.follows_of_steps hrun₂ hw₁'
    refine ⟨hlater.node? hnode, fun m w₂' hm ↦ ?_⟩
    obtain ⟨-, hfollows, hnode'⟩ := hm.node? hw₂
    exact Option.some.inj (hnode'.symm.trans ((hlater.trans hfollows).node? hnode))

open Friends in
/-- A schema of two classes after one that could not be compiled, a request for one of the classes,
and the same schema: it comes out as it did at first, but for the serial number of its root. -/
theorem compileSchema_transparent_friends :
    Host.Steady .idle ∧ workspace.Reachable declared .idle ∧ workspace.isOpen 0 = true ∧
      ∃ w, ReflTransGen (Consults declared .idle) workspace w ∧
        (∃ e, ((compileSchema .idle 0 [person]).runIn workspace).1 = .error e) ∧
        ((compileSchema .idle 0 [root]).runIn w).1.toOption.map
            (fun schema ↦ (schema.query.id, schema.types.map GraphNode.name)) =
          some (.root 1 .query, ["Query", "Person"]) := by
  have hhost : Host.Steady .idle := fun _ ↦ ⟨_, fun _ ↦ rfl⟩
  have hperson : declared.classes person := List.mem_cons_of_mem _ List.mem_cons_self
  have hrun : ReflTransGen (Consults declared .idle) workspace _ :=
    ((ReflTransGen.single (.assembled (s := 0) rfl [person])).tail
      (.asked (.object (s := 0) rfl hperson))).tail (.assembled (s := 0) rfl [root])
  refine ⟨hhost, reachable, rfl, _, hrun, ⟨.assembly (.notSchemaRoot "Person"), by cbv⟩, ?_⟩
  rw [(compileSchema_transparent hhost reachable rfl hrun [root]).1]
  cbv

end ApiGraph
