import ApiGraph.Proofs.Compile.Respects

/-!
# Sessions know nothing of one another

What a session compiles does not depend on any other session, and leaves it alone.  So whatever
becomes of the other session makes no difference, whether it happens before or after.

## What is here

* `Workspace.congruence_modifySession`: a change of one session, as a congruence for another one.
* `Compile.Ignores`: a computation that neither looks at a session nor changes it.
* `compileObject_ignores` and `resolveType_ignores`.
-/

set_option autoImplicit false

namespace ApiGraph

variable {σ α : Type} {s b : SessionId}

namespace Workspace

theorem registries_modifySession_of_ne (w : Workspace σ) (f : Session → Session) (h : s ≠ b) :
    (w.modifySession s f).registries b = w.registries b :=
  congrArg Session.registries (w.session_modifySession_of_ne f h)

theorem cache_modifySession_of_ne (w : Workspace σ) (f : Session → Session) (h : s ≠ b) :
    (w.modifySession s f).cache b = w.cache b :=
  congrArg Session.cache (w.session_modifySession_of_ne f h)

theorem isOpen_modifySession_of_ne (w : Workspace σ) (f : Session → Session) (h : s ≠ b) :
    (w.modifySession s f).isOpen b = w.isOpen b :=
  congrArg Session.isOpen (w.session_modifySession_of_ne f h)

/-- Changes of different sessions can be made in either order. -/
theorem modifySession_comm (w : Workspace σ) (f g : Session → Session) (h : s ≠ b) :
    (w.modifySession s f).modifySession b g = (w.modifySession b g).modifySession s f := by
  have hl : (w.sessions.modify s f).modify b g = (w.sessions.modify b g).modify s f :=
    List.modify_modify_ne f g w.sessions h
  rw [modifySession, modifySession, modifySession, modifySession, hl]

/-- Compiling in one session cannot tell whether another one has been changed. -/
theorem congruence_modifySession (h : s ≠ b) (f : Session → Session) :
    Congruence b fun w v : Workspace σ ↦ v = w.modifySession s f where
  registries {w v} hv := hv ▸ w.registries_modifySession_of_ne f h
  cache {w v} hv := hv ▸ w.cache_modifySession_of_ne f h
  isOpen {w v} hv := hv ▸ w.isOpen_modifySession_of_ne f h
  modifyCache {w v} hv g := by
    subst hv
    exact w.modifySession_comm f _ h
  ofHost {w v} hv α step := by
    subst hv
    rfl

end Workspace

/-- A computation neither looks at a session nor changes it: a change of the session may as well be
made afterwards. -/
def Compile.Ignores (s : SessionId) (x : Compile σ α) : Prop :=
  ∀ (f : Session → Session) (w : Workspace σ),
    x.runIn (w.modifySession s f) = ((x.runIn w).1, (x.runIn w).2.modifySession s f)

open Compile (Ignores Respects)

theorem Compile.Ignores.of_respects {x : Compile σ α}
    (h : ∀ f, Respects (fun w v : Workspace σ ↦ v = w.modifySession s f) x) : Ignores s x := by
  intro f w
  obtain ⟨hout, hw⟩ := h f w _ rfl
  exact Prod.ext hout hw

theorem compileObject_ignores (h : s ≠ b) (c : ClassRef) :
    Ignores s (compileObject b c : Compile σ ObjectNode) :=
  .of_respects fun f ↦ compileObject_respects (Workspace.congruence_modifySession h f).accord c

theorem resolveType_ignores (h : s ≠ b) (host : Host σ) (t : TypeRef) (o : ResolveOptions) :
    Ignores s (resolveType host b t o) :=
  .of_respects fun f ↦ resolveType_respects (Workspace.congruence_modifySession h f).concord host t o

end ApiGraph
