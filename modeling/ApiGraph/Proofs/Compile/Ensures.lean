import ApiGraph.Proofs.Compile.Run
import ApiGraph.Schema.Assembly

/-!
# Invariants of compiling

Some facts hold of everything that any workspace keeps, whatever was asked of it and with whatever
success.  Such a fact is an invariant of all computations, and what a computation succeeds with is
good in the sense of the same fact.  Nothing else is needed of a workspace: it need not be coherent.

## What is here

* `Compile.Ensures`: a computation preserves an invariant and succeeds with good values only; with
  a rule for each way of putting computations together.
* `Compile.Ensures.remember`: the rule for tables.
* `gatherRoots_ensures`, `collectTypes_ensures`: the rules for the two loops of a schema.
-/

set_option autoImplicit false

namespace ApiGraph
namespace Compile

variable {σ α β : Type} {I : Workspace σ → Prop} {good : α → Prop} {good' : β → Prop}

/-- A computation preserves an invariant of workspaces, and what it succeeds with is good. -/
def Ensures (I : Workspace σ → Prop) (x : Compile σ α) (good : α → Prop := fun _ ↦ True) : Prop :=
  ∀ w, I w → I (x.runIn w).2 ∧ ∀ a, (x.runIn w).1 = .ok a → good a

namespace Ensures

protected theorem pure {a : α} (ha : good a) : Ensures I (pure a : Compile σ α) good :=
  fun _ hw ↦ ⟨hw, fun _ h ↦ Except.ok.inj h ▸ ha⟩

protected theorem throw (e : CompileError) : Ensures I (throw e : Compile σ α) good :=
  fun _ hw ↦ ⟨hw, nofun⟩

theorem mk_pure (r : Except CompileError α) : Ensures I (ExceptT.mk (pure r) : Compile σ α) :=
  fun _ hw ↦ ⟨hw, fun _ _ ↦ trivial⟩

theorem weaken {x : Compile σ α} {good' : α → Prop} (hx : Ensures I x good)
    (h : ∀ a, good a → good' a) : Ensures I x good' :=
  fun w hw ↦ ⟨(hx w hw).1, fun a ha ↦ h a ((hx w hw).2 a ha)⟩

/-- The second computation may rely on the first one having succeeded with something good. -/
theorem bind {x : Compile σ α} {f : α → Compile σ β} (hx : Ensures I x good)
    (hf : ∀ a, good a → Ensures I (f a) good') : Ensures I (x >>= f) good' := by
  intro w hw
  obtain ⟨hinv, hgood⟩ := hx w hw
  rcases hrun : x.runIn w with ⟨e | a, w'⟩ <;> rw [hrun] at hinv hgood
  · rw [runIn_bind_of_error hrun]
    exact ⟨hinv, nofun⟩
  · rw [runIn_bind_of_ok hrun]
    exact hf a (hgood a rfl) w' hinv

theorem map {x : Compile σ α} {f : α → β} (hx : Ensures I x good)
    (h : ∀ a, good a → good' (f a)) : Ensures I (f <$> x) good' := by
  rw [← bind_pure_comp]
  exact hx.bind fun a ha ↦ .pure (h a ha)

/-- What is read of a workspace is read of one that has the invariant. -/
theorem get {f : Workspace σ → Compile σ α} (h : ∀ w, I w → Ensures I (f w) good) :
    Ensures I (get >>= f) good :=
  fun w hw ↦ h w hw w hw

theorem modify {f : Workspace σ → Workspace σ} (h : ∀ w, I w → I (f w)) :
    Ensures I (modify f : Compile σ Unit) :=
  fun w hw ↦ ⟨h w hw, fun _ _ ↦ trivial⟩

theorem ofHost (h : ∀ w state, I w → I { w with host := state }) (step : StateM σ α) :
    Ensures I (Compile.ofHost step) :=
  fun w hw ↦ ⟨h w _ hw, fun _ _ ↦ trivial⟩

/-- Whatever is caught, the invariant has survived it. -/
theorem tryCatch {x : Compile σ α} {f : CompileError → Compile σ α} (hx : Ensures I x good)
    (hf : ∀ e, Ensures I (f e) good) : Ensures I (tryCatch x f) good := by
  intro w hw
  obtain ⟨hinv, hgood⟩ := hx w hw
  rcases hrun : x.runIn w with ⟨e | a, w'⟩ <;> rw [hrun] at hinv hgood
  · rw [runIn_tryCatch_of_error hrun]
    exact hf e w' hinv
  · rw [runIn_tryCatch_of_ok hrun]
    exact ⟨hinv, hgood⟩

/-- If every item succeeds with something good, all of what they succeed with is. -/
theorem mapM {f : α → Compile σ β} {l : List α} (h : ∀ a ∈ l, Ensures I (f a) good') :
    Ensures I (l.mapM f) fun bs ↦ ∀ b ∈ bs, good' b := by
  induction l with
  | nil => exact .pure (List.forall_mem_nil _)
  | cons a rest ih =>
    rw [List.mapM_cons]
    refine (h a List.mem_cons_self).bind fun b hb ↦ ?_
    refine (ih fun x hx ↦ h x (List.mem_cons_of_mem _ hx)).bind fun bs hbs ↦ ?_
    exact .pure (List.forall_mem_cons.2 ⟨hb, hbs⟩)

theorem foldlM {f : β → α → Compile σ β} (h : ∀ b, good' b → ∀ a, Ensures I (f b a) good')
    (l : List α) {b : β} (hb : good' b) : Ensures I (l.foldlM f b) good' := by
  induction l generalizing b with
  | nil => exact .pure hb
  | cons a rest ih =>
    rw [List.foldlM_cons]
    exact (h b hb a).bind fun b' hb' ↦ ih hb'

theorem requireOpen (s : SessionId) : Ensures I (Compile.requireOpen s : Compile σ Unit) := by
  refine .get fun w _ ↦ ?_
  split
  · exact .pure trivial
  · exact .throw _

/-- What is made is good, so it can be kept; what is kept is good, so it can be given. -/
theorem remember {s : SessionId} {t : CacheTable} {key : TypeKey} {make : Compile σ t.Value}
    {good : t.Value → Prop} (hentry : ∀ w v, I w → w.entry s t key = some v → good v)
    (hkeep : ∀ w v, I w → good v → I (w.keep s t key v)) (hmake : Ensures I make good) :
    Ensures I (remember s t key make) good := by
  refine .get fun w hw ↦ ?_
  cases hfind : OrderedMap.find ((w.cache s).table t) key with
  | some known => exact .pure (hentry w known hw hfind)
  | none =>
    refine hmake.bind fun v hv ↦ ?_
    exact (Ensures.modify fun w hw ↦ hkeep w v hw hv).bind fun _ _ ↦ .pure hv

end Ensures
end Compile

/-! ## The loops of a schema -/

open Compile (Ensures)

variable {σ : Type} {I : Workspace σ → Prop} (host : Host σ)

/-- Gathering root fields runs steps of the program and changes nothing else. -/
theorem gatherRoots_ensures (h : ∀ w state, I w → I { w with host := state }) (s : SessionId)
    (roots : List ClassRef) : Ensures I (gatherRoots host s roots) := by
  refine Ensures.foldlM (fun fields _ root ↦ ?_) roots trivial
  refine .get fun w _ ↦ ?_
  dsimp only
  split
  · exact .throw _
  rename_i spec hspec
  have hserved : Ensures I (makeRoot host root spec) := by
    rw [makeRoot]
    split
    · exact .ofHost h _
    · exact .pure trivial
  refine hserved.bind fun served _ ↦ ?_
  exact (Ensures.mk_pure _).bind fun own _ ↦ .mk_pure _

/-- The walk through the types asks for the successors of nodes and changes nothing else. -/
theorem collectTypes_ensures (h : ∀ n, Ensures I (GraphNode.successors host n))
    (start : List GraphNode) : Ensures I (collectTypes host start) := by
  have hvisit : ∀ left pending seen, Ensures I (visit host left pending seen) := by
    intro left pending seen
    fun_induction visit host left pending seen with
    | case1 => exact .pure trivial
    | case2 left node rest seen known hfind hsame ih => exact ih
    | case3 => exact .throw _
    | case4 => exact .throw _
    | case5 seen node rest hfind seen' hcomposite left ih =>
      exact (h node).bind fun found _ ↦ ih found
    | case6 => assumption
  exact .get fun w _ ↦ (hvisit _ _ _).bind fun _ _ ↦ .pure trivial

end ApiGraph
