import ApiGraph.Execution.Result
import ApiGraph.Proofs.Compile.Failures

/-!
# What the engine gets of a result

A result is converted by the form of its type, and nothing is what nothing is converted to at every
type.  The engine misses a list only where the lists of the result are not those of the type.

## What is here

* `GraphType.toEngine_of_isNullish` and its like: the conversion by the form of the type.
* `GraphType.fits`: a value has the lists of a type.
* `GraphType.toEngine_failsOnly`: if it has, its conversion can fail at its nodes only.
-/

set_option autoImplicit false

namespace ApiGraph

variable {σ : Type} {host : Host σ} (context : Option RequestContext) (info : ResolveInfo)

/-! ## The conversion by the form of the type -/

namespace GraphType

theorem toEngine_of_isNullish (t : GraphType) {v : HostValue} (h : v.isNullish = true) :
    t.toEngine host v context info = pure none := by
  induction t with
  | nonNull inner ih => exact ih
  | named node => rw [toEngine, if_pos h]
  | list item =>
    cases v with
    | undefined | null => rfl
    | scalar w => rw [toEngine, if_pos h]; nofun
    | list | object | instanceOf | foreign => cases h

theorem toEngine_node (n : GraphNode) {v : HostValue} (h : v.isNullish = false) :
    (named n).toEngine host v context info = some <$> n.toEngine host v context info := by
  rw [toEngine, if_neg (Bool.eq_false_iff.1 h)]

theorem toEngine_items (item : GraphType) (items : List HostValue) :
    (list item).toEngine host (.list items) context info = (do
      let converted ← items.mapM fun v ↦ do
        return (← item.toEngine host v context info).getD (.wire .null)
      return some (.list converted)) := rfl

end GraphType

/-! ## Values that have the lists of a type -/

theorem HostValue.list?_eq_some_iff {v : HostValue} {items : List HostValue} :
    v.list? = some items ↔ v = .list items := by
  cases v <;> simp [list?]

theorem HostValue.list?_of_isNullish {v : HostValue} (h : v.isNullish = true) : v.list? = none := by
  cases v with
  | list => cases h
  | undefined | null | scalar | object | instanceOf | foreign => rfl

/-- At a node there are two errors: a name that an enum does not have, and a value whose type is
not known. -/
theorem GraphNode.toEngine_failsOnly (n : GraphNode) (v : HostValue) :
    FailsOnly (fun e ↦ ∀ c, e ≠ .cast c) (n.toEngine host v context info) := by
  cases n with
  | scalar n | input n | object n => exact .pure _
  | enum n =>
    refine .map (.mk_pure fun e he ↦ ?_) EngineValue.wire
    rw [EnumNode.write] at he
    split at he <;> cases he
    nofun
  | union n | interface n =>
    refine (FailsOnly.lift _).bind fun name ↦ .mk_pure fun e he ↦ ?_
    cases name <;> cases he
    nofun

namespace GraphType

/-- Whether the lists of a value are those of a type: a list or nothing where the type has a list,
and all items alike; no list where it has a node. -/
def fits : GraphType → HostValue → Bool
  | .named _, v => v.list?.isNone
  | .nonNull inner, v => inner.fits v
  | .list item, v => v.isNullish || v.list?.any fun items ↦ items.all item.fits

theorem fits_list_iff {item : GraphType} {v : HostValue} :
    (list item).fits v = true ↔
      v.isNullish = true ∨ ∃ items, v = .list items ∧ ∀ i ∈ items, item.fits i = true := by
  simp [fits, Option.any_eq_true, HostValue.list?_eq_some_iff]

/-- Where the lists of a result are those of the type, the engine misses none. -/
theorem toEngine_failsOnly {t : GraphType} {v : HostValue} (hv : t.fits v = true) :
    FailsOnly (fun e ↦ ∀ c, e ≠ .cast c) (t.toEngine host v context info) := by
  induction t generalizing v with
  | nonNull inner ih => exact ih hv
  | named n =>
    cases hnull : v.isNullish with
    | true => exact toEngine_of_isNullish context info (named n) hnull ▸ .pure none
    | false => exact toEngine_node context info n hnull ▸ (n.toEngine_failsOnly context info v).map _
  | list item ih =>
    rcases fits_list_iff.1 hv with hnull | ⟨items, rfl, hitems⟩
    · exact toEngine_of_isNullish context info (list item) hnull ▸ .pure none
    · rw [toEngine_items]
      refine (FailsOnly.mapM fun i hi ↦ ?_).bind fun _ ↦ .pure _
      exact (ih (hitems i hi)).bind fun _ ↦ .pure _

end GraphType
end ApiGraph
