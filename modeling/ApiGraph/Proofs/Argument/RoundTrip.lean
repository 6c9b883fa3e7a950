import ApiGraph.Proofs.Argument.Convert
import ApiGraph.Proofs.Result
import ApiGraph.Proofs.Session.Steps
import ApiGraph.Proofs.Wire

/-!
# Arguments that are given back

What the engine sends as an argument of a type, it gets back as a result of the same type: what a
scalar holds as it was, down to the order of keys, and members of enums as members, whether they
were sent as such or as strings.  The only other difference is the one that conversion is there to
make: a value that is no list, where the type has one, comes back in a list.

## What is here

* `EnumDef.Invertible`: an enum that tells its members apart by their values.
* `GraphType.coerce`: what the engine is to get back of a value.
* `EngineValue.wire?`: the value of the wire that a result comes to.
* `convertArgument_toEngine`: it comes to what the engine is to get back.
-/

set_option autoImplicit false

namespace ApiGraph

variable {σ : Type}

/-! ## Enums -/

/-- The members of an enum can be told apart by their values, and none of them is null or without a
name. -/
structure EnumDef.Invertible (d : EnumDef) : Prop where
  name_ne : ∀ m ∈ d.members, m.name ≠ ""
  isNull : ∀ m ∈ d.members, m.value.isNull = false
  keyed : ∀ m ∈ d.members, m.value.keyed = true
  apart : d.members.Pairwise fun a b ↦ a.value.same b.value = false

namespace EnumDef.Invertible

variable {d : EnumDef} (hd : d.Invertible)
include hd

theorem valueOf?_empty : d.valueOf? "" = none := by
  rw [valueOf?, Option.map_eq_none_iff, List.find?_eq_none]
  exact fun m hm ↦ by simpa using hd.name_ne m hm

/-- The value of a name is not null, and is that of no other member. -/
theorem nameOf?_of_valueOf? {name : String} {value : WireValue} (h : d.valueOf? name = some value) :
    value.isNull = false ∧ d.nameOf? value = some name := by
  obtain ⟨m, hfind, rfl⟩ := Option.map_eq_some_iff.1 h
  have hm : m ∈ d.members := List.mem_of_find?_eq_some hfind
  obtain ⟨hname, before, after, hsplit, -⟩ := List.find?_eq_some_iff_append.1 hfind
  refine ⟨hd.isNull m hm, ?_⟩
  have hself : (d.members.find? fun m' ↦ m'.value.same m.value) = some m := by
    refine List.find?_eq_some_iff_append.2 ⟨m.value.same_self (hd.keyed m hm), before, after,
      hsplit, fun a ha ↦ ?_⟩
    have hapart := hsplit ▸ hd.apart
    rw [(List.pairwise_append.1 hapart).2.2 a ha m List.mem_cons_self]
    rfl
  rw [nameOf?, hself, Option.map_some, beq_iff_eq.1 hname]

end EnumDef.Invertible

/-- Whether what is sent at a node can be given back there: a scalar, or an enum with members that
can be told apart. -/
def GraphNode.Exchanges : GraphNode → Prop
  | .scalar _ => True
  | .enum n => n.definition.Invertible
  | .object _ | .input _ | .union _ | .interface _ => False

/-! ## What is to come back -/

/-- What the engine is to get back of a value at a type: null is null everywhere, what is no list is
the only item of one where the type has a list, and a text at an enum is the member of that
name. -/
def GraphType.coerce : GraphType → WireValue → WireValue
  | _, .null => .null
  | .nonNull inner, v => inner.coerce v
  | .list item, .list items => .list (items.map item.coerce)
  | .list item, v => .list [item.coerce v]
  | .named (.enum _), .string name => .enum name
  | .named _, v => v

mutual

/-- The value of the wire that a value of the engine is; sources of objects are none. -/
def EngineValue.wire? : EngineValue → Option WireValue
  | .wire v => some v
  | .list items => (EngineValue.wires? items).map .list
  | .source _ | .typed _ _ => none

/-- The values of the wire that the items of a list are. -/
def EngineValue.wires? : List EngineValue → Option (List WireValue)
  | [] => some []
  | e :: rest => do return (← e.wire?) :: (← EngineValue.wires? rest)

end

/-- The value of the wire that a result comes to; one that is missing comes to null. -/
def EngineValue.denote (e : Option EngineValue) : Option WireValue := (e.getD (.wire .null)).wire?

/-- A result is given back as a value: at any time and in any context its conversion succeeds,
leaves everything as it is, and comes to the value. -/
def GraphType.Restores (σ : Type) (type : GraphType) (result : HostValue) (v : WireValue) : Prop :=
  ∀ (host : Host σ) (context : Option RequestContext) (info : ResolveInfo) (w : Workspace σ),
    ∃ e, Execute.runIn (type.toEngine host result context info) w = (.ok e, w) ∧
      EngineValue.denote e = some v

/-! ## At a node -/

/-- What is read at a node is something, and is written there as it was sent. -/
theorem GraphNode.Exchanges.toEngine {n : GraphNode} (hn : n.Exchanges) {v : WireValue}
    (hv : v ≠ .null) {result : HostValue} (h : n.readName v v.member = .ok result) :
    result.isNullish = false ∧
      ∀ (host : Host σ) (context : Option RequestContext) (info : ResolveInfo),
        n.toEngine host result context info = pure (.wire ((GraphType.named n).coerce v)) := by
  cases n with
  | scalar n =>
    cases h
    rw [HostValue.isNullish_ofWire]
    refine ⟨?_, fun host context info ↦ ?_⟩
    · cases v <;> first | rfl | exact absurd rfl hv
    · have hcoerce : (GraphType.named (.scalar n)).coerce v = v := by
        cases v <;> rfl
      rw [GraphNode.toEngine, HostValue.toWire_ofWire, hcoerce]
  | enum n =>
    replace hn : n.definition.Invertible := hn
    rw [GraphNode.readName, EnumNode.read] at h
    split at h
    · rename_i value hvalue
      cases h
      obtain ⟨hnull, hname⟩ := hn.nameOf?_of_valueOf? hvalue
      refine ⟨HostValue.isNullish_ofWire value ▸ hnull, fun host context info ↦ ?_⟩
      have hcoerce : (GraphType.named (.enum n)).coerce v = .enum v.member := by
        cases v with
        | string | enum => rfl
        | null => exact absurd rfl hv
        | boolean | number | binary | list | object => cases hn.valueOf?_empty.symm.trans hvalue
      rw [GraphNode.toEngine, HostValue.toWire_ofWire, EnumNode.write, hname, hcoerce]
      rfl
    · cases h
  | object | input | union | interface => exact hn.elim

/-! ## At any type -/

namespace GraphType.Restores

variable {type item : GraphType}

theorem null (type : GraphType) : type.Restores σ .null .null :=
  fun host context info w ↦
    ⟨none, by rw [toEngine_of_isNullish context info type rfl]; rfl, rfl⟩

/-- A list is given back by giving back its items. -/
theorem list {results : List HostValue} {vs : List WireValue}
    (h : List.Forall₂ (item.Restores σ) results vs) :
    (GraphType.list item).Restores σ (.list results) (.list vs) := by
  intro host context info w
  have hitems : ∃ es, Execute.runIn (results.mapM fun v ↦ do
      return (← item.toEngine host v context info).getD (.wire .null)) w = (.ok es, w) ∧
        EngineValue.wires? es = some vs := by
    induction h with
    | nil => exact ⟨[], rfl, rfl⟩
    | @cons result v _ _ hone _ ih =>
      obtain ⟨e, hrun, he⟩ := hone host context info w
      obtain ⟨es, hruns, hes⟩ := ih
      have hfirst : Execute.runIn (do
          return (← item.toEngine host result context info).getD (.wire .null)) w =
            (.ok (e.getD (.wire .null)), w) := by
        rw [Execute.runIn_bind_of_ok hrun]
        rfl
      refine ⟨e.getD (.wire .null) :: es, ?_, ?_⟩
      · rw [List.mapM_cons, Execute.runIn_bind_of_ok hfirst, Execute.runIn_bind_of_ok hruns]
        rfl
      · rw [EngineValue.wires?, show (e.getD (.wire .null)).wire? = some v from he, hes]
        rfl
  obtain ⟨es, hrun, hes⟩ := hitems
  refine ⟨some (.list es), ?_, ?_⟩
  · rw [toEngine_items, Execute.runIn_bind_of_ok hrun]
    rfl
  · show (EngineValue.list es).wire? = _
    rw [EngineValue.wire?, hes]
    rfl

end GraphType.Restores

theorem GraphType.coerce_null (type : GraphType) : type.coerce .null = .null := by
  cases type <;> rfl

theorem GraphType.coerce_nonNull (inner : GraphType) (v : WireValue) :
    (nonNull inner).coerce v = inner.coerce v := by
  cases v with
  | null => exact inner.coerce_null.symm
  | boolean | number | binary | string | enum | object | list => rfl

theorem GraphType.coerce_single (item : GraphType) {v : WireValue} (hv : v ≠ .null)
    (hl : ∀ items, v ≠ .list items) : (list item).coerce v = .list [item.coerce v] := by
  cases v with
  | null => exact absurd rfl hv
  | list items => exact absurd rfl (hl items)
  | boolean | number | binary | string | enum | object => rfl

/-- Whatever a value is converted to, whatever stands for a default: it is given back. -/
theorem convert_restores {host : Host σ} {onDefault : GraphType → WireValue → Execute σ HostValue}
    {type : GraphType} (htype : type.node.Exchanges) {v : WireValue} {result : HostValue}
    {w w' : Workspace σ} (h : (convert host onDefault v type).runIn w = (.ok result, w')) :
    type.Restores σ result (type.coerce v) := by
  induction type generalizing v result w w' with
  | nonNull inner ih =>
    rw [convert_nonNull] at h
    exact inner.coerce_nonNull v ▸ ih htype h
  | named n =>
    replace htype : n.Exchanges := htype
    by_cases hv : v = .null
    · subst hv
      cases h
      exact .null _
    rw [convert_node n hv fun i hi ↦ by rw [hi] at htype; exact htype.elim] at h
    cases hread : n.readName v v.member with
    | error e => rw [hread] at h; cases h
    | ok r =>
      rw [hread] at h
      cases h
      obtain ⟨hnull, hwrite⟩ := htype.toEngine (σ := σ) hv hread
      intro host context info w
      refine ⟨some (.wire ((GraphType.named n).coerce v)), ?_, rfl⟩
      rw [GraphType.toEngine_node context info n hnull, hwrite]
      rfl
  | list item ih =>
    by_cases hv : v = .null
    · subst hv
      cases h
      exact .null _
    by_cases hl : ∃ items, v = .list items
    · obtain ⟨items, rfl⟩ := hl
      rw [convert_items] at h
      obtain ⟨results, w₁, hrun, h⟩ := Execute.runIn_bind_eq_ok h
      cases h
      refine .list (List.forall₂_map_right_iff.2 ?_)
      exact (Execute.forall₂_of_runIn_mapM hrun).flip.imp fun _ _ ⟨_, _, hitem⟩ ↦ ih htype hitem
    · rw [convert_single item hv fun items hi ↦ hl ⟨items, hi⟩] at h
      obtain ⟨r, w₁, hrun, h⟩ := Execute.runIn_bind_eq_ok h
      cases h
      rw [GraphType.coerce_single item hv fun items hi ↦ hl ⟨items, hi⟩]
      exact .list (.cons (ih htype hrun) .nil)

/-- **What is sent as an argument is given back as a result.**  At a type over a scalar, or over an
enum whose members can be told apart by their values, whatever value an argument is converted to,
that value is a result of the type: at any later time and in any context its conversion succeeds,
leaves the workspace as it is, and comes to what was sent.  Null is null at every depth, a value
that is no list has become the item of a list where the type has one, a member of the enum is a
member again even if it was sent as a string, and what a scalar holds has not changed at all. -/
theorem convertArgument_restores {host : Host σ} {type : GraphType} (htype : type.node.Exchanges)
    {v : WireValue} {result : HostValue} {w w' : Workspace σ}
    (h : (convertArgument host type v).runIn w = (.ok result, w')) (host' : Host σ)
    (context : Option RequestContext) (info : ResolveInfo) (w₁ : Workspace σ) :
    ∃ e, Execute.runIn (type.toEngine host' result context info) w₁ = (.ok e, w₁) ∧
      EngineValue.denote e = some (type.coerce v) := by
  replace h : (convertWithin host w.inputFieldCount type v).runIn w = (.ok result, w') := h
  cases hcount : w.inputFieldCount with
  | zero =>
    rw [hcount, convertWithin] at h
    exact convert_restores htype h host' context info w₁
  | succ n =>
    rw [hcount, convertWithin] at h
    exact convert_restores htype h host' context info w₁

/-! ### An instance -/

namespace Colors

/-- An enum of two members, one of which stands for an object. -/
def definition : EnumDef where
  key := ⟨0⟩
  members := [{ name := "RED", value := .ofInt 0 },
    { name := "GREEN", value := .object [("hue", .ofInt 120), ("dark", .boolean false)] }]

theorem invertible : definition.Invertible where
  name_ne := by decide
  isNull := by decide
  keyed := by decide
  apart := by decide

/-- Lists of lists of members. -/
def type : GraphType :=
  .list (.nonNull (.list (.named (.enum
    { id := .compiled 0 .enum ⟨0⟩, name := "Color", description := none, definition }))))

/-- A member written as a string where a list is expected, nothing, and a list. -/
def sent : WireValue := .list [.string "RED", .null, .list [.enum "GREEN", .null]]

end Colors

open Colors in
/-- Members, lists and nulls come back. -/
theorem convertArgument_restores_colors :
    ∃ result w', (convertArgument .idle type sent).runIn ({ host := () } : Workspace Unit) =
        (.ok result, w') ∧
      ∀ (context : Option RequestContext) (info : ResolveInfo) (w₁ : Workspace Unit),
        ∃ e, Execute.runIn (type.toEngine .idle result context info) w₁ = (.ok e, w₁) ∧
          EngineValue.denote e =
            some (.list [.list [.enum "RED"], .null, .list [.enum "GREEN", .null]]) := by
  have hok : ((convertArgument .idle type sent).runIn
      ({ host := () } : Workspace Unit)).1.toOption.isSome = true := by cbv
  rcases hrun : (convertArgument .idle type sent).runIn ({ host := () } : Workspace Unit) with
    ⟨e | result, w'⟩ <;> rw [hrun] at hok
  · cases hok
  have htype : type.node.Exchanges := invertible
  exact ⟨result, w', rfl, convertArgument_restores htype hrun .idle⟩

end ApiGraph
