import ApiGraph.Proofs.Argument.Convert
import ApiGraph.Proofs.Session.Steps

/-!
# When the conversion of an argument ends

A conversion does not end exactly if it comes to a default that contains itself.  The chains of
defaults that ask for one another are what has to be bounded: each of their links stands in a field
of an input type, so that a chain with more links than there are fields comes back to one of them.

## What is here

* `convertWithin_approximates`: a conversion that runs out has met a long chain of defaults.
* `Workspace.inputPlaces`: the places in which a default can stand.
* `exists_asks_self_of_chain`: a chain that is too long comes back to itself.
* `convertArgument_returns`: a conversion ends exactly if no default that it asks for asks for
  itself, and the conversion that runs tells which is the case.
-/

set_option autoImplicit false

namespace ApiGraph

open Compile (Settles)

variable {σ : Type} {d : Declarations} {host : Host σ}

/-! ## Chains of defaults -/

section Chains

variable {fieldsOf : InputNode → Except CompileError InputMap} {x y z : Conversion}

theorem Asks.trans (h : Asks fieldsOf x y) (h' : Asks fieldsOf y z) : Asks fieldsOf x z := by
  obtain ⟨u, hu, hz⟩ := h'
  exact ⟨u, h.transGen.to_reflTransGen.trans hu, hz⟩

instance : IsTrans Conversion (Asks fieldsOf) := ⟨fun _ _ _ ↦ Asks.trans⟩

/-- Nothing that is grounded comes back to itself. -/
theorem Grounded.not_transGen_self (h : Grounded fieldsOf x) :
    ¬Relation.TransGen (Calls fieldsOf) x x := by
  induction h with
  | intro x _ ih =>
    intro hself
    obtain ⟨y, hy, hback⟩ := Relation.TransGen.head'_iff.1 hself
    exact ih y hy (.tail' hback hy)

theorem Grounded.of_transGen (h : Grounded fieldsOf x)
    (hy : Relation.TransGen (Calls fieldsOf) x y) : Grounded fieldsOf y := by
  induction hy with
  | single hy => exact h.inv hy
  | tail _ hy ih => exact ih.inv hy

/-- A conversion that asks for a default that asks for itself does not end. -/
theorem Asks.fromInput_eq_none (h : Asks fieldsOf x y) (hself : Asks fieldsOf y y) :
    fromInput fieldsOf x.1 x.2 = none := by
  by_contra hne
  obtain ⟨r, hr⟩ := Option.ne_none_iff_exists'.1 hne
  exact ((grounded_of_fromInput hr).of_transGen h.transGen).not_transGen_self hself.transGen

end Chains

section Within

variable {w₀ : Workspace σ} (hw₀ : w₀.Coherent d)
include hw₀

theorem Calls.fillsType {x y : Conversion} (h : Calls (w₀.inputFieldsOf host) x y)
    (hx : w₀.FillsType d host x.1) : w₀.FillsType d host y.1 := by
  cases h with
  | nonNull _ | single _ _ | item _ => exact hx
  | field hfields hf _ _ =>
    exact (hx _ rfl).fields hw₀ hfields (hf ▸ List.mem_append_right _ List.mem_cons_self)

theorem fillsType_of_calls {x y : Conversion}
    (h : Relation.ReflTransGen (Calls (w₀.inputFieldsOf host)) x y)
    (hx : w₀.FillsType d host x.1) : w₀.FillsType d host y.1 := by
  induction h with
  | refl => exact hx
  | tail _ hy ih => exact hy.fillsType hw₀ ih

/-- **A bounded conversion against the recursion.**  A conversion in which defaults may stand in one
another up to a depth comes to what the recursion comes to, unless it meets a longer chain of
defaults that ask for one another. -/
theorem convertWithin_approximates (n : Nat) {t : GraphType} {v : WireValue}
    (ht : w₀.FillsType d host t) :
    Execute.Approximates d host w₀
      (∃ l : List Conversion, l.length = n + 1 ∧
        List.IsChain (Asks (w₀.inputFieldsOf host)) ((t, v) :: l))
      (convertWithin host n t v) (fromInput (w₀.inputFieldsOf host) t v) := by
  induction n generalizing t v with
  | zero =>
    rw [convertWithin]
    refine (convert_approximates hw₀ (fun t v ht ↦ .inr ⟨trivial, .mk_pure _⟩) v t ht).imp ?_
    rintro ⟨y, hy, -⟩
    exact ⟨[y], rfl, .cons_cons hy (.singleton y)⟩
  | succ n ih =>
    rw [convertWithin]
    refine (convert_approximates hw₀ (fun t v ht ↦ (ih ht).imp fun _ ↦ trivial) v t ht).imp ?_
    rintro ⟨y, hy, hout⟩
    rcases ih (v := y.2) (fillsType_of_calls hw₀ hy.transGen.to_reflTransGen ht) with
      ⟨r, -, hr, hyields⟩ | ⟨⟨l, hl, hchain⟩, -⟩
    · exact absurd (hyields.unique (.refl hw₀) hout) hr
    · exact ⟨y :: l, congrArg (· + 1) hl, .cons_cons hy hchain⟩

end Within

/-! ## Where defaults stand -/

namespace Workspace

/-- The places in which a default can stand: an input type and a position among its fields. -/
def inputPlaces (w : Workspace σ) : List (NodeId × Nat) :=
  w.sessions.zipIdx.flatMap fun x ↦ (OrderedMap.keys x.1.registries.inputs).flatMap fun key ↦
    (List.range x.1.registries.inputFieldTotal).map fun i ↦ (.compiled x.2 .input key, i)

theorem length_inputPlaces (w : Workspace σ) : w.inputPlaces.length = w.inputFieldCount := by
  have h : ∀ (l : List Session) (k : Nat),
      ((l.zipIdx k).flatMap fun x ↦ (OrderedMap.keys x.1.registries.inputs).flatMap fun key ↦
        (List.range x.1.registries.inputFieldTotal).map fun i ↦
          (NodeId.compiled x.2 .input key, i)).length =
        l.foldr (fun s n ↦ s.registries.inputFieldCount + n) 0 := by
    intro l
    induction l with
    | nil => exact fun _ ↦ rfl
    | cons x rest ih =>
      intro k
      rw [List.zipIdx_cons, List.flatMap_cons, List.length_append, List.foldr_cons, ih (k + 1)]
      simp [List.length_flatMap, Registries.inputFieldCount, Registries.inputFieldTotal,
        OrderedMap.keys, Function.comp_def]
  exact h w.sessions 0

variable {w₀ : Workspace σ} (hw₀ : w₀.Coherent d)
include hw₀

/-- What is known of an input type: where it was made, and how many fields it can have. -/
theorem Fills.spec {n : InputNode} (hn : w₀.Fills d host n) :
    ∃ s key, n.id = .compiled s .input key ∧ s < w₀.sessions.length ∧
      key ∈ OrderedMap.keys (w₀.registries s).inputs ∧
      (∃ c, d.classes c ∧ c.key = key ∧ ((compileInput s c).runIn w₀).1 = .ok n) ∧
      ∀ fields, w₀.inputFieldsOf host n = .ok fields →
        fields.length ≤ (w₀.registries s).inputFieldTotal := by
  obtain ⟨w, hw, s, key, h⟩ := hn
  have hs : s < w₀.sessions.length := hw.grows.sessions_length ▸ lt_length_of_entry h
  obtain ⟨hid, -, hr⟩ := hw.coherent.entries h
  rw [hw.grows.registries] at hr
  refine ⟨s, key, hid, hs, (OrderedMap.has_iff_mem_keys _ key).1 hr, hw.answered h,
    fun fields hfields ↦ ?_⟩
  have hsettles : Settles d host w₀ [] (n.fields host) _ _ :=
    InputNode.fields_settles hw₀ hw ⟨s, key, h⟩
  obtain ⟨w₁, hrun⟩ : ∃ w₁, (n.fields host).runIn w₀ = (.ok fields, w₁) :=
    ⟨_, Prod.ext hfields rfl⟩
  have hfilled := hsettles.filled_of_run (.refl hw₀) hrun
  rw [InputNode.fields, hid] at hrun
  have hentry := Compile.entry_of_runIn_remember hrun (hfilled.grows.sessions_length.symm ▸ hs)
  have hproper := (hfilled.coherent.entries hentry).2
  rwa [hfilled.grows.registries] at hproper

/-- The identity of an input type says everything about it. -/
theorem Fills.eq_of_id {n m : InputNode} (hn : w₀.Fills d host n) (hm : w₀.Fills d host m)
    (h : n.id = m.id) : n = m := by
  obtain ⟨s, key, hid, -, -, ⟨c, hc, hkey, hrun⟩, -⟩ := hn.spec hw₀
  obtain ⟨s', key', hid', -, -, ⟨c', hc', hkey', hrun'⟩, -⟩ := hm.spec hw₀
  cases hid.symm.trans (h.trans hid')
  cases d.classes_inj hc hc' (hkey.trans hkey'.symm)
  exact Except.ok.inj (hrun.symm.trans hrun')

/-- A default stands in a place. -/
def StandsAt (d : Declarations) (host : Host σ) (w₀ : Workspace σ) (p : Conversion)
    (place : NodeId × Nat) : Prop :=
  ∃ n fields f, w₀.Fills d host n ∧ n.id = place.1 ∧ w₀.inputFieldsOf host n = .ok fields ∧
    (OrderedMap.values fields)[place.2]? = some f ∧ f.type = p.1 ∧ f.default = some p.2

theorem StandsAt.unique {p q : Conversion} {place : NodeId × Nat}
    (hp : w₀.StandsAt d host p place) (hq : w₀.StandsAt d host q place) : p = q := by
  obtain ⟨n, fields, f, hn, hid, hfields, hf, htype, hdefault⟩ := hp
  obtain ⟨m, fields', f', hm, hid', hfields', hf', htype', hdefault'⟩ := hq
  cases hn.eq_of_id hw₀ hm (hid.trans hid'.symm)
  cases hfields.symm.trans hfields'
  cases hf.symm.trans hf'
  exact Prod.ext (htype.symm.trans htype') (Option.some.inj (hdefault.symm.trans hdefault'))

/-- A default that is asked for stands in one of the places. -/
theorem exists_standsAt {x y : Conversion} (h : Asks (w₀.inputFieldsOf host) x y)
    (hx : w₀.FillsType d host x.1) : ∃ place ∈ w₀.inputPlaces, w₀.StandsAt d host y place := by
  obtain ⟨z, hz, hy⟩ := h
  cases hy with
  | @default n supplied fields before after f raw hfields hf hbefore hsupplied hraw =>
    have hn : w₀.Fills d host n := fillsType_of_calls hw₀ hz hx n rfl
    obtain ⟨s, key, hid, hs, hkey, -, hlength⟩ := hn.spec hw₀
    have hlt : before.length < fields.length := by
      have hvalues := congrArg List.length hf
      rw [OrderedMap.values, List.length_map, List.length_append, List.length_cons] at hvalues
      omega
    refine ⟨(.compiled s .input key, before.length), ?_, n, fields, f, hn, hid, hfields, ?_, rfl,
      hraw⟩
    · obtain ⟨hmem, hr⟩ := registries_of_lt hs
      refine List.mem_flatMap.2 ⟨_, hmem, List.mem_flatMap.2 ⟨key, ?_, ?_⟩⟩
      · rwa [hr]
      · refine List.mem_map.2 ⟨before.length, List.mem_range.2 ?_, rfl⟩
        rw [hr]
        exact Nat.lt_of_lt_of_le hlt (hlength fields hfields)
    · rw [hf, List.getElem?_append_right (Nat.le_refl _), Nat.sub_self]
      rfl

/-- **Long chains come back.**  A chain of defaults that ask for one another, with more links than
there are places, has one that asks for itself. -/
theorem exists_asks_self_of_chain {x : Conversion} {l : List Conversion}
    (hx : w₀.FillsType d host x.1) (hchain : List.IsChain (Asks (w₀.inputFieldsOf host)) (x :: l))
    (hl : w₀.inputFieldCount < l.length) :
    ∃ y, Asks (w₀.inputFieldsOf host) x y ∧ Asks (w₀.inputFieldsOf host) y y := by
  obtain ⟨hfirst, hrest⟩ := List.pairwise_cons.1 hchain.pairwise
  by_contra hnone
  have hnodup : l.Nodup := by
    refine hrest.imp_of_mem fun {y z} hy _ hyz heq ↦ ?_
    subst heq
    exact hnone ⟨y, hfirst y hy, hyz⟩
  have hplaces : ∀ y, ∃ place, y ∈ l → place ∈ w₀.inputPlaces ∧ w₀.StandsAt d host y place := by
    intro y
    by_cases hy : y ∈ l
    · obtain ⟨place, hmem, hplace⟩ := exists_standsAt hw₀ (hfirst y hy) hx
      exact ⟨place, fun _ ↦ ⟨hmem, hplace⟩⟩
    · exact ⟨(.root 0 .query, 0), fun h ↦ absurd h hy⟩
  choose place hplace using hplaces
  have hinj : (l.map place).Nodup := by
    refine hnodup.map_on fun y hy z hz heq ↦ ?_
    exact (hplace y hy).2.unique hw₀ (heq ▸ (hplace z hz).2)
  have hsub : l.map place ⊆ w₀.inputPlaces := by
    intro k hk
    obtain ⟨y, hy, rfl⟩ := List.mem_map.1 hk
    exact (hplace y hy).1
  have hle := List.Nodup.length_le_of_subset hinj hsub
  rw [List.length_map, length_inputPlaces] at hle
  omega

end Workspace

/-! ## Termination -/

/-- The conversion that runs comes to what the recursion comes to, and tells if there is no end. -/
theorem convertArgument_eq {w : Workspace σ} (hw : w.Coherent d) {t : GraphType}
    (ht : w.FillsType d host t) (v : WireValue) :
    ((convertArgument host t v).runIn w).1 =
      (fromInput (w.inputFieldsOf host) t v).getD (.error .endlessDefault) := by
  have hrun : (convertArgument host t v).runIn w =
      (convertWithin host w.inputFieldCount t v).runIn w := rfl
  rw [hrun]
  rcases convertWithin_approximates hw w.inputFieldCount (v := v) ht with
    ⟨r, hr, -, hyields⟩ | ⟨⟨l, hl, hchain⟩, hyields⟩
  · have hr : fromInput (w.inputFieldsOf host) t v = some r := hr
    rw [(hyields w (.refl hw)).1, hr]
    rfl
  · obtain ⟨y, hy, hself⟩ :=
      Workspace.exists_asks_self_of_chain hw ht hchain (hl ▸ Nat.lt_succ_self _)
    rw [(hyields w (.refl hw)).1, (hy.fromInput_eq_none hself : fromInput _ t v = none)]
    rfl

/-- **When the conversion of an argument ends.**  In every workspace of every run, for every type
over a known node and every value: the recursion ends exactly where it is well-founded, which is
exactly where no default that is asked for asks for itself.  The conversion that runs comes to what
the recursion comes to, and tells if there is no end. -/
theorem convertArgument_returns {w : Workspace σ} (hw : w.Reachable d host) {t : GraphType}
    (ht : w.Holds d t.node) (v : WireValue) :
    ((∃ r, fromInput (w.inputFieldsOf host) t v = some r) ↔
        Grounded (w.inputFieldsOf host) (t, v)) ∧
      ((∃ r, fromInput (w.inputFieldsOf host) t v = some r) ↔
        ¬∃ y, Asks (w.inputFieldsOf host) (t, v) y ∧ Asks (w.inputFieldsOf host) y y) ∧
      (∀ r, fromInput (w.inputFieldsOf host) t v = some r → r ≠ .error .endlessDefault) ∧
      ((convertArgument host t v).runIn w).1 =
        (fromInput (w.inputFieldsOf host) t v).getD (.error .endlessDefault) := by
  have hc := hw.sound.coherent
  have htype : w.FillsType d host t := .of_holds hc ht
  refine ⟨returns_fromInput_iff (x := (t, v)), ?_⟩
  have hrun : (convertArgument host t v).runIn w =
      (convertWithin host w.inputFieldCount t v).runIn w := rfl
  rw [hrun]
  rcases convertWithin_approximates hc w.inputFieldCount (v := v) htype with
    ⟨r, hr, hne, hyields⟩ | ⟨⟨l, hl, hchain⟩, hyields⟩
  · have hr : fromInput (w.inputFieldsOf host) t v = some r := hr
    rw [(hyields w (.refl hc)).1, hr]
    refine ⟨⟨fun _ ⟨y, hy, hself⟩ ↦ ?_, fun _ ↦ ⟨r, rfl⟩⟩, fun r' h ↦ ?_, rfl⟩
    · cases hr.symm.trans (hy.fromInput_eq_none hself)
    · cases h
      exact hne
  · obtain ⟨y, hy, hself⟩ :=
      Workspace.exists_asks_self_of_chain hc htype hchain (hl ▸ Nat.lt_succ_self _)
    rw [(hyields w (.refl hc)).1, (hy.fromInput_eq_none hself : fromInput _ t v = none)]
    exact ⟨⟨nofun, fun h ↦ absurd ⟨y, hy, hself⟩ h⟩, nofun, rfl⟩

/-! ### An instance -/

namespace Endless

/-- An input type. -/
def link : ClassRef := .base ⟨1⟩ "Link"

/-- The only class. -/
def declared : Declarations := .ofClasses [link] (by decide)

/-- A field of the type itself, which is empty by default. -/
def next : InputFieldSpec where
  property := "next"
  type := some (.cls link)
  nullable := some true
  default := some (.object [])

/-- A session in which the type and its field are registered. -/
def registered : Workspace Unit :=
  ((Workspace.openSession { host := () } {}).2.modifyRegistries 0
    (·.inputType link {})).modifyRegistries 0 (·.inputField link next)

/-- The workspace once the type has been asked for. -/
def workspace : Workspace Unit := ((compileInput 0 link).runIn registered).2

/-- The node of the type. -/
def node : InputNode where
  id := .compiled 0 .input link.key
  name := "Link"
  description := none
  cls := link

theorem reachable : workspace.Reachable declared .idle := by
  have hlink : declared.classes link := List.mem_cons_self
  have hnext : ∀ offered, next.Within declared offered := by
    refine fun _ ↦ ⟨fun t ht ↦ ?_, nofun⟩
    cases ht
    exact .cls hlink
  have htype : Workspace.Reachable declared .idle _ :=
    (Workspace.Reachable.opened () {}).registered (s := 0) rfl (.inputType link {})
  have hregistered : registered.Reachable declared .idle :=
    htype.registered (s := 0) rfl (.inputField link (hnext _))
  exact hregistered.tail (.asked (.input (s := 0) rfl hlink))

end Endless

open Endless in
/-- A value that leaves out a field whose default leaves it out again is never converted, and one
that supplies it is. -/
theorem convertArgument_returns_endless :
    workspace.Reachable declared .idle ∧
      workspace.Holds declared (.input node) ∧
      fromInput (workspace.inputFieldsOf .idle) (.named (.input node)) (.object []) = none ∧
      fromInput (workspace.inputFieldsOf .idle) (.named (.input node))
        (.object [("next", .null)]) = some (.ok (.instanceOf link [("next", .null)] [])) := by
  have hheld : workspace.Holds declared (.input node) := ⟨0, link.key, by cbv⟩
  have hreturns := convertArgument_returns reachable (t := .named (.input node)) hheld
  obtain ⟨-, -, hne, hempty⟩ := hreturns (.object [])
  obtain ⟨-, -, -, hnull⟩ := hreturns (.object [("next", .null)])
  have hlimit : ((convertArgument .idle (.named (.input node)) (.object [])).runIn workspace).1 =
      .error .endlessDefault := by cbv
  have hvalue : ((convertArgument .idle (.named (.input node))
      (.object [("next", .null)])).runIn workspace).1 =
        .ok (.instanceOf link [("next", .null)] []) := by cbv
  rw [hlimit] at hempty
  rw [hvalue] at hnull
  refine ⟨reachable, hheld, ?_, ?_⟩
  · cases hrec : fromInput (workspace.inputFieldsOf .idle) (.named (.input node)) (.object []) with
    | none => rfl
    | some r =>
      rw [hrec] at hempty
      exact absurd hempty.symm (hne r hrec)
  · cases hrec : fromInput (workspace.inputFieldsOf .idle) (.named (.input node))
      (.object [("next", .null)]) with
    | none =>
      rw [hrec] at hnull
      cases hnull
    | some r =>
      rw [hrec] at hnull
      exact congrArg some hnull.symm

end ApiGraph
