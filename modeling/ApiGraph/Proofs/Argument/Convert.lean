import ApiGraph.Proofs.Argument.Recursion
import ApiGraph.Proofs.Compile.Fields

/-!
# The bounded conversion against the recursion

The conversion that runs puts defaults in one another to a limited depth, and asks the workspace for
the fields of input types, which fills tables.  Neither shows in what it comes to: it comes to what
the recursion comes to, or else to the limit.

## What is here

* `convert_nonNull` and its like: the conversion by the form of the type.
* `Execute.runIn`: a computation as a function, and sequences that succeed, taken apart.
* `Execute.Yields`: a computation that comes to the same in all filled workspaces.
* `Execute.Approximates`: a computation against the recursion, with a reason for running out.
* `convert_approximates`: the conversion runs out only where a default does that it puts in.
-/

set_option autoImplicit false

namespace ApiGraph

open Compile (Settles)

variable {σ α β : Type} {d : Declarations} {host : Host σ}

/-! ## The conversion by the form of the type -/

section Shape

variable {onDefault : GraphType → WireValue → Execute σ HostValue}

theorem GraphNode.readOther_eq (n : GraphNode) (v : WireValue) :
    n.readOther v = n.readName v "" := by
  cases n <;> rfl

/-- What is read at once does not run out. -/
theorem GraphNode.readName_ne (n : GraphNode) (v : WireValue) (name : String) :
    n.readName v name ≠ .error .endlessDefault := by
  cases n with
  | enum n =>
    rw [GraphNode.readName, EnumNode.read]
    split <;> simp
  | scalar n | object n | union n | interface n | input n => simp [GraphNode.readName]

theorem convertItems_eq (items : List WireValue) (t : GraphType) :
    convertItems host onDefault items t = items.mapM fun v ↦ convert host onDefault v t := by
  induction items with
  | nil => exact List.mapM_nil.symm
  | cons v rest ih =>
    rw [List.mapM_cons, ← ih]
    rfl

theorem find_prepareEntries (entries : List (String × WireValue)) (name : String) :
    OrderedMap.find (prepareEntries host onDefault entries) name =
      (OrderedMap.find entries name).map (convert host onDefault) := by
  induction entries with
  | nil => rfl
  | cons e rest ih =>
    show OrderedMap.find ((e.1, convert host onDefault e.2) :: prepareEntries host onDefault rest)
      name = _
    rw [OrderedMap.find, OrderedMap.find, ih]
    split <;> rfl

theorem convert_null (t : GraphType) : convert host onDefault .null t = pure .null :=
  rfl

theorem convert_nonNull (v : WireValue) (t : GraphType) :
    convert host onDefault v (.nonNull t) = convert host onDefault v t := by
  cases v <;> rfl

theorem convert_items (items : List WireValue) (t : GraphType) :
    convert host onDefault (.list items) (.list t) =
      items.mapM (fun v ↦ convert host onDefault v t) >>= fun converted ↦
        pure (.list converted) := by
  rw [bind_pure_comp, ← convertItems_eq]
  rfl

/-- A value that is no list is read once, at the node of the type, and put in lists after that. -/
theorem convert_nested (t : GraphType) {v : WireValue} (hv : v ≠ .null)
    (hl : ∀ items, v ≠ .list items) :
    convert host onDefault v t =
      HostValue.nested t.listDepth <$> convert host onDefault v (.named t.node) := by
  have hread (x : Execute σ HostValue) : HostValue.nested t.listDepth <$> x =
      HostValue.nested t.listDepth <$> HostValue.nested 0 <$> x :=
    congrArg (HostValue.nested t.listDepth <$> ·) (id_map x).symm
  cases v with
  | null => exact absurd rfl hv
  | list items => exact absurd rfl (hl items)
  | boolean | number | binary | string | enum | object => exact hread _

theorem convert_single (t : GraphType) {v : WireValue} (hv : v ≠ .null)
    (hl : ∀ items, v ≠ .list items) :
    convert host onDefault v (.list t) =
      convert host onDefault v t >>= fun converted ↦ pure (.list [converted]) := by
  rw [bind_pure_comp, convert_nested (.list t) hv hl, convert_nested t hv hl, Functor.map_map]
  rfl

theorem convert_object (n : InputNode) (supplied : List (String × WireValue)) :
    convert host onDefault (.object supplied) (.named (.input n)) =
      n.read host onDefault (prepareEntries host onDefault supplied) :=
  id_map (n.read host onDefault (prepareEntries host onDefault supplied))

theorem convert_node (n : GraphNode) {v : WireValue} (hv : v ≠ .null)
    (hn : ∀ i, n = .input i → ∀ supplied, v ≠ .object supplied) :
    convert host onDefault v (.named n) = ExceptT.mk (pure (n.readName v v.member)) := by
  have hread (name : String) : HostValue.nested 0 <$> ExceptT.mk (pure (n.readName v name)) =
      (ExceptT.mk (pure (n.readName v name)) : Execute σ HostValue) :=
    id_map (ExceptT.mk (pure (n.readName v name)) : Execute σ HostValue)
  cases v with
  | null => exact absurd rfl hv
  | object supplied =>
    refine Eq.trans ?_ (hread "")
    cases n with
    | input i => exact absurd rfl (hn i rfl supplied)
    | enum i | scalar i | object i | union i | interface i => rfl
  | list items => exact congrArg (fun r ↦ ExceptT.mk (pure r)) (n.readOther_eq _)
  | boolean b | number b | binary b =>
    refine Eq.trans ?_ (hread "")
    rw [← n.readOther_eq]
    rfl
  | string name | enum name => exact hread name

end Shape

/-! ## One outcome in all filled workspaces -/

namespace Execute

/-- The outcome of a computation, and the workspace that it leaves. -/
def runIn (x : Execute σ α) (w : Workspace σ) : Except FieldError α × Workspace σ :=
  ExceptT.run x w

theorem runIn_bind (x : Execute σ α) (f : α → Execute σ β) (w : Workspace σ) :
    (x >>= f).runIn w =
      match x.runIn w with
      | (.ok a, w') => (f a).runIn w'
      | (.error e, w') => (.error e, w') := by
  show (ExceptT.bindCont f (ExceptT.run x w).1) (ExceptT.run x w).2 = _
  rw [runIn]
  rcases ExceptT.run x w with ⟨r, w'⟩
  cases r <;> rfl

theorem runIn_bind_of_ok {x : Execute σ α} {f : α → Execute σ β} {w w' : Workspace σ} {a : α}
    (h : x.runIn w = (.ok a, w')) : (x >>= f).runIn w = (f a).runIn w' := by
  rw [runIn_bind, h]

theorem runIn_bind_eq_ok {x : Execute σ α} {f : α → Execute σ β} {w w' : Workspace σ} {b : β}
    (h : (x >>= f).runIn w = (.ok b, w')) :
    ∃ a w₁, x.runIn w = (.ok a, w₁) ∧ (f a).runIn w₁ = (.ok b, w') := by
  rw [runIn_bind] at h
  rcases hx : x.runIn w with ⟨_ | a, w₁⟩ <;> rw [hx] at h
  · cases h
  · exact ⟨a, w₁, rfl, h⟩

/-- In a list of computations that succeeds each has. -/
theorem forall₂_of_runIn_mapM {f : α → Execute σ β} {l : List α} {w w' : Workspace σ} {bs : List β}
    (h : (l.mapM f).runIn w = (.ok bs, w')) :
    List.Forall₂ (fun a b ↦ ∃ w₁ w₂, (f a).runIn w₁ = (.ok b, w₂)) l bs := by
  induction l generalizing bs w with
  | nil =>
    cases h
    exact .nil
  | cons a rest ih =>
    rw [List.mapM_cons] at h
    obtain ⟨b, w₁, hb, h⟩ := runIn_bind_eq_ok h
    obtain ⟨bs', w₂, hbs, h⟩ := runIn_bind_eq_ok h
    cases h
    exact .cons ⟨w, w₁, hb⟩ (ih hbs)

/-- A computation comes to the same in all filled workspaces, and fills them further. -/
def Yields (d : Declarations) (host : Host σ) (w₀ : Workspace σ) (x : Execute σ α)
    (r : Except FieldError α) : Prop :=
  ∀ w, w₀.Filled d host w → (x.runIn w).1 = r ∧ w₀.Filled d host (x.runIn w).2

namespace Yields

variable {w₀ : Workspace σ} {x : Execute σ α} {f : α → Execute σ β}

theorem mk_pure (r : Except FieldError α) : Yields d host w₀ (ExceptT.mk (pure r)) r :=
  fun _ hw ↦ ⟨rfl, hw⟩

theorem bind_ok {a : α} {r : Except FieldError β} (hx : Yields d host w₀ x (.ok a))
    (hf : Yields d host w₀ (f a) r) : Yields d host w₀ (x >>= f) r := by
  intro w hw
  obtain ⟨h1, h2⟩ := hx w hw
  rw [runIn_bind, (Prod.ext h1 rfl : x.runIn w = (.ok a, _))]
  exact hf _ h2

theorem bind_error {e : FieldError} (hx : Yields d host w₀ x (.error e)) :
    Yields d host w₀ (x >>= f) (.error e) := by
  intro w hw
  obtain ⟨h1, h2⟩ := hx w hw
  rw [runIn_bind, (Prod.ext h1 rfl : x.runIn w = (.error e, _))]
  exact ⟨rfl, h2⟩

/-- A compilation that settles. -/
theorem ofCompile {c : Compile σ α} {nodes : α → List GraphNode}
    (hc : Settles d host w₀ [] c nodes) (hw₀ : w₀.Filled d host w₀) :
    Yields d host w₀ (Execute.ofCompile c) ((c.runIn w₀).1.mapError FieldError.compile) := by
  intro w hw
  have hrun : (Execute.ofCompile c).runIn w =
      ((c.runIn w).1.mapError FieldError.compile, (c.runIn w).2) := rfl
  rw [hrun, hc.runIn_eq hw₀ hw]
  exact ⟨rfl, hc.filled hw⟩

theorem unique {r r' : Except FieldError α} (hw₀ : w₀.Filled d host w₀)
    (h : Yields d host w₀ x r) (h' : Yields d host w₀ x r') : r = r' :=
  (h w₀ hw₀).1.symm.trans (h' w₀ hw₀).1

end Yields

/-! ## Running out -/

/-- A computation comes to what the recursion comes to, which is not the limit, or else it comes to
the limit, for a reason. -/
def Approximates (d : Declarations) (host : Host σ) (w₀ : Workspace σ) (reason : Prop)
    (x : Execute σ α) (answer : Answer α) : Prop :=
  (∃ r, answer = .given r ∧ r ≠ .error .endlessDefault ∧ Yields d host w₀ x r) ∨
    reason ∧ Yields d host w₀ x (.error .endlessDefault)

namespace Approximates

variable {w₀ : Workspace σ} {p q : Prop} {x : Execute σ α} {f : α → Execute σ β}
  {answer : Answer α} {g : α → Answer β}

theorem imp (hpq : p → q) (h : Approximates d host w₀ p x answer) :
    Approximates d host w₀ q x answer :=
  h.imp_right (And.imp_left hpq)

theorem given {r : Except FieldError α} (hr : r ≠ .error .endlessDefault)
    (h : Yields d host w₀ x r) : Approximates d host w₀ p x (.given r) :=
  .inl ⟨r, rfl, hr, h⟩

theorem pure (a : α) : Approximates d host w₀ p (Pure.pure a) (Answer.given (.ok a)) :=
  .given nofun (.mk_pure _)

theorem bind (hx : Approximates d host w₀ p x answer)
    (hf : ∀ a, answer = .given (.ok a) → Approximates d host w₀ p (f a) (g a)) :
    Approximates d host w₀ p (x >>= f) (answer >>= g) := by
  rcases hx with ⟨r, rfl, hr, hx⟩ | ⟨hp, hx⟩
  · cases r with
    | error e => exact .inl ⟨.error e, rfl, fun h ↦ hr (congrArg Except.error
        (Except.error.inj h)), hx.bind_error⟩
    | ok a =>
      rcases hf a rfl with ⟨r', ha, hr', hy⟩ | ⟨hp, hy⟩
      · exact .inl ⟨r', ha, hr', hx.bind_ok hy⟩
      · exact .inr ⟨hp, hx.bind_ok hy⟩
  · exact .inr ⟨hp, hx.bind_error⟩

theorem mapM {f : α → Execute σ β} {l : List α}
    (h : ∀ before a after, l = before ++ a :: after → (∀ b ∈ before, (g b).Succeeds) →
      Approximates d host w₀ p (f a) (g a)) :
    Approximates d host w₀ p (l.mapM f) (l.mapM g) := by
  induction l with
  | nil => exact .pure []
  | cons a rest ih =>
    rw [List.mapM_cons, List.mapM_cons]
    refine (h [] a rest rfl nofun).bind fun b hb ↦ ?_
    refine (ih fun before c after hl hbefore ↦ ?_).bind fun bs _ ↦ .pure (b :: bs)
    refine h (a :: before) c after (hl ▸ rfl) fun x hx ↦ ?_
    rcases List.mem_cons.1 hx with rfl | hx
    · exact ⟨b, hb⟩
    · exact hbefore x hx

end Approximates
end Execute

/-! ## Defaults that are asked for -/

/-- A field of an input object is not supplied, and its default is converted in its place. -/
inductive Substitutes (fieldsOf : InputNode → Except CompileError InputMap) :
    Conversion → Conversion → Prop
  | default {n : InputNode} {supplied : List (String × WireValue)} {fields : InputMap}
    {before after : List CompiledInputField} {f : CompiledInputField} {raw : WireValue}
    (hfields : fieldsOf n = .ok fields) (hf : OrderedMap.values fields = before ++ f :: after)
    (hbefore : ∀ g ∈ before, (g.fill (fromInput fieldsOf) supplied).Succeeds)
    (hsupplied : OrderedMap.find supplied f.name = none) (hraw : f.default = some raw) :
    Substitutes fieldsOf (.named (.input n), .object supplied) (f.type, raw)

theorem Substitutes.calls {fieldsOf : InputNode → Except CompileError InputMap} {x y : Conversion}
    (h : Substitutes fieldsOf x y) : Calls fieldsOf x y := by
  cases h with
  | default hfields hf hbefore hsupplied hraw =>
    exact .field hfields hf hbefore (by rw [hsupplied, hraw]; rfl)

/-- A default is converted in the course of a conversion. -/
def Asks (fieldsOf : InputNode → Except CompileError InputMap) (x y : Conversion) : Prop :=
  ∃ z, Relation.ReflTransGen (Calls fieldsOf) x z ∧ Substitutes fieldsOf z y

theorem Asks.head {fieldsOf : InputNode → Except CompileError InputMap} {x z y : Conversion}
    (h : Calls fieldsOf x z) (hy : Asks fieldsOf z y) : Asks fieldsOf x y := by
  obtain ⟨u, hu, hy⟩ := hy
  exact ⟨u, hu.head h, hy⟩

theorem Asks.transGen {fieldsOf : InputNode → Except CompileError InputMap} {x y : Conversion}
    (h : Asks fieldsOf x y) : Relation.TransGen (Calls fieldsOf) x y := by
  obtain ⟨z, hz, hy⟩ := h
  exact .tail' hz hy.calls

/-! ## What is known of types -/

namespace Workspace

/-- The fields of an input type, as a workspace gives them. -/
def inputFieldsOf (host : Host σ) (w : Workspace σ) (n : InputNode) :
    Except CompileError InputMap :=
  ((n.fields host).runIn w).1

/-- An input type that is known in some filled workspace. -/
def Fills (d : Declarations) (host : Host σ) (w₀ : Workspace σ) (n : InputNode) : Prop :=
  ∃ w, w₀.Filled d host w ∧ w.Holds d (.input n)

/-- A type whose node, if it has fields to be filled, is known. -/
def FillsType (d : Declarations) (host : Host σ) (w₀ : Workspace σ) (t : GraphType) : Prop :=
  ∀ n, t.node = .input n → w₀.Fills d host n

variable {w₀ : Workspace σ}

theorem FillsType.of_holds (hw₀ : w₀.Coherent d) {t : GraphType} (h : w₀.Holds d t.node) :
    w₀.FillsType d host t :=
  fun _ hn ↦ ⟨w₀, .refl hw₀, hn ▸ h⟩

/-- The types of the fields of an input type that is known are known. -/
theorem Fills.fields (hw₀ : w₀.Coherent d) {n : InputNode} (hn : w₀.Fills d host n)
    {fields : InputMap} (hfields : w₀.inputFieldsOf host n = .ok fields) {f : CompiledInputField}
    (hf : f ∈ OrderedMap.values fields) : w₀.FillsType d host f.type := by
  obtain ⟨w, hw, hn⟩ := hn
  have hsettles : Settles d host w₀ [] (n.fields host) _ _ := InputNode.fields_settles hw₀ hw hn
  intro m hm
  refine ⟨_, hsettles.filled (.refl hw₀), ?_⟩
  have hoffers := hsettles.offers (.refl hw₀) (List.forall_mem_nil _) hfields
  exact hm ▸ (hoffers _ (List.mem_map_of_mem hf)).1

end Workspace

/-! ## The conversion -/

/-- The conversion of an argument is a conversion with something in the place of defaults. -/
theorem exists_runIn_convertArgument (host : Host σ) (type : GraphType) (v : WireValue)
    (w : Workspace σ) : ∃ onDefault,
      (convertArgument host type v).runIn w = (convert host onDefault v type).runIn w := by
  have hrun : (convertArgument host type v).runIn w =
      (convertWithin host w.inputFieldCount type v).runIn w := rfl
  rw [hrun]
  cases w.inputFieldCount <;> exact ⟨_, rfl⟩

section Convert

variable {w₀ : Workspace σ} {onDefault : GraphType → WireValue → Execute σ HostValue}

/-- Some default that is asked for runs out. -/
def RunsOut (d : Declarations) (host : Host σ) (w₀ : Workspace σ)
    (onDefault : GraphType → WireValue → Execute σ HostValue) (x : Conversion) : Prop :=
  ∃ y, Asks (w₀.inputFieldsOf host) x y ∧
    Execute.Yields d host w₀ (onDefault y.1 y.2) (.error .endlessDefault)

theorem RunsOut.head {x z : Conversion} (h : Calls (w₀.inputFieldsOf host) x z)
    (hz : RunsOut d host w₀ onDefault z) : RunsOut d host w₀ onDefault x := by
  obtain ⟨y, hy, hout⟩ := hz
  exact ⟨y, hy.head h, hout⟩

variable (hw₀ : w₀.Coherent d)
  (hdefault : ∀ t v, w₀.FillsType d host t → Execute.Approximates d host w₀ True
    (onDefault t v) (fromInput (w₀.inputFieldsOf host) t v))
include hw₀ hdefault

/-- A field comes to its default if nothing is supplied for it, and else to what is. -/
theorem CompiledInputField.read_approximates {n : InputNode} {supplied : List (String × WireValue)}
    {fields : InputMap} {before after : List CompiledInputField} {f : CompiledInputField}
    (hn : w₀.Fills d host n) (hfields : w₀.inputFieldsOf host n = .ok fields)
    (hf : OrderedMap.values fields = before ++ f :: after)
    (hbefore : ∀ g ∈ before,
      (g.fill (fromInput (w₀.inputFieldsOf host)) supplied).Succeeds)
    (hsupplied : ∀ v, OrderedMap.find supplied f.name = some v → ∀ t, w₀.FillsType d host t →
      Execute.Approximates d host w₀ (RunsOut d host w₀ onDefault (t, v))
        (convert host onDefault v t) (fromInput (w₀.inputFieldsOf host) t v)) :
    Execute.Approximates d host w₀
      (RunsOut d host w₀ onDefault (.named (.input n), .object supplied))
      (f.read onDefault (prepareEntries host onDefault supplied))
      (f.fill (fromInput (w₀.inputFieldsOf host)) supplied) := by
  have hmem : f ∈ OrderedMap.values fields :=
    hf ▸ List.mem_append_right _ List.mem_cons_self
  have htype : w₀.FillsType d host f.type := hn.fields hw₀ hfields hmem
  rw [CompiledInputField.read, find_prepareEntries]
  cases hfind : OrderedMap.find supplied f.name with
  | some v =>
    have hraw : (OrderedMap.find supplied f.name).or f.default = some v := by rw [hfind]; rfl
    rw [CompiledInputField.fill_of_raw hraw]
    refine ((hsupplied v hfind f.type htype).imp fun h ↦ ?_).bind fun a _ ↦ .pure _
    exact h.head (.field hfields hf hbefore hraw)
  | none =>
    cases hd : f.default with
    | none =>
      rw [CompiledInputField.fill, hfind, hd]
      exact .pure none
    | some raw =>
      have hraw : (OrderedMap.find supplied f.name).or f.default = some raw := by
        rw [hfind, hd]
        rfl
      rw [CompiledInputField.fill_of_raw hraw]
      refine Execute.Approximates.bind ?_ fun a _ ↦ .pure _
      rcases hdefault f.type raw htype with h | ⟨-, hout⟩
      · exact .inl h
      · exact .inr ⟨⟨_, ⟨_, .refl, .default hfields hf hbefore hfind hd⟩, hout⟩, hout⟩

/-- **The conversion against the recursion.**  A conversion comes to what the recursion comes to,
unless a default runs out that is put in on the way. -/
theorem convert_approximates (v : WireValue) (t : GraphType) (ht : w₀.FillsType d host t) :
    Execute.Approximates d host w₀ (RunsOut d host w₀ onDefault (t, v))
      (convert host onDefault v t) (fromInput (w₀.inputFieldsOf host) t v) := by
  -- the items and the entries of a value are smaller; elsewhere the value stays and the type shrinks
  induction hsize : sizeOf v using Nat.strongRecOn generalizing v t with
  | ind size ih =>
  subst hsize
  by_cases hv : v = .null
  · subst hv
    rw [convert_null, fromInput_null]
    exact .pure HostValue.null
  induction t with
  | nonNull t iht =>
    rw [convert_nonNull, fromInput_nonNull]
    exact (iht ht).imp (.head (.nonNull hv))
  | list t iht =>
    by_cases hl : ∃ items, v = .list items
    · obtain ⟨items, rfl⟩ := hl
      rw [convert_items, fromInput_items]
      refine Execute.Approximates.bind (.mapM fun before u after hitems hbefore ↦ ?_)
        fun as _ ↦ .pure _
      subst hitems
      have hsmaller : sizeOf u < sizeOf (WireValue.list (before ++ u :: after)) := by
        have hu : u ∈ before ++ u :: after := List.mem_append_right _ List.mem_cons_self
        have hlt := List.sizeOf_lt_of_mem hu
        rw [WireValue.list.sizeOf_spec]
        omega
      exact (ih _ hsmaller u t ht rfl).imp (.head (.item hbefore))
    · have hl : ∀ items, v ≠ .list items := fun items hitems ↦ hl ⟨items, hitems⟩
      rw [convert_single t hv hl, fromInput_single t hv hl]
      exact ((iht ht).imp (.head (.single hv hl))).bind fun a _ ↦ .pure _
  | named n =>
    by_cases hobject : ∃ i supplied, n = .input i ∧ v = .object supplied
    · obtain ⟨i, supplied, rfl, rfl⟩ := hobject
      rw [convert_object, fromInput_object, InputNode.read]
      have hi : w₀.Fills d host i := ht i rfl
      have hfields : Execute.Yields d host w₀ (Execute.ofCompile (i.fields host))
          ((w₀.inputFieldsOf host i).mapError FieldError.compile) := by
        obtain ⟨w, hw, hi⟩ := hi
        exact .ofCompile (InputNode.fields_settles hw₀ hw hi) (.refl hw₀)
      cases hok : w₀.inputFieldsOf host i with
      | error e =>
        rw [hok] at hfields
        exact .inl ⟨_, rfl, nofun, hfields.bind_error⟩
      | ok fields =>
        rw [hok] at hfields
        refine Execute.Approximates.bind (.given nofun hfields) fun fields' hgiven ↦ ?_
        cases hgiven
        refine Execute.Approximates.bind (.mapM fun before f after hf hbefore ↦ ?_)
          fun props _ ↦ .pure _
        refine CompiledInputField.read_approximates hw₀ hdefault hi hok hf hbefore
          fun u hu t ht ↦ ih _ ?_ u t ht rfl
        have hlt := List.sizeOf_lt_of_mem (OrderedMap.mem_of_find hu)
        rw [Prod.mk.sizeOf_spec] at hlt
        rw [WireValue.object.sizeOf_spec]
        omega
    · have hn : ∀ i, n = .input i → ∀ supplied, v ≠ .object supplied :=
        fun i hi supplied hs ↦ hobject ⟨i, supplied, hi, hs⟩
      rw [convert_node n hv hn, fromInput_node n hv hn]
      exact .given (n.readName_ne v v.member) (.mk_pure _)

end Convert

end ApiGraph
