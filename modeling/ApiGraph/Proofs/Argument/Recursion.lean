import ApiGraph.Execution.Argument
import Mathlib

/-!
# Conversion without a bound

The conversion of an argument is a recursion over types, values and defaults, and nothing in it
bounds how often a default is put in the place of a field that is not supplied.  Here it stands as
it is, a recursion that may not end.

## What is here

* `Answer`: what a recursion comes to that may fail and may not end.
* `fromInput` and `inputInstance`: the recursion.
* `Calls`: what a conversion converts on its way.
* `returns_fromInput_iff`: the recursion ends exactly where it is well-founded.
-/

set_option autoImplicit false

namespace ApiGraph

/-! ## Answers -/

/-- What a recursion comes to that may fail and may not end: nothing stands for one without end. -/
abbrev Answer := ExceptT FieldError Option

namespace Answer

variable {α β : Type}

/-- An answer that is given at once. -/
def given (r : Except FieldError α) : Answer α := ExceptT.mk (some r)

/-- The recursion ends. -/
def Returns (x : Answer α) : Prop := ∃ r, x = given r

/-- The recursion ends with a value. -/
def Succeeds (x : Answer α) : Prop := ∃ a, x = given (.ok a)

theorem bind_given (r : Except FieldError α) (f : α → Answer β) :
    (given r >>= f) =
      match r with
      | .ok a => f a
      | .error e => given (.error e) := by
  cases r <;> rfl

/-- A sequence that ends has ended in its first part. -/
theorem bind_eq_given {x : Answer α} {f : α → Answer β} {r : Except FieldError β}
    (h : x >>= f = given r) :
    (∃ a, x = given (.ok a) ∧ f a = given r) ∨ ∃ e, x = given (.error e) ∧ r = .error e := by
  cases x with
  | none => cases h
  | some q =>
    cases q with
    | ok a => exact .inl ⟨a, rfl, h⟩
    | error e => exact .inr ⟨e, rfl, (Option.some.inj h).symm⟩

/-- A sequence that succeeds has succeeded in its first part. -/
theorem bind_eq_ok {x : Answer α} {f : α → Answer β} {b : β} (h : x >>= f = given (.ok b)) :
    ∃ a, x = given (.ok a) ∧ f a = given (.ok b) := by
  rcases bind_eq_given h with h | ⟨e, -, he⟩
  · exact h
  · cases he

theorem Returns.bind {x : Answer α} {f : α → Answer β} (hx : x.Returns)
    (hf : ∀ a, x = given (.ok a) → (f a).Returns) : (x >>= f).Returns := by
  obtain ⟨r, rfl⟩ := hx
  cases r with
  | ok a => exact hf a rfl
  | error e => exact ⟨.error e, rfl⟩

/-- A list of computations ends if each of them ends that is come to. -/
theorem Returns.mapM {f : α → Answer β} {l : List α}
    (h : ∀ before a after, l = before ++ a :: after → (∀ b ∈ before, (f b).Succeeds) →
      (f a).Returns) : (l.mapM f).Returns := by
  induction l with
  | nil => exact ⟨.ok [], rfl⟩
  | cons a rest ih =>
    rw [List.mapM_cons]
    refine (h [] a rest rfl nofun).bind fun b hb ↦ ?_
    refine Returns.bind (ih fun before c after hl hbefore ↦ ?_) fun bs _ ↦ ⟨.ok (b :: bs), rfl⟩
    refine h (a :: before) c after (hl ▸ rfl) fun x hx ↦ ?_
    rcases List.mem_cons.1 hx with rfl | hx
    · exact ⟨b, hb⟩
    · exact hbefore x hx

/-- A list of computations that succeeds gives what each of them gives. -/
theorem forall₂_of_mapM {f : α → Answer β} {l : List α} {bs : List β}
    (h : l.mapM f = given (.ok bs)) : List.Forall₂ (fun a b ↦ f a = given (.ok b)) l bs := by
  induction l generalizing bs with
  | nil =>
    cases h
    exact .nil
  | cons a rest ih =>
    rw [List.mapM_cons] at h
    obtain ⟨b, hb, h⟩ := bind_eq_ok h
    obtain ⟨bs', hbs, h⟩ := bind_eq_ok h
    cases h
    exact .cons hb (ih hbs)

/-- What ends goes on to end when its parts are replaced by others that end at least as often. -/
theorem mapM_eq_given {f g : α → Answer β} (hfg : ∀ a r, f a = given r → g a = given r)
    {l : List α} {r : Except FieldError (List β)} (h : l.mapM f = given r) :
    l.mapM g = given r := by
  induction l generalizing r with
  | nil => exact h
  | cons a rest ih =>
    rw [List.mapM_cons] at h ⊢
    rcases bind_eq_given h with ⟨b, hb, h⟩ | ⟨e, he, rfl⟩
    · rw [hfg a _ hb]
      rcases bind_eq_given h with ⟨bs, hbs, h⟩ | ⟨e, he, rfl⟩
      · rw [bind_given, ih hbs]
        exact h
      · rw [bind_given, ih he]
        rfl
    · rw [hfg a _ he]
      rfl

/-- In a list of computations that ends, each one ends that is come to. -/
theorem returns_of_mapM_eq_given {f g : α → Answer β}
    (hfg : ∀ a r, f a = given r → g a = given r) {before : List α} {a : α} {after : List α}
    {r : Except FieldError (List β)} (h : (before ++ a :: after).mapM f = given r)
    (hbefore : ∀ b ∈ before, (g b).Succeeds) : (f a).Returns := by
  induction before generalizing r with
  | nil =>
    rw [List.nil_append, List.mapM_cons] at h
    rcases bind_eq_given h with ⟨b, hb, -⟩ | ⟨e, he, -⟩
    · exact ⟨_, hb⟩
    · exact ⟨_, he⟩
  | cons b rest ih =>
    rw [List.cons_append, List.mapM_cons] at h
    rcases bind_eq_given h with ⟨c, -, h⟩ | ⟨e, he, -⟩
    · rcases bind_eq_given h with ⟨cs, hcs, -⟩ | ⟨e, he, -⟩
      · exact ih hcs fun x hx ↦ hbefore x (List.mem_cons_of_mem _ hx)
      · exact ih he fun x hx ↦ hbefore x (List.mem_cons_of_mem _ hx)
    · obtain ⟨c, hc⟩ := hbefore b List.mem_cons_self
      cases (hfg b _ he).symm.trans hc

end Answer

/-! ## The recursion -/

/-- The name that a value may be of a member of an enum; any other value is none. -/
def WireValue.member : WireValue → String
  | .enum name | .string name => name
  | _ => ""

section Recursion

variable (fieldsOf : InputNode → Except CompileError InputMap)

mutual

/-- Converts a value at a type, given the fields of all input types. -/
def fromInput (type : GraphType) (value : WireValue) : Option (Except FieldError HostValue) :=
  -- The two recursions, as the answers that the rest of the body puts together.
  have convert : GraphType → WireValue → Answer HostValue := by apply fromInput
  have instantiate : InputNode → WireValue → Answer HostValue := by apply inputInstance
  ExceptT.run <| match type, value with
  | _, .null => return .null
  | .nonNull inner, v => convert inner v
  | .list item, .list items => do
    let converted ← items.mapM fun v ↦ convert item v
    return .list converted
  | .list item, v => do
    let converted ← convert item v
    return .list [converted]
  | .named (.enum n), v => (ExceptT.mk (some (n.read v v.member)) : Answer HostValue)
  | .named (.input n), v => instantiate n v
  | .named _, v => return .ofWire v
partial_fixpoint

/-- Makes an instance of an input type, with defaults for the fields that are not supplied. -/
def inputInstance (n : InputNode) (value : WireValue) : Option (Except FieldError HostValue) :=
  have convert : GraphType → WireValue → Answer HostValue := by apply fromInput
  ExceptT.run <| match value with
  | .object supplied => do
    let fields ← (ExceptT.mk (some ((fieldsOf n).mapError FieldError.compile)) : Answer InputMap)
    let props ← (OrderedMap.values fields).mapM fun f ↦
      match (OrderedMap.find supplied f.name).or f.default with
      | some raw => do
        let converted ← convert f.type raw
        return some (f.property, converted)
      | none => return none
    return .instanceOf n.cls (OrderedMap.ofEntries (props.filterMap fun p ↦ p)) []
  | v => return .ofWire v
partial_fixpoint

end

/-- The property of an input field, from what is supplied or else from the default. -/
def CompiledInputField.fill (convert : GraphType → WireValue → Answer HostValue)
    (supplied : List (String × WireValue)) (f : CompiledInputField) :
    Answer (Option (String × HostValue)) :=
  match (OrderedMap.find supplied f.name).or f.default with
  | some raw => do
    let converted ← convert f.type raw
    return some (f.property, converted)
  | none => return none

variable {fieldsOf}

/-! ### Equations -/

@[simp] theorem fromInput_null (t : GraphType) :
    fromInput fieldsOf t .null = Answer.given (.ok .null) := by
  rw [fromInput.eq_def]
  rfl

@[simp] theorem fromInput_nonNull (t : GraphType) (v : WireValue) :
    fromInput fieldsOf (.nonNull t) v = fromInput fieldsOf t v := by
  cases v with
  | null => rw [fromInput_null, fromInput_null]
  | boolean | number | binary | string | enum | list | object =>
    rw [fromInput.eq_def]
    rfl

theorem fromInput_items (t : GraphType) (items : List WireValue) :
    fromInput fieldsOf (.list t) (.list items) = (do
      let converted ← items.mapM (fromInput fieldsOf t)
      return .list converted : Answer HostValue) := by
  rw [fromInput.eq_def]
  rfl

theorem fromInput_single (t : GraphType) {v : WireValue} (hv : v ≠ .null)
    (hl : ∀ items, v ≠ .list items) :
    fromInput fieldsOf (.list t) v = (do
      let converted ← fromInput fieldsOf t v
      return .list [converted] : Answer HostValue) := by
  rw [fromInput.eq_def]
  cases v with
  | null => exact absurd rfl hv
  | list items => exact absurd rfl (hl items)
  | boolean | number | binary | string | enum | object => rfl

theorem fromInput_object (n : InputNode) (supplied : List (String × WireValue)) :
    fromInput fieldsOf (.named (.input n)) (.object supplied) = (do
      let fields ← Answer.given ((fieldsOf n).mapError FieldError.compile)
      let props ← (OrderedMap.values fields).mapM
        (CompiledInputField.fill (fromInput fieldsOf) supplied)
      return .instanceOf n.cls (OrderedMap.ofEntries (props.filterMap fun p ↦ p)) [] :
        Answer HostValue) := by
  rw [fromInput.eq_def]
  show inputInstance fieldsOf n (.object supplied) = _
  rw [inputInstance.eq_def]
  rfl

/-- An object that is converted becomes an instance, its fields filled one by one. -/
theorem fromInput_object_ok {n : InputNode} {supplied : List (String × WireValue)} {y : HostValue}
    (h : fromInput fieldsOf (.named (.input n)) (.object supplied) = Answer.given (.ok y)) :
    ∃ fields props, fieldsOf n = .ok fields ∧
      List.Forall₂ (fun f p ↦ f.fill (fromInput fieldsOf) supplied = Answer.given (.ok p))
        (OrderedMap.values fields) props ∧
      y = .instanceOf n.cls (OrderedMap.ofEntries (props.filterMap fun p ↦ p)) [] := by
  rw [fromInput_object] at h
  obtain ⟨fields, hfields, h⟩ := Answer.bind_eq_ok h
  obtain ⟨props, hprops, h⟩ := Answer.bind_eq_ok h
  cases h
  refine ⟨fields, props, ?_, Answer.forall₂_of_mapM hprops, rfl⟩
  cases hn : fieldsOf n <;> rw [hn] at hfields <;> cases hfields
  rfl

/-- At a node that has no fields to be filled, a value is read at once. -/
theorem fromInput_node (n : GraphNode) {v : WireValue} (hv : v ≠ .null)
    (hn : ∀ i, n = .input i → ∀ supplied, v ≠ .object supplied) :
    fromInput fieldsOf (.named n) v = Answer.given (n.readName v v.member) := by
  rw [fromInput.eq_def]
  cases n with
  | input i =>
    have hobject := hn i rfl
    cases v with
    | null => exact absurd rfl hv
    | object supplied => exact absurd rfl (hobject supplied)
    | boolean | number | binary | string | enum | list =>
      show inputInstance fieldsOf i _ = _
      rw [inputInstance.eq_def]
      rfl
  | enum i =>
    cases v with
    | null => exact absurd rfl hv
    | boolean | number | binary | string | enum | list | object => rfl
  | scalar i | object i | union i | interface i =>
    cases v with
    | null => exact absurd rfl hv
    | boolean | number | binary | string | enum | list | object => rfl

/-! ## What calls what -/

/-- A type, and the value that is converted at it. -/
abbrev Conversion := GraphType × WireValue

variable (fieldsOf) in
/-- One conversion needs another.  The items of a list and the fields of an input type are converted
in order, and only as long as none has failed. -/
inductive Calls : Conversion → Conversion → Prop
  | nonNull {t : GraphType} {v : WireValue} (hv : v ≠ .null) : Calls (.nonNull t, v) (t, v)
  | single {t : GraphType} {v : WireValue} (hv : v ≠ .null) (hl : ∀ items, v ≠ .list items) :
    Calls (.list t, v) (t, v)
  | item {t : GraphType} {before after : List WireValue} {v : WireValue}
    (hbefore : ∀ u ∈ before, Answer.Succeeds (fromInput fieldsOf t u)) :
    Calls (.list t, .list (before ++ v :: after)) (t, v)
  | field {n : InputNode} {supplied : List (String × WireValue)} {fields : InputMap}
    {before after : List CompiledInputField} {f : CompiledInputField} {raw : WireValue}
    (hfields : fieldsOf n = .ok fields) (hf : OrderedMap.values fields = before ++ f :: after)
    (hbefore : ∀ g ∈ before, (g.fill (fromInput fieldsOf) supplied).Succeeds)
    (hraw : (OrderedMap.find supplied f.name).or f.default = some raw) :
    Calls (.named (.input n), .object supplied) (f.type, raw)

theorem CompiledInputField.fill_of_raw {convert : GraphType → WireValue → Answer HostValue}
    {supplied : List (String × WireValue)} {f : CompiledInputField} {raw : WireValue}
    (h : (OrderedMap.find supplied f.name).or f.default = some raw) :
    f.fill convert supplied = do
      let converted ← convert f.type raw
      return some (f.property, converted) := by
  rw [CompiledInputField.fill, h]

/-- A conversion ends if all those end that it needs. -/
theorem returns_of_calls {x : Conversion}
    (h : ∀ y, Calls fieldsOf x y → Answer.Returns (fromInput fieldsOf y.1 y.2)) :
    Answer.Returns (fromInput fieldsOf x.1 x.2) := by
  obtain ⟨t, v⟩ := x
  by_cases hv : v = .null
  · rw [hv, fromInput_null]
    exact ⟨_, rfl⟩
  cases t with
  | nonNull t =>
    rw [fromInput_nonNull]
    exact h _ (.nonNull hv)
  | list t =>
    by_cases hl : ∃ items, v = .list items
    · obtain ⟨items, rfl⟩ := hl
      rw [fromInput_items]
      refine Answer.Returns.bind (.mapM fun before u after hitems hbefore ↦ ?_) fun _ _ ↦ ⟨_, rfl⟩
      rw [hitems] at h
      exact h _ (.item hbefore)
    · rw [fromInput_single t hv fun items hitems ↦ hl ⟨items, hitems⟩]
      exact Answer.Returns.bind (h _ (.single hv fun items hitems ↦ hl ⟨items, hitems⟩))
        fun _ _ ↦ ⟨_, rfl⟩
  | named n =>
    by_cases hn : ∃ i supplied, n = .input i ∧ v = .object supplied
    · obtain ⟨i, supplied, rfl, rfl⟩ := hn
      rw [fromInput_object]
      cases hfields : fieldsOf i with
      | error e => exact ⟨.error (.compile e), rfl⟩
      | ok fields =>
        refine Answer.Returns.bind (x := Answer.given (.ok fields)) ⟨_, rfl⟩ fun _ hgiven ↦ ?_
        cases hgiven
        refine Answer.Returns.bind (.mapM fun before f after hf hbefore ↦ ?_) fun _ _ ↦ ⟨_, rfl⟩
        cases hraw : (OrderedMap.find supplied f.name).or f.default with
        | none =>
          rw [CompiledInputField.fill, hraw]
          exact ⟨.ok none, rfl⟩
        | some raw =>
          rw [CompiledInputField.fill_of_raw hraw]
          exact Answer.Returns.bind (h _ (.field hfields hf hbefore hraw)) fun _ _ ↦ ⟨_, rfl⟩
    · rw [fromInput_node n hv fun i hi supplied hs ↦ hn ⟨i, supplied, hi, hs⟩]
      exact ⟨_, rfl⟩

variable (fieldsOf) in
/-- Whatever a conversion needs, and whatever that needs in its turn, comes to an end. -/
def Grounded (x : Conversion) : Prop := Acc (fun y x ↦ Calls fieldsOf x y) x

theorem Grounded.returns {x : Conversion} (h : Grounded fieldsOf x) :
    Answer.Returns (fromInput fieldsOf x.1 x.2) := by
  induction h with
  | intro x _ ih => exact returns_of_calls ih

/-! ### Where the recursion ends

The recursion is the least one of its equations: what it comes to, it comes to after finitely many
unfoldings.  One unfolding, over parts that are grounded where they end, is grounded where it ends.
-/

section Unfolding

variable {g : GraphType → WireValue → Option (Except FieldError HostValue)}
  (hg : ∀ t v r, g t v = some r → fromInput fieldsOf t v = some r ∧ Grounded fieldsOf (t, v))

theorem grounded_null (t : GraphType) : Grounded fieldsOf (t, .null) := by
  refine .intro _ fun y hy ↦ ?_
  cases hy with
  | nonNull hv => exact absurd rfl hv
  | single hv => exact absurd rfl hv

theorem grounded_nonNull {t : GraphType} {v : WireValue} (h : Grounded fieldsOf (t, v)) :
    Grounded fieldsOf (.nonNull t, v) := by
  refine .intro _ fun y hy ↦ ?_
  cases hy with
  | nonNull _ => exact h

theorem grounded_node {n : GraphNode} {v : WireValue}
    (hn : ∀ i, n = .input i → ∀ supplied, v ≠ .object supplied) :
    Grounded fieldsOf (.named n, v) := by
  refine .intro _ fun y hy ↦ ?_
  cases hy with
  | field _ _ _ _ => exact absurd rfl (hn _ rfl _)

include hg in
theorem unfold_single {t : GraphType} {v : WireValue} (hv : v ≠ .null)
    (hl : ∀ items, v ≠ .list items) {r : Except FieldError HostValue}
    (h : (do
      let converted ← g t v
      return .list [converted] : Answer HostValue) = Answer.given r) :
    fromInput fieldsOf (.list t) v = some r ∧ Grounded fieldsOf (.list t, v) := by
  have hends : ∀ q, g t v = some q → Grounded fieldsOf (.list t, v) := by
    refine fun q hq ↦ .intro _ fun y hy ↦ ?_
    cases hy with
    | single _ _ => exact (hg t v q hq).2
    | item _ => exact absurd rfl (hl _)
  rw [fromInput_single t hv hl]
  rcases Answer.bind_eq_given h with ⟨a, ha, h⟩ | ⟨e, he, rfl⟩
  · rw [(hg t v _ ha).1]
    exact ⟨h, hends _ ha⟩
  · rw [(hg t v _ he).1]
    exact ⟨rfl, hends _ he⟩

include hg in
theorem unfold_items {t : GraphType} {items : List WireValue} {r : Except FieldError HostValue}
    (h : (do
      let converted ← items.mapM (g t)
      return .list converted : Answer HostValue) = Answer.given r) :
    fromInput fieldsOf (.list t) (.list items) = some r ∧
      Grounded fieldsOf (.list t, .list items) := by
  have hitems : ∀ u q, g t u = Answer.given q → fromInput fieldsOf t u = Answer.given q :=
    fun u q hu ↦ (hg t u q hu).1
  have hends : ∀ q, (items.mapM (g t) : Answer (List HostValue)) = Answer.given q →
      Grounded fieldsOf (.list t, .list items) := by
    refine fun q hq ↦ .intro _ fun y hy ↦ ?_
    cases hy with
    | single _ hl => exact absurd rfl (hl _)
    | item hbefore =>
      obtain ⟨q', hq'⟩ := Answer.returns_of_mapM_eq_given hitems hq hbefore
      exact (hg _ _ _ hq').2
  rw [fromInput_items]
  rcases Answer.bind_eq_given h with ⟨as, has, h⟩ | ⟨e, he, rfl⟩
  · rw [Answer.mapM_eq_given hitems has]
    exact ⟨h, hends _ has⟩
  · rw [Answer.mapM_eq_given hitems he]
    exact ⟨rfl, hends _ he⟩

include hg in
theorem fill_eq_given {supplied : List (String × WireValue)} (f : CompiledInputField)
    (r : Except FieldError (Option (String × HostValue)))
    (h : f.fill g supplied = Answer.given r) :
    f.fill (fromInput fieldsOf) supplied = Answer.given r := by
  cases hraw : (OrderedMap.find supplied f.name).or f.default with
  | none =>
    rw [CompiledInputField.fill, hraw] at h ⊢
    exact h
  | some raw =>
    rw [CompiledInputField.fill_of_raw hraw] at h ⊢
    rcases Answer.bind_eq_given h with ⟨a, ha, h⟩ | ⟨e, he, rfl⟩
    · rw [(hg _ _ _ ha).1]
      exact h
    · rw [(hg _ _ _ he).1]
      rfl

include hg in
theorem unfold_object {n : InputNode} {supplied : List (String × WireValue)}
    {r : Except FieldError HostValue}
    (h : (do
      let fields ← Answer.given ((fieldsOf n).mapError FieldError.compile)
      let props ← (OrderedMap.values fields).mapM (CompiledInputField.fill g supplied)
      return .instanceOf n.cls (OrderedMap.ofEntries (props.filterMap fun p ↦ p)) [] :
        Answer HostValue) = Answer.given r) :
    fromInput fieldsOf (.named (.input n)) (.object supplied) = some r ∧
      Grounded fieldsOf (.named (.input n), .object supplied) := by
  rw [fromInput_object]
  cases hfields : fieldsOf n with
  | error e =>
    rw [hfields] at h
    refine ⟨h, .intro _ fun y hy ↦ ?_⟩
    cases hy with
    | field hfields' _ _ _ => cases hfields.symm.trans hfields'
  | ok fields =>
    rw [hfields] at h
    have hends : ∀ q,
        (OrderedMap.values fields).mapM (CompiledInputField.fill g supplied) =
          Answer.given q → Grounded fieldsOf (.named (.input n), .object supplied) := by
      refine fun q hq ↦ .intro _ fun y hy ↦ ?_
      cases hy with
      | @field _ _ _ _ _ f raw hfields' hf hbefore hraw =>
        cases hfields.symm.trans hfields'
        rw [hf] at hq
        obtain ⟨q', hq'⟩ := Answer.returns_of_mapM_eq_given (fill_eq_given hg) hq hbefore
        rw [CompiledInputField.fill_of_raw hraw] at hq'
        rcases Answer.bind_eq_given hq' with ⟨a, ha, -⟩ | ⟨e, he, -⟩
        · exact (hg _ _ _ ha).2
        · exact (hg _ _ _ he).2
    have h : ((OrderedMap.values fields).mapM (CompiledInputField.fill g supplied) >>=
        fun props ↦ pure (.instanceOf n.cls
          (OrderedMap.ofEntries (props.filterMap fun p ↦ p)) [])) = Answer.given r := h
    show ((OrderedMap.values fields).mapM
        (CompiledInputField.fill (fromInput fieldsOf) supplied) >>= fun props ↦
          pure (.instanceOf n.cls (OrderedMap.ofEntries (props.filterMap fun p ↦ p)) [])) =
        Answer.given r ∧ _
    rcases Answer.bind_eq_given h with ⟨props, hprops, h⟩ | ⟨e, he, rfl⟩
    · rw [Answer.mapM_eq_given (fill_eq_given hg) hprops]
      exact ⟨h, hends _ hprops⟩
    · rw [Answer.mapM_eq_given (fill_eq_given hg) he]
      exact ⟨rfl, hends _ he⟩

end Unfolding

/-- What the recursion comes to, it comes to over grounds. -/
theorem grounded_of_fromInput {t : GraphType} {v : WireValue} {r : Except FieldError HostValue}
    (h : fromInput fieldsOf t v = some r) : Grounded fieldsOf (t, v) := by
  refine (fromInput.partial_correctness fieldsOf
    (fun t v r ↦ fromInput fieldsOf t v = some r ∧ Grounded fieldsOf (t, v))
    (fun n v r ↦ fromInput fieldsOf (.named (.input n)) v = some r ∧
      Grounded fieldsOf (.named (.input n), v)) ?_ ?_ t v r h).2
  · intro g instances hg hinstances t v r hr
    by_cases hv : v = .null
    · subst hv
      rw [fromInput_null]
      exact ⟨hr, grounded_null t⟩
    cases t with
    | nonNull t =>
      have hr : g t v = some r := by
        cases v with
        | null => exact absurd rfl hv
        | boolean | number | binary | string | enum | list | object => exact hr
      rw [fromInput_nonNull]
      exact ⟨(hg t v r hr).1, grounded_nonNull (hg t v r hr).2⟩
    | list t =>
      cases v with
      | null => exact absurd rfl hv
      | list items => exact unfold_items hg hr
      | boolean | number | binary | string | enum | object => exact unfold_single hg hv nofun hr
    | named n =>
      by_cases hinput : ∃ i, n = .input i
      · obtain ⟨n, rfl⟩ := hinput
        refine hinstances n v r ?_
        cases v with
        | null => exact absurd rfl hv
        | boolean | number | binary | string | enum | list | object => exact hr
      · have hn : ∀ i, n = .input i → ∀ supplied, v ≠ .object supplied :=
          fun i hi ↦ absurd ⟨i, hi⟩ hinput
        rw [fromInput_node n hv hn]
        refine ⟨?_, grounded_node hn⟩
        cases v with
        | null => exact absurd rfl hv
        | boolean | number | binary | string | enum | list | object =>
          cases n with
          | input n => exact absurd ⟨n, rfl⟩ hinput
          | enum n | scalar n | object n | union n | interface n => exact hr
  · intro g hg n v r hr
    by_cases hv : v = .null
    · subst hv
      rw [fromInput_null]
      exact ⟨hr, grounded_null _⟩
    by_cases hobject : ∃ supplied, v = .object supplied
    · obtain ⟨supplied, rfl⟩ := hobject
      exact unfold_object hg hr
    · have hn : ∀ i, GraphNode.input n = .input i → ∀ supplied, v ≠ .object supplied :=
        fun _ _ supplied hs ↦ hobject ⟨supplied, hs⟩
      rw [fromInput_node _ hv hn]
      refine ⟨?_, grounded_node hn⟩
      cases v with
      | null => exact absurd rfl hv
      | object supplied => exact absurd ⟨supplied, rfl⟩ hobject
      | boolean | number | binary | string | enum | list => exact hr

/-- **A conversion ends exactly where it is well-founded.** -/
theorem returns_fromInput_iff {x : Conversion} :
    Answer.Returns (fromInput fieldsOf x.1 x.2) ↔ Grounded fieldsOf x :=
  ⟨fun ⟨_, h⟩ ↦ grounded_of_fromInput h, Grounded.returns⟩

end Recursion

end ApiGraph
