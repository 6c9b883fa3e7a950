import ApiGraph.Inference
import Mathlib

/-!
# Unions that say the same

A union may be written in many ways: its members stand in any order, some of them may be gathered in
unions of their own, and null may be said more than once, or undefined in its place.  Inference sees
through all of this.  What it makes of a union depends on the members that are left when nested
unions are dissolved, without those of null and undefined, each as often as it occurs; and on
whether there was one of null or undefined.

## What is here

* `Signature.proper`, `Signature.admitsNull`: what inference looks at in a union, by `infer_union`;
  the order is not looked at, by `inferProper_perm`.
* `Rearranged`: one list of members is another one written in a different way.  `rearranged_iff`: so
  they are exactly if they have the same proper members and either both or neither admits null.
* `Signature.infer_union_nullish`: what null or undefined adds to any signature.
* `infer_union_rearranged`: the laws together.
-/

set_option autoImplicit false

namespace ApiGraph

/-! ## Nullability -/

namespace Inferred

@[simp] theorem nullableIf_false (i : Inferred) : i.nullableIf false = i := by
  simp [nullableIf]

@[simp] theorem nullableIf_nullableIf (i : Inferred) (a b : Bool) :
    (i.nullableIf a).nullableIf b = i.nullableIf (a || b) := by
  simp [nullableIf, Bool.or_assoc]

end Inferred

namespace Signature

/-! ## What is seen of a union -/

/-- The members of a union that say something of its type, with nested unions dissolved. -/
def proper (ms : List Signature) : List Signature := (flats ms).filter (!·.isNullish)

/-- Whether null or undefined is among the members of a union. -/
def admitsNull (ms : List Signature) : Bool := (flats ms).any isNullish

theorem flats_eq_flatMap (ms : List Signature) : flats ms = ms.flatMap flat := by
  induction ms with
  | nil => rfl
  | cons s rest ih => rw [flats, ih, List.flatMap_cons]

@[simp] theorem flats_append (a b : List Signature) : flats (a ++ b) = flats a ++ flats b := by
  simp [flats_eq_flatMap]

@[simp] theorem flats_cons_union (ms rest : List Signature) :
    flats (union ms :: rest) = flats ms ++ flats rest := by
  rw [flats, flat]

theorem flats_cons_nullish {m : Signature} (h : m.isNullish = true) (rest : List Signature) :
    flats (m :: rest) = m :: flats rest := by
  cases m <;> simp_all [isNullish, flat, flats]

@[simp] theorem proper_nil : proper [] = [] := rfl

@[simp] theorem admitsNull_nil : admitsNull [] = false := rfl

@[simp] theorem proper_append (a b : List Signature) : proper (a ++ b) = proper a ++ proper b := by
  simp [proper]

@[simp] theorem admitsNull_append (a b : List Signature) :
    admitsNull (a ++ b) = (admitsNull a || admitsNull b) := by
  simp [admitsNull]

@[simp] theorem proper_cons_union (ms rest : List Signature) :
    proper (union ms :: rest) = proper ms ++ proper rest := by
  simp [proper]

@[simp] theorem admitsNull_cons_union (ms rest : List Signature) :
    admitsNull (union ms :: rest) = (admitsNull ms || admitsNull rest) := by
  simp [admitsNull]

@[simp] theorem proper_cons_nullish {m : Signature} (h : m.isNullish = true)
    (rest : List Signature) : proper (m :: rest) = proper rest := by
  simp [proper, flats_cons_nullish h, h]

@[simp] theorem admitsNull_cons_nullish {m : Signature} (h : m.isNullish = true)
    (rest : List Signature) : admitsNull (m :: rest) = true := by
  simp [admitsNull, flats_cons_nullish h, h]

/-- What proper members say of the type of their union. -/
def inferProper (l : List Signature) : Inferred :=
  if isBooleanPair l then .known (.scalar .boolean)
  else match l with
    | [] => {}
    | [single] => single.infer
    | several =>
      match sharedScalar? several with
      | some s => .known (.scalar s)
      | none => {}

@[simp] theorem inferProper_nil : inferProper [] = {} := rfl

@[simp] theorem inferProper_singleton (s : Signature) : inferProper [s] = s.infer := by
  unfold inferProper
  simp [isBooleanPair]

theorem infer_union (ms : List Signature) :
    (union ms).infer = (inferProper (proper ms)).nullableIf (admitsNull ms) := by
  rw [infer, proper, admitsNull]
  unfold inferProper
  generalize (flats ms).filter (!·.isNullish) = l
  split
  · rfl
  · rcases l with _ | ⟨first, _ | ⟨second, rest⟩⟩
    · rfl
    · rfl
    · dsimp only
      cases sharedScalar? (first :: second :: rest) <;> rfl

/-! ### Order -/

/-- A list is a pair of the two truth values exactly if it has both and nothing else. -/
theorem isBooleanPair_iff_perm (l : List Signature) :
    isBooleanPair l = true ↔ l.Perm [literal (.boolean true), literal (.boolean false)] := by
  constructor
  · intro h
    unfold isBooleanPair at h
    split at h
    · rename_i a b
      cases a <;> cases b <;> simp_all [List.Perm.swap]
    · simp at h
  · intro h
    rcases List.perm_pair.1 h with rfl | rfl <;> rfl

theorem sharedScalar?_eq_some_iff (l : List Signature) (s : NativeScalar) :
    sharedScalar? l = some s ↔ l ≠ [] ∧ ∀ m ∈ l, m.scalar? = some s := by
  cases l with
  | nil => simp [sharedScalar?]
  | cons first rest =>
    cases hfirst : first.scalar? with
    | none => simp [sharedScalar?, hfirst]
    | some k =>
      simp only [sharedScalar?, hfirst, Option.bind_some, List.all_eq_true, beq_iff_eq,
        List.mem_cons, forall_eq_or_imp, ne_eq, reduceCtorEq, not_false_eq_true, true_and,
        Option.ite_none_right_eq_some, Option.some.injEq]
      constructor
      · rintro ⟨hall, rfl⟩
        exact ⟨rfl, hall⟩
      · rintro ⟨rfl, hall⟩
        exact ⟨hall, rfl⟩

theorem isBooleanPair_perm {l l' : List Signature} (h : l.Perm l') :
    isBooleanPair l = isBooleanPair l' := by
  rw [Bool.eq_iff_iff, isBooleanPair_iff_perm, isBooleanPair_iff_perm]
  exact ⟨h.symm.trans, h.trans⟩

theorem sharedScalar?_perm {l l' : List Signature} (h : l.Perm l') :
    sharedScalar? l = sharedScalar? l' := by
  refine Option.ext fun s ↦ ?_
  rw [sharedScalar?_eq_some_iff, sharedScalar?_eq_some_iff]
  simp [← h.mem_iff, ← List.length_pos_iff, h.length_eq]

/-- Proper members say the same in every order. -/
theorem inferProper_perm {l l' : List Signature} (h : l.Perm l') :
    inferProper l = inferProper l' := by
  rcases l with _ | ⟨first, _ | ⟨second, rest⟩⟩
  · rw [h.nil_eq]
  · rw [List.singleton_perm.1 h]
  · rcases l' with _ | ⟨first', _ | ⟨second', rest'⟩⟩
    · simp at h
    · simp [List.perm_singleton] at h
    · unfold inferProper
      simp only [isBooleanPair_perm h, sharedScalar?_perm h]

/-! ## Writing a union in another way -/

/-- One change to the way in which the members of a union are written. -/
inductive Move : List Signature → List Signature → Prop
  /-- The members stand in another order. -/
  | reorder {ms ms' : List Signature} (order : ms.Perm ms') : Move ms ms'
  /-- Members that stand side by side are gathered in a union of their own. -/
  | gather (before group after : List Signature) :
    Move (before ++ group ++ after) (before ++ union group :: after)
  /-- Null or undefined is said where one of them has been said already. -/
  | sayAgain (before after : List Signature) (m : Signature) (nullish : m.isNullish = true)
      (said : admitsNull (before ++ after) = true) : Move (before ++ after) (before ++ m :: after)

/-- The same members, written in another way. -/
def Rearranged : List Signature → List Signature → Prop := Relation.EqvGen Move

theorem proper_perm {ms ms' : List Signature} (h : ms.Perm ms') :
    (proper ms).Perm (proper ms') := by
  rw [proper, proper, flats_eq_flatMap, flats_eq_flatMap]
  exact (h.flatMap_right flat).filter _

theorem admitsNull_perm {ms ms' : List Signature} (h : ms.Perm ms') :
    admitsNull ms = admitsNull ms' := by
  rw [admitsNull, admitsNull, flats_eq_flatMap, flats_eq_flatMap]
  exact (h.flatMap_right flat).any_eq

/-- No move changes what inference looks at. -/
theorem Move.same {ms ms' : List Signature} (h : Move ms ms') :
    (proper ms).Perm (proper ms') ∧ admitsNull ms = admitsNull ms' := by
  cases h with
  | reorder order => exact ⟨proper_perm order, admitsNull_perm order⟩
  | gather before group after => simp
  | sayAgain before after m nullish said => simpa [nullish] using said

namespace Rearranged

theorem of_move {ms ms' : List Signature} (h : Move ms ms') : Rearranged ms ms' :=
  Relation.EqvGen.rel _ _ h

theorem refl (ms : List Signature) : Rearranged ms ms := Relation.EqvGen.refl ms

theorem symm {ms ms' : List Signature} (h : Rearranged ms ms') : Rearranged ms' ms :=
  Relation.EqvGen.symm _ _ h

theorem trans {ms ms' ms'' : List Signature} (h : Rearranged ms ms') (h' : Rearranged ms' ms'') :
    Rearranged ms ms'' :=
  Relation.EqvGen.trans _ _ _ h h'

theorem of_perm {ms ms' : List Signature} (h : ms.Perm ms') : Rearranged ms ms' :=
  of_move (.reorder h)

/-- No rearrangement changes what inference looks at. -/
theorem same {ms ms' : List Signature} (h : Rearranged ms ms') :
    (proper ms).Perm (proper ms') ∧ admitsNull ms = admitsNull ms' := by
  induction h with
  | rel ms ms' move => exact move.same
  | refl ms => simp
  | symm ms ms' _ ih => exact ⟨ih.1.symm, ih.2.symm⟩
  | trans ms ms' ms'' _ _ ih ih' => exact ⟨ih.1.trans ih'.1, ih.2.trans ih'.2⟩

/-- What is done to some members can be done to them where others stand around them. -/
theorem within {ms ms' : List Signature} (h : Rearranged ms ms') (before after : List Signature) :
    Rearranged (before ++ ms ++ after) (before ++ ms' ++ after) := by
  induction h with
  | rel ms ms' move =>
    cases move with
    | reorder order => exact of_perm ((order.append_left before).append_right after)
    | gather b group a => simpa using of_move (.gather (before ++ b) group (a ++ after))
    | sayAgain b a m nullish said =>
      have said' : admitsNull (before ++ b ++ (a ++ after)) = true := by
        simp at said ⊢
        tauto
      simpa using of_move (.sayAgain _ _ m nullish said')
  | refl ms => exact refl _
  | symm ms ms' _ ih => exact ih.symm
  | trans ms ms' ms'' _ _ ih ih' => exact ih.trans ih'

theorem append {a a' b b' : List Signature} (h : Rearranged a a') (h' : Rearranged b b') :
    Rearranged (a ++ b) (a' ++ b') := by
  have left := h.within [] b
  have right := h'.within a' []
  simp only [List.nil_append, List.append_nil] at left right
  exact left.trans right

end Rearranged

/-! ### A plain form -/

mutual

/-- A signature may be replaced by its members. -/
theorem rearranged_flat : ∀ s : Signature, Rearranged [s] s.flat
  | .union members => by
    have gathered : Rearranged members [union members] := by
      simpa using Rearranged.of_move (.gather [] members [])
    rw [flat]
    exact gathered.symm.trans (rearranged_flats members)
  | .scalar _ | .literal _ | .null | .undefined | .cls _ | .enum _ | .array _ | .generic _ _
  | .object | .bareArray | .barePromise => .refl _

/-- Nested unions may be dissolved. -/
theorem rearranged_flats : ∀ ms : List Signature, Rearranged ms (flats ms)
  | [] => .refl _
  | s :: rest => (rearranged_flat s).append (rearranged_flats rest)

end

/-- A plain way to write a union: its proper members, and null behind them if it is admitted. -/
def plain (ms : List Signature) : List Signature :=
  proper ms ++ if admitsNull ms then [null] else []

/-- Where null stands, any number of members that are null or undefined may stand before it. -/
theorem rearranged_before_null {ns : List Signature} (hns : ∀ m ∈ ns, m.isNullish = true) :
    Rearranged [null] (ns ++ [null]) := by
  induction ns with
  | nil => exact .refl _
  | cons m rest ih =>
    have said : admitsNull ([] ++ (rest ++ [null])) = true := by
      simp [admitsNull_cons_nullish (m := null) rfl]
    have more := Rearranged.of_move (.sayAgain [] (rest ++ [null]) m (hns m (by simp)) said)
    exact (ih fun n hn ↦ hns n (by simp [hn])).trans more

/-- Several members that are all null or undefined come down to null. -/
theorem rearranged_null {ns : List Signature} (hns : ∀ m ∈ ns, m.isNullish = true) (hne : ns ≠ []) :
    Rearranged ns [null] := by
  obtain ⟨m, rest, rfl⟩ := List.exists_cons_of_ne_nil hne
  have said : admitsNull (m :: rest ++ []) = true := by
    simp [hns m]
  have more := Rearranged.of_move (.sayAgain _ _ null rfl said)
  rw [List.append_nil] at more
  exact more.trans (rearranged_before_null hns).symm

/-- Every union can be written plainly. -/
theorem rearranged_plain (ms : List Signature) : Rearranged ms (plain ms) := by
  have split : Rearranged (flats ms) (proper ms ++ (flats ms).filter isNullish) := by
    have := List.filter_append_perm isNullish (flats ms)
    exact .of_perm (this.symm.trans List.perm_append_comm)
  refine (rearranged_flats ms).trans (split.trans ((Rearranged.refl _).append ?_))
  by_cases h : admitsNull ms = true
  · rw [if_pos h]
    refine rearranged_null (fun m hm ↦ (List.mem_filter.1 hm).2) ?_
    simpa [admitsNull] using h
  · rw [if_neg h, List.filter_eq_nil_iff.2]
    · exact .refl _
    · simpa [admitsNull] using h

/-- **Two unions are the same up to the way they are written exactly if inference looks at the same
in both.**  From left to right nothing that inference looks at is changed by a move.  From right to
left both can be written plainly, and their plain forms differ at most in the order. -/
theorem rearranged_iff (ms ms' : List Signature) :
    Rearranged ms ms' ↔ (proper ms).Perm (proper ms') ∧ admitsNull ms = admitsNull ms' := by
  constructor
  · exact Rearranged.same
  · rintro ⟨hproper, hnull⟩
    have plains : Rearranged (plain ms) (plain ms') := by
      rw [plain, plain, hnull]
      exact .of_perm (hproper.append_right _)
    exact (rearranged_plain ms).trans (plains.trans (rearranged_plain ms').symm)

/-! ## Null and undefined -/

theorem infer_nullish {m : Signature} (h : m.isNullish = true) :
    m.infer = { nullable := true } := by
  cases m <;> simp_all [isNullish, infer]

/-- A union of one member says what the member says. -/
theorem infer_union_singleton (s : Signature) : (union [s]).infer = s.infer := by
  rw [infer_union]
  by_cases hnull : s.isNullish = true
  · simp [hnull, infer_nullish, Inferred.nullableIf]
  · by_cases hunion : ∃ ms, s = union ms
    · obtain ⟨ms, rfl⟩ := hunion
      simp [infer_union]
    · have hflat : flats [s] = [s] := by
        cases s <;> simp_all [flats, flat]
      simp [proper, admitsNull, hflat, hnull]

/-- Null or undefined beside a signature make its type nullable and change nothing else. -/
theorem infer_union_nullish (s : Signature) {m : Signature} (h : m.isNullish = true) :
    (union [s, m]).infer = { s.infer with nullable := true } := by
  have hproper : proper [s, m] = proper [s] := by
    rw [← List.singleton_append, proper_append, proper_cons_nullish h, proper_nil, List.append_nil]
  have hnull : admitsNull [s, m] = (admitsNull [s] || true) := by
    rw [← List.singleton_append, admitsNull_append, admitsNull_cons_nullish h]
  calc (union [s, m]).infer
      = ((inferProper (proper [s])).nullableIf (admitsNull [s])).nullableIf true := by
        rw [infer_union, hproper, hnull, Inferred.nullableIf_nullableIf]
    _ = s.infer.nullableIf true := by rw [← infer_union, infer_union_singleton]
    _ = { s.infer with nullable := true } := by simp [Inferred.nullableIf]

/-- One time more nullable. -/
def Weakens (s t : Signature) : Prop := t = s.orNull ∨ t = s.orUndefined

/-- However often null or undefined is added, the type becomes nullable and nothing else changes. -/
theorem infer_weakens {s t : Signature} (h : Relation.TransGen Weakens s t) :
    t.infer = { s.infer with nullable := true } := by
  have step {s t : Signature} : Weakens s t → t.infer = { s.infer with nullable := true } := by
    rintro (rfl | rfl)
    · exact infer_union_nullish s rfl
    · exact infer_union_nullish s rfl
  induction h with
  | single last => exact step last
  | tail _ last ih => rw [step last, ih]

/-! ## The laws of unions -/

/-- **Inference sees through the way a union is written.**  Two unions that have the same proper
members, each as often and in any order, and of which both or neither admit null, say the same;
these are all the unions that come from one another when members are reordered, gathered in unions
of their own or released from them, and when null or undefined is said again.  Where a union admits
null beside the same proper members, its type is nullable and nothing else is different.  So null or
undefined that is added to any signature, however often, only makes its type nullable, and a generic
type with one parameter says what the parameter says. -/
theorem infer_union_rearranged :
    (∀ ms ms' : List Signature, (proper ms).Perm (proper ms') → admitsNull ms = admitsNull ms' →
      (union ms).infer = (union ms').infer) ∧
    (∀ ms ms' : List Signature, Rearranged ms ms' → (union ms).infer = (union ms').infer) ∧
    (∀ ms ms' : List Signature, Rearranged ms ms' ↔
      (proper ms).Perm (proper ms') ∧ admitsNull ms = admitsNull ms') ∧
    (∀ ms ms' : List Signature, (proper ms).Perm (proper ms') → admitsNull ms' = true →
      (union ms').infer = { (union ms).infer with nullable := true }) ∧
    (∀ s t : Signature, Relation.TransGen Weakens s t →
      t.infer = { s.infer with nullable := true }) ∧
    ∀ (wrapper : String) (s : Signature), (generic wrapper [s]).infer = s.infer := by
  have same {ms ms' : List Signature} (hproper : (proper ms).Perm (proper ms'))
      (hnull : admitsNull ms = admitsNull ms') : (union ms).infer = (union ms').infer := by
    rw [infer_union, infer_union, inferProper_perm hproper, hnull]
  refine ⟨fun ms ms' ↦ same, fun ms ms' h ↦ same h.same.1 h.same.2, rearranged_iff,
    fun ms ms' hproper hnull ↦ ?_, fun s t ↦ infer_weakens, fun wrapper s ↦ ?_⟩
  · rw [infer_union, infer_union, inferProper_perm hproper, hnull]
    simp [Inferred.nullableIf]
  · rw [infer]

/-! ### An instance -/

/-- The literal of a truth value. -/
private def truth (value : Bool) : Signature := literal (.boolean value)

/-- The two truth values may stand apart in nested unions; null there is as good as undefined
elsewhere. -/
theorem infer_union_rearranged_truths :
    Rearranged [union [truth true, null], truth false]
      [undefined, truth false, union [], truth true] ∧
    (union [union [truth true, null], truth false]).infer =
      (union [undefined, truth false, union [], truth true]).infer ∧
    (union [undefined, truth false, union [], truth true]).infer =
      { (union [truth true, truth false]).infer with nullable := true } ∧
    (truth true).orNull.orUndefined.orNull.infer = { (truth true).infer with nullable := true } ∧
    (union [truth true, truth false]).infer = .known (.scalar .boolean) := by
  obtain ⟨-, alike, iff, weaker, more, -⟩ := infer_union_rearranged
  have order : ([truth true, truth false]).Perm [truth false, truth true] := .swap _ _ _
  have rearranged := (iff [union [truth true, null], truth false]
    [undefined, truth false, union [], truth true]).2 ⟨order, rfl⟩
  refine ⟨rearranged, alike _ _ rearranged, weaker _ _ order rfl, more _ _ ?_, ?_⟩
  · exact .tail (.tail (.single (.inl rfl)) (.inr rfl)) (.inl rfl)
  · rw [infer_union]
    rfl

end Signature
end ApiGraph
