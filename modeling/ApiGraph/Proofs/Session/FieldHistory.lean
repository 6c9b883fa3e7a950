import ApiGraph.Proofs.Session.FieldCall

/-!
# What becomes of a field over many calls

A property can be registered twice in one case only: once as a query and once as a mutation.  So
over any sequence of calls what is stored under a property can be read off the calls that were
accepted, and which calls are accepted can be read off those before them.

## What is here

* `FieldCall.runAll`: a sequence of calls with what each of them answered.
* `FieldCall.verdict`: the answer of a call, given the calls on its property that were accepted.
* `FieldCall.Recorded`: what the registry of fields has to do with the calls that were made;
  `Recorded.step` for one call more and `Recorded.run` for any number.
* `FieldCall.runAll_recorded`: what a sequence of calls leaves in a session without fields.
-/

set_option autoImplicit false

namespace ApiGraph

/-- The exposure under the operations that pass a test. -/
def Exposure.ofTest (test : Operation → Bool) : Option Exposure :=
  match test .query, test .mutation with
  | true, true => some .both
  | true, false => some .query
  | false, true => some .mutation
  | false, false => none

namespace FieldCall

/-! ## Sequences of calls -/

/-- The calls that were made, in order, each with its answer. -/
abbrev History := List (FieldCall × Except RegistrationError Unit)

/-- Makes calls in order. -/
def runAll : List FieldCall → Registries → History × Registries
  | [], r => ([], r)
  | c :: rest, r =>
    let next := c.run.run r
    let rest := runAll rest next.2
    ((c, next.1) :: rest.1, rest.2)

/-- The calls that were accepted. -/
def History.accepted (past : History) : List FieldCall :=
  (past.filter fun e ↦ e.2.isOk).map Prod.fst

/-- The accepted calls on a property of a class. -/
def History.acceptedOn (past : History) (owner : TypeKey) (property : String) : List FieldCall :=
  past.accepted.filter fun c ↦ c.cls.key = owner ∧ c.property = property

/-- A call that exposes a field only if it is made for a root field. -/
def Plain : FieldCall → Prop
  | .field _ spec | .duplexField _ spec => spec.exposure = none
  | .rootField _ _ _ => True

/-- One call is a query and the other a mutation. -/
def Complementary (a b : FieldCall) : Prop :=
  a.exposure = some .query ∧ b.exposure = some .mutation ∨
    a.exposure = some .mutation ∧ b.exposure = some .query

instance (a b : FieldCall) : Decidable (Complementary a b) :=
  inferInstanceAs (Decidable (_ ∨ _))

/-- Calls that can all be accepted on one property: at most two, and then one of them is a query and
the other a mutation. -/
def Compatible : List FieldCall → Prop
  | [] | [_] => True
  | [first, second] => Complementary first second
  | _ :: _ :: _ :: _ => False

instance : DecidablePred Compatible
  | [] | [_] => isTrue trivial
  | [first, second] => inferInstanceAs (Decidable (Complementary first second))
  | _ :: _ :: _ :: _ => isFalse id

/-- The operations under which some of the calls expose a field. -/
def exposureOf (calls : List FieldCall) : Option Exposure :=
  Exposure.ofTest fun op ↦ calls.any fun c ↦ c.exposure.any (·.includes op)

/-- The field that is stored after the accepted calls on its property: the first one's, exposed
under the operations of all. -/
def fieldAfter (calls : List FieldCall) : Option FieldSpec :=
  calls.head?.map fun first ↦ { first.declaration with exposure := exposureOf calls }

/-- The answer of a call, given the accepted calls on its property before it. -/
def verdict (c : FieldCall) (earlier : List FieldCall) : Except RegistrationError Unit :=
  if c.lacksMethod then .error (.rootFieldNotMethod c.cls.name c.property)
  else if Compatible (earlier ++ [c]) then .ok ()
  else .error (.duplicateField c.cls.name c.property)

/-- What the registry of fields has to do with the calls that were made. -/
structure Recorded (past : History) (r : Registries) : Prop where
  /-- At most two calls on a property are accepted, and of two one is a query and the other a
  mutation. -/
  compatible : ∀ owner property, Compatible (past.acceptedOn owner property)
  /-- What is stored is the first one's declaration with the operations of all. -/
  stored : ∀ owner property,
    r.fields.get? owner property = fieldAfter (past.acceptedOn owner property)
  /-- The fields of a class are in the order in which they were first accepted. -/
  order : ∀ owner, OrderedMap.keys (r.fields.getAll owner) =
    ((past.accepted.filter fun c ↦ c.cls.key = owner).map property).eraseDups
  /-- Every call got the answer that the accepted calls before it allow. -/
  answers : ∀ before c answer after, past = before ++ (c, answer) :: after →
    answer = c.verdict (History.acceptedOn before c.cls.key c.property)

/-! ## One call more -/

theorem accepted_append (past : History) (c : FieldCall) (answer : Except RegistrationError Unit) :
    History.accepted (past ++ [(c, answer)]) =
      if answer.isOk then past.accepted ++ [c] else past.accepted := by
  by_cases h : answer.isOk <;> simp [History.accepted, h]

/-- A single call exposes a field as it says. -/
theorem exposureOf_singleton (c : FieldCall) : exposureOf [c] = c.exposure := by
  cases h : c.exposure with
  | none => simp [exposureOf, Exposure.ofTest, h]
  | some exposure => cases exposure <;> simp [exposureOf, Exposure.ofTest, Exposure.includes, h]

theorem fieldAfter_singleton (c : FieldCall) : fieldAfter [c] = some c.declaration := by
  simp only [fieldAfter, exposureOf_singleton]
  rfl

theorem merge_eq (a b : FieldCall) :
    Exposure.merge a.exposure b.exposure = if Complementary a b then some .both else none := by
  rcases ha : a.exposure with _ | _ | _ | _ <;> rcases hb : b.exposure with _ | _ | _ | _ <;>
    simp [Exposure.merge, Complementary, ha, hb]

theorem exposureOf_pair {a b : FieldCall} (h : Complementary a b) :
    exposureOf [a, b] = some .both := by
  rcases h with ⟨ha, hb⟩ | ⟨ha, hb⟩ <;>
    simp [exposureOf, Exposure.ofTest, Exposure.includes, ha, hb]

/-- A pair is merged with nothing. -/
theorem merge_both (e : Option Exposure) : Exposure.merge (some .both) e = none := by
  rcases e with _ | _ | _ | _ <;> rfl

theorem fieldAfter_pair {a b : FieldCall} (h : Complementary a b) :
    fieldAfter [a, b] = some { a.declaration with exposure := some .both } := by
  rw [fieldAfter, exposureOf_pair h]
  rfl

/-- A call is refused over what is there exactly if it cannot be accepted after the others. -/
theorem place_fieldAfter (c : FieldCall) {earlier : List FieldCall} (he : Compatible earlier) :
    place c.cls c.declaration (fieldAfter earlier) =
      if Compatible (earlier ++ [c]) then .ok ((fieldAfter (earlier ++ [c])).getD c.declaration)
      else .error (.duplicateField c.cls.name c.property) := by
  rcases earlier with _ | ⟨first, _ | ⟨second, _ | ⟨third, rest⟩⟩⟩
  · have hone : Compatible ([] ++ [c]) := trivial
    rw [if_pos hone, List.nil_append, fieldAfter_singleton]
    rfl
  · have hmerge : Exposure.merge first.declaration.exposure c.declaration.exposure = _ :=
      merge_eq first c
    rw [fieldAfter_singleton, List.singleton_append]
    simp only [place, hmerge]
    by_cases hc : Complementary first c
    · have hpair : Compatible [first, c] := hc
      rw [if_pos hc, if_pos hpair, fieldAfter_pair hc]
      rfl
    · have hpair : ¬ Compatible [first, c] := hc
      rw [if_neg hc, if_neg hpair]
      rfl
  · have hthree : ¬ Compatible ([first, second] ++ [c]) := id
    rw [fieldAfter_pair he, if_neg hthree]
    simp only [place, merge_both]
    rfl
  · exact absurd he id

namespace Recorded

variable {past : History} {r : Registries}

/-- What a call does, as the calls before it tell. -/
theorem run_eq (h : Recorded past r) (c : FieldCall) :
    c.run.run r =
      match c.verdict (past.acceptedOn c.cls.key c.property) with
      | .ok () => (.ok (), { c.early r with
          fields := r.fields.set c.cls.key c.property
            ((fieldAfter (past.acceptedOn c.cls.key c.property ++ [c])).getD c.declaration) })
      | .error e => (.error e, c.early r) := by
  rw [FieldCall.run_eq, h.stored, answer, verdict, place_fieldAfter c (h.compatible _ _)]
  by_cases hmethod : c.lacksMethod
  · simp [hmethod]
  · by_cases hc : Compatible (past.acceptedOn c.cls.key c.property ++ [c]) <;> simp [hmethod, hc]

/-- The answers so far, and the one of one call more. -/
theorem answers_append (h : Recorded past r) {c : FieldCall} {given : Except RegistrationError Unit}
    (hc : c.verdict (past.acceptedOn c.cls.key c.property) = given) :
    ∀ before d answer after, past ++ [(c, given)] = before ++ (d, answer) :: after →
      answer = d.verdict (History.acceptedOn before d.cls.key d.property) := by
  intro before d answer after heq
  rcases List.eq_nil_or_concat' after with rfl | ⟨after, last, rfl⟩
  · obtain ⟨rfl, hlast⟩ := List.append_inj' heq rfl
    cases hlast
    exact hc.symm
  · rw [← List.cons_append, ← List.append_assoc] at heq
    exact h.answers before d answer after (List.append_inj' heq rfl).1

/-- A call that is refused leaves the record as it is. -/
theorem refused (h : Recorded past r) {r' : Registries} (hfields : r'.fields = r.fields)
    {c : FieldCall} {e : RegistrationError}
    (hc : c.verdict (past.acceptedOn c.cls.key c.property) = .error e) :
    Recorded (past ++ [(c, .error e)]) r' := by
  have hsame : History.accepted (past ++ [(c, .error e)]) = past.accepted := by
    rw [accepted_append]
    rfl
  have hon : ∀ owner property, History.acceptedOn (past ++ [(c, .error e)]) owner property =
      past.acceptedOn owner property :=
    fun owner property ↦ by rw [History.acceptedOn, hsame]; rfl
  constructor
  case compatible => exact fun owner property ↦ hon owner property ▸ h.compatible owner property
  case stored => exact fun owner property ↦ by rw [hon, hfields, h.stored]
  case order => exact fun owner ↦ by rw [hsame, hfields, h.order]
  case answers => exact h.answers_append hc

/-- A call that is accepted is recorded. -/
theorem accept (h : Recorded past r) {r' : Registries} {c : FieldCall}
    (hfields : r'.fields = r.fields.set c.cls.key c.property
      ((fieldAfter (past.acceptedOn c.cls.key c.property ++ [c])).getD c.declaration))
    (hc : c.verdict (past.acceptedOn c.cls.key c.property) = .ok ()) :
    Recorded (past ++ [(c, .ok ())]) r' := by
  have hlast : History.accepted (past ++ [(c, .ok ())]) = past.accepted ++ [c] := by
    rw [accepted_append]
    rfl
  have hon : ∀ owner property, History.acceptedOn (past ++ [(c, .ok ())]) owner property =
      if c.cls.key = owner ∧ c.property = property then past.acceptedOn owner property ++ [c]
      else past.acceptedOn owner property := by
    intro owner property
    rw [History.acceptedOn, hlast]
    by_cases hon : c.cls.key = owner ∧ c.property = property <;> simp [History.acceptedOn, hon]
  constructor
  case compatible =>
    intro owner property
    rw [hon]
    split
    · rename_i heq
      obtain ⟨rfl, rfl⟩ := heq
      by_contra hne
      rw [verdict, if_neg hne] at hc
      split at hc <;> cases hc
    · exact h.compatible owner property
  case stored =>
    intro owner property
    rw [hon, hfields, Registry.get?_set]
    by_cases heq : c.cls.key = owner ∧ c.property = property
    · obtain ⟨rfl, rfl⟩ := heq
      simp [fieldAfter]
    · rw [if_neg (by simpa using heq), if_neg heq, h.stored]
  case order =>
    intro owner
    rw [hlast, hfields, Registry.getAll_set]
    by_cases howner : c.cls.key = owner
    · subst howner
      rw [if_pos rfl, OrderedMap.keys_put, h.order, ← eraseDups_concat]
      simp
    · simp [howner, h.order]
  case answers => exact h.answers_append hc

/-- **One call more.**  The record stays one, whether or not the call is accepted. -/
theorem step (h : Recorded past r) (c : FieldCall) :
    Recorded (past ++ [(c, (c.run.run r).1)]) (c.run.run r).2 := by
  rw [h.run_eq c]
  cases hc : c.verdict (past.acceptedOn c.cls.key c.property) with
  | ok => exact h.accept rfl hc
  | error e => exact h.refused (fields_early c r) hc

/-- Any number of calls more. -/
theorem run (h : Recorded past r) (calls : List FieldCall) :
    Recorded (past ++ (runAll calls r).1) (runAll calls r).2 := by
  induction calls generalizing past r with
  | nil => simpa [runAll] using h
  | cons c rest ih => simpa [runAll] using ih (h.step c)

theorem nil (hr : ∀ owner, r.fields.getAll owner = []) : Recorded [] r := by
  refine ⟨fun _ _ ↦ trivial, fun owner property ↦ ?_, fun owner ↦ ?_, by simp⟩
  · rw [Registry.get?, hr]
    rfl
  · rw [hr]
    rfl

end Recorded

/-! ## Methods of root fields -/

/-- Whatever is exposed by an operation has a method. -/
def Executed (spec : FieldSpec) : Prop := spec.exposure.isSome → spec.method.isSome

theorem Executed.declaration {c : FieldCall} (hc : c.Plain) (hmethod : ¬ c.lacksMethod) :
    Executed c.declaration := by
  cases c with
  | field cls spec | duplexField cls spec =>
    have hnone : spec.exposure = none := hc
    simp [Executed, FieldCall.declaration, FieldSpec.bothSides, hnone]
  | rootField cls spec exposure =>
    intro _
    simpa [lacksMethod, FieldCall.declaration, Option.isSome_iff_ne_none] using hmethod

/-- A call that is plain stores what has a method if it is exposed. -/
theorem Executed.step {r : Registries} (hr : r.fields.All Executed) {c : FieldCall}
    (hc : c.Plain) : (c.run.run r).2.fields.All Executed := by
  rw [FieldCall.run_eq]
  cases hanswer : c.answer (r.fields.get? c.cls.key c.property) with
  | error e => simpa using hr
  | ok spec =>
    refine hr.set _ _ ?_
    rw [answer] at hanswer
    split at hanswer
    · cases hanswer
    · rename_i hmethod
      cases hknown : r.fields.get? c.cls.key c.property with
      | none =>
        rw [hknown] at hanswer
        cases hanswer
        exact .declaration hc hmethod
      | some known =>
        rw [hknown] at hanswer
        simp only [place] at hanswer
        split at hanswer
        · rename_i merged hmerged
          cases hanswer
          intro _
          refine (hr.get? hknown : Executed known) ?_
          rcases he : known.exposure with _ | e
          · rw [he] at hmerged
            cases hmerged
          · rfl
        · cases hanswer

theorem Executed.run {r : Registries} (hr : r.fields.All Executed) {calls : List FieldCall}
    (hcalls : ∀ c ∈ calls, c.Plain) : (runAll calls r).2.fields.All Executed := by
  induction calls generalizing r with
  | nil => exact hr
  | cons c rest ih =>
    exact ih (.step hr (hcalls c List.mem_cons_self))
      fun d hd ↦ hcalls d (List.mem_cons_of_mem c hd)

/-! ## A whole history -/

theorem map_fst_runAll (calls : List FieldCall) (r : Registries) :
    (runAll calls r).1.map Prod.fst = calls := by
  induction calls generalizing r with
  | nil => rfl
  | cons c rest ih => simp [runAll, ih]

theorem mem_of_mem_acceptedOn {past : History} {owner : TypeKey} {property : String}
    {c : FieldCall} (h : c ∈ past.acceptedOn owner property) : c ∈ past.map Prod.fst := by
  have hc : c ∈ past.accepted := (List.mem_filter.1 h).1
  obtain ⟨e, he, rfl⟩ := List.mem_map.1 hc
  exact List.mem_map_of_mem (List.mem_filter.1 he).1

/-- Only a root field is exposed by a plain call. -/
theorem Plain.eq_rootField {c : FieldCall} (hc : c.Plain) {e : Exposure}
    (h : c.exposure = some e) : ∃ cls spec, c = .rootField cls spec e := by
  cases c with
  | field cls spec | duplexField cls spec => exact nomatch (hc : spec.exposure = none).symm.trans h
  | rootField cls spec exposure => exact ⟨cls, spec, by rw [Option.some.inj h]⟩

theorem Recorded.eq_of_error {past : History} {r : Registries} (h : Recorded past r)
    {c : FieldCall} {e : RegistrationError} (hmem : (c, .error e) ∈ past) :
    e = .duplicateField c.cls.name c.property ∨ e = .rootFieldNotMethod c.cls.name c.property := by
  obtain ⟨before, after, rfl⟩ := List.append_of_mem hmem
  have hanswer := h.answers before c _ after rfl
  rw [verdict] at hanswer
  split at hanswer
  · exact .inr (Except.error.inj hanswer)
  · split at hanswer
    · cases hanswer
    · exact .inl (Except.error.inj hanswer)

/-- **What a sequence of calls makes of the fields.**  A property is accepted once, or once as a
query and once as a mutation; what is stored is what the first accepted call declared, under the
operations of all of them, in the place of the first; every other call is refused, as a repetition
or for want of a method; and what is exposed by an operation has a method. -/
theorem runAll_recorded {calls : List FieldCall} (hcalls : ∀ c ∈ calls, c.Plain) {r : Registries}
    (hr : ∀ owner, r.fields.getAll owner = []) :
    (runAll calls r).1.map Prod.fst = calls ∧
    Recorded (runAll calls r).1 (runAll calls r).2 ∧
    (∀ owner property, ((runAll calls r).1.acceptedOn owner property).length ≤ 2 ∧
      ∀ first second, (runAll calls r).1.acceptedOn owner property = [first, second] →
        ∃ cls spec cls' spec',
          first = .rootField cls spec .query ∧ second = .rootField cls' spec' .mutation ∨
          first = .rootField cls spec .mutation ∧ second = .rootField cls' spec' .query) ∧
    (∀ c e, (c, .error e) ∈ (runAll calls r).1 →
      e = .duplicateField c.cls.name c.property ∨ e = .rootFieldNotMethod c.cls.name c.property) ∧
    (runAll calls r).2.fields.All Executed := by
  have hrecord := (Recorded.nil hr).run calls
  rw [List.nil_append] at hrecord
  have hplain : ∀ owner property, ∀ c ∈ (runAll calls r).1.acceptedOn owner property, c.Plain :=
    fun owner property c hc ↦ hcalls c (map_fst_runAll calls r ▸ mem_of_mem_acceptedOn hc)
  have hempty : r.fields.All Executed := by
    intro owner v hv
    rw [hr owner] at hv
    cases hv
  refine ⟨map_fst_runAll calls r, hrecord, fun owner property ↦ ⟨?_, ?_⟩,
    fun c e ↦ hrecord.eq_of_error, Executed.run hempty hcalls⟩
  · have hcompatible := hrecord.compatible owner property
    revert hcompatible
    rcases (runAll calls r).1.acceptedOn owner property with _ | ⟨a, _ | ⟨b, _ | ⟨c, rest⟩⟩⟩ <;>
      simp [Compatible]
  · intro first second hpair
    have hcompatible : Complementary first second := by
      have h := hrecord.compatible owner property
      rwa [hpair] at h
    have hfirst := hplain owner property first (hpair ▸ List.mem_cons_self)
    have hsecond := hplain owner property second
      (hpair ▸ List.mem_cons_of_mem _ List.mem_cons_self)
    rcases hcompatible with ⟨ha, hb⟩ | ⟨ha, hb⟩
    · obtain ⟨cls, spec, rfl⟩ := hfirst.eq_rootField ha
      obtain ⟨cls', spec', rfl⟩ := hsecond.eq_rootField hb
      exact ⟨cls, spec, cls', spec', .inl ⟨rfl, rfl⟩⟩
    · obtain ⟨cls, spec, rfl⟩ := hfirst.eq_rootField ha
      obtain ⟨cls', spec', rfl⟩ := hsecond.eq_rootField hb
      exact ⟨cls, spec, cls', spec', .inr ⟨rfl, rfl⟩⟩

namespace Clock

/-- A schema root. -/
def root : ClassRef := .base ⟨1⟩ "Root"

/-- A field with a method. -/
def now : FieldSpec := { property := "now", type := some (.scalar .date), method := some ⟨0⟩ }

/-- A field is registered as a query, once more as a query, as a mutation, and as a plain field. -/
def calls : List FieldCall :=
  [.rootField root now .query, .rootField root now .query,
    .rootField root { now with name := some "later" } .mutation, .field root now]

end Clock

open Clock in
/-- A field that is exposed as a query and then as a mutation is exposed as both, as first declared,
and every other call on it is refused. -/
theorem runAll_recorded_clock :
    (∀ c ∈ calls, c.Plain) ∧ (∀ owner, ({} : Registries).fields.getAll owner = []) ∧
      (runAll calls {}).1.map (fun e ↦ e.2.isOk) = [true, false, true, false] ∧
      (runAll calls {}).2.fields.get? root.key "now" = some { now with exposure := some .both } := by
  have hcalls : ∀ c ∈ calls, c.Plain := by simp [calls, Plain, now]
  have hr : ∀ owner, ({} : Registries).fields.getAll owner = [] := fun _ ↦ rfl
  obtain ⟨-, hrecord, -⟩ := runAll_recorded hcalls hr
  exact ⟨hcalls, hr, rfl, hrecord.stored root.key "now"⟩

end FieldCall

end ApiGraph
