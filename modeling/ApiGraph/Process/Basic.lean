/-!
# Processes

A process is a computation over a shared state that may pause.  It is driven by polling it: a poll
runs it up to its next pause or to its end.  While it is paused the state belongs to others, so it
goes on in whatever state it is polled in next.

## What is here

* `Run`: what a poll leads to, and `Process`, with its monad.
* `Process.pause`, `Process.ofState`: the two things that a process is made of.
* `Process.finish`: a process that is polled to its end while nobody else acts.
* `Process.within`, `Process.withLocal`: processes over a part of a state, or over more than it.
-/

set_option autoImplicit false

namespace ApiGraph

/-- What a poll of a process leads to. -/
inductive Run (S α : Type) where
  /-- The process has ended with a value. -/
  | done (value : α) (state : S)
  /-- The process goes on when it is polled again. -/
  | paused (state : S) (resume : S → Run S α)

/-- A computation over a shared state that may pause. -/
def Process (S α : Type) := S → Run S α

variable {S T α β γ : Type}

namespace Run

/-- Goes on with the value of a run in its last state. -/
def andThen : Run S α → (α → Process S β) → Run S β
  | .done a s, next => next a s
  | .paused s resume, next => .paused s fun s ↦ (resume s).andThen next

/-- Changes the value of a run. -/
def map (f : α → β) (r : Run S α) : Run S β := r.andThen fun a s ↦ .done (f a) s

/-- The value and the last state of a run in which nobody else acts. -/
def finish : Run S α → α × S
  | .done a s => (a, s)
  | .paused s resume => (resume s).finish

/-- A run over a part of a state, given how the part is read and written. -/
def within (read : T → S) (write : S → T → T) (t : T) : Run S α → Run T α
  | .done a s => .done a (write s t)
  | .paused s resume => .paused (write s t) fun t ↦ (resume (read t)).within read write t

/-- A run whose state has a part that nobody else sees. -/
def hide : Run (S × T) α → Run S (α × T)
  | .done a (s, t) => .done (a, t) s
  | .paused (s, t) resume => .paused s fun s ↦ (resume (s, t)).hide

@[simp] theorem andThen_done (r : Run S α) : r.andThen (fun a s ↦ .done a s) = r := by
  induction r with
  | done => rfl
  | paused s resume ih => simp only [andThen, ih]

@[simp] theorem andThen_andThen (r : Run S α) (f : α → Process S β) (g : β → Process S γ) :
    (r.andThen f).andThen g = r.andThen fun a s ↦ (f a s).andThen g := by
  induction r with
  | done => rfl
  | paused s resume ih => simp only [andThen, ih]

/-- A finished run goes on where it has ended. -/
@[simp] theorem finish_andThen (r : Run S α) (f : α → Process S β) :
    (r.andThen f).finish = (f r.finish.1 r.finish.2).finish := by
  induction r with
  | done => rfl
  | paused s resume ih => simp only [andThen, finish, ih]

end Run

namespace Process

instance : Monad (Process S) where
  pure a := fun s ↦ .done a s
  bind p next := fun s ↦ (p s).andThen next

instance : LawfulMonad (Process S) :=
  .mk' _ (fun p ↦ funext fun s ↦ (p s).andThen_done) (fun _ _ ↦ rfl)
    (fun p f g ↦ funext fun s ↦ (p s).andThen_andThen f g)

/-- A step over the state, without a pause. -/
def ofState (step : StateM S α) : Process S α := fun s ↦
  let (a, s) := step s
  .done a s

instance : MonadLift (StateM S) (Process S) := ⟨ofState⟩

instance : MonadStateOf S (Process S) where
  get := ofState get
  set s := ofState (set s)
  modifyGet f := ofState (modifyGet f)

/-- Pauses a number of times. -/
def pause : Nat → Process S Unit
  | 0 => pure ()
  | n + 1 => fun s ↦ .paused s (pause n)

/-- A process that is polled to its end while nobody else acts. -/
def finish (p : Process S α) : StateM S α := fun s ↦ (p s).finish

/-- A process over a part of a state, given how the part is read and written. -/
def within (read : T → S) (write : S → T → T) (p : Process S α) : Process T α := fun t ↦
  (p (read t)).within read write t

/-- A process over more than the shared state: the rest starts as given, is seen by nobody else,
and is part of the value at the end. -/
def withLocal (start : T) (p : Process (S × T) α) : Process S (α × T) := fun s ↦
  (p (s, start)).hide

end Process

end ApiGraph
