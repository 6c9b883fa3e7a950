import ApiGraph.Process.Basic

/-!
# Processes side by side

Several processes over one state can run side by side: they take turns in pausing, and all of them
are polled by whoever polls the whole.

A few processes are polled in order, each once in every poll of the whole, and the first failure
that is met ends the whole.  Many processes stand in a queue, which does not have to be polled
through at a time: the whole pauses as soon as two of them have paused in succession.  A failure in
a queue is noticed when all processes before it have ended well.

## What is here

* `Process.few`, `Process.many` and `Process.join`, which chooses between the two.
* `Process.inCompletionOrder`: processes that cannot fail, and their values as they come.
-/

set_option autoImplicit false

namespace ApiGraph

variable {S ε α β : Type}

namespace Run

/-- A run together with a process that is polled after it every time. -/
def both : Run S (Except ε α) → Process S (Except ε β) → Run S (Except ε (α × β))
  | .done (.error e) s, _ => .done (.error e) s
  | .done (.ok a) s, q => (q s).map (Except.map fun b ↦ (a, b))
  | .paused s resume, q =>
    match q s with
    | .done (.error e) s => .done (.error e) s
    | .done (.ok b) s => .paused s fun s ↦ (resume s).map (Except.map fun a ↦ (a, b))
    | .paused s q => .paused s fun s ↦ (resume s).both q

end Run

namespace Process

/-- Polls processes in order, each once in every poll; the first failure ends all of them. -/
def few : List (Process S (Except ε α)) → Process S (Except ε (List α))
  | [] => pure (.ok [])
  | p :: rest => fun s ↦ ((p s).both (few rest)).map (Except.map fun (a, others) ↦ a :: others)

/-! ## Queues -/

/-- A process in a queue. -/
inductive Queued (S α : Type) where
  | ended (value : α)
  | waiting (process : Process S α)

/-- Whether a process in a queue has ended. -/
def Queued.hasEnded : Queued S α → Bool
  | .ended _ => true
  | .waiting _ => false

/-- A queue of a length. -/
abbrev Queue (S α : Type) (n : Nat) := { l : List (Queued S α) // l.length = n }

/-- A queue with one more process in front. -/
def Queue.cons {n : Nat} (p : Queued S α) (q : Queue S α n) : Queue S α (n + 1) :=
  ⟨p :: q.val, congrArg (· + 1) q.property⟩

/-- Polls each process of a queue once, for one that waits in front of them.  The flag says whether
the process polled last has paused, after which another pause is one of the whole. -/
def around (paused : Bool) : (l : List (Queued S α)) → Process S (Bool × Queue S α l.length)
  | [] => pure (paused, ⟨[], rfl⟩)
  | .ended a :: rest => do
    let (paused, rest) ← around paused rest
    return (paused, rest.cons (.ended a))
  | .waiting p :: rest => fun s ↦
    match p s with
    | .done a s =>
      (around false rest s).map fun (paused, rest) ↦ (paused, rest.cons (.ended a))
    | .paused s p =>
      (pause paused.toNat s).andThen fun _ s ↦
        (around (!paused) rest s).map fun (paused, rest) ↦ (paused, rest.cons (.waiting p))

/-- Polls the first process of a queue and those behind it in turn until the first one has ended. -/
def leading {n : Nat} (next : Queue S (Except ε α) n → Process S (Except ε (List α))) :
    Run S (Except ε α) → Bool → Queue S (Except ε α) n → Run S (Except ε (List α))
  | .done (.error e) s, _, _ => .done (.error e) s
  | .done (.ok a) s, _, rest => (next rest s).map (Except.map fun others ↦ a :: others)
  | .paused s resume, paused, rest =>
    let yields := paused || rest.val.all Queued.hasEnded
    (pause yields.toNat s).andThen fun _ s ↦
      (around (!yields) rest.val s).andThen fun (paused, others) s ↦
        leading next (resume s) paused ⟨others.val, others.property.trans rest.property⟩

/-- Polls the processes of a queue in turn; a failure counts once all before it have ended well. -/
def inTurn : (n : Nat) → Queue S (Except ε α) n → Process S (Except ε (List α))
  | 0, _ => pure (.ok [])
  | n + 1, ⟨.ended (.ok a) :: rest, h⟩ => fun s ↦
    (inTurn n ⟨rest, Nat.succ.inj h⟩ s).map (Except.map fun others ↦ a :: others)
  | _ + 1, ⟨.ended (.error e) :: _, _⟩ => pure (.error e)
  | n + 1, ⟨.waiting p :: rest, h⟩ => fun s ↦
    leading (inTurn n) (p s) false ⟨rest, Nat.succ.inj h⟩

/-- Polls processes in turn. -/
def many (ps : List (Process S (Except ε α))) : Process S (Except ε (List α)) :=
  inTurn ps.length ⟨ps.map .waiting, List.length_map ..⟩

/-! ## Joins -/

/-- The number of processes up to which every one is polled in every poll of the whole. -/
def maxFew : Nat := 30

/-- The values of processes that run side by side, or the failure of one of them. -/
def join (ps : List (Process S (Except ε α))) : Process S (Except ε (List α)) :=
  if ps.length ≤ maxFew then few ps else many ps

/-- The values of processes that run side by side, in the order in which they end. -/
def inCompletionOrder (ps : List (Process S α)) : Process S (List α) := do
  let kept := ps.map fun p ↦ do
    let a ← p.within Prod.fst fun s (_, values) ↦ (s, values)
    modify fun (s, values) ↦ (s, values ++ [a])
    return (Except.ok () : Except Empty Unit)
  let (_, values) ← withLocal [] (few kept)
  return values

end Process

end ApiGraph
