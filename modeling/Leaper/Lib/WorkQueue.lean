import Mathlib.Algebra.BigOperators.Group.List.Basic
import Mathlib.Algebra.Order.Ring.Nat

namespace Lib

/-!
# A queue of batches and its worker

Producers append batches; one worker takes the oldest batch and works it off item by item, then
looks at the queue again.  Asked to stop, the queue is emptied, and the worker leaves when it
next looks.

* `item_append_pending_turn` — what is pending is worked off in order, nothing lost or repeated;
* `load_turn` — every turn of the worker brings it one step closer to an empty queue;
* `pending_eq_nil_of_load` — which is reached when the load is used up.
-/

variable {α : Type*}

/-- What the worker is doing; a batch it works on is kept with its size. -/
inductive Worker (α : Type*)
  | waiting
  | working (rest : List α) (size : ℕ)
  | exited
  deriving DecidableEq, Repr

/-- The queue, the worker and the request to stop.  A worker leaves only on request. -/
structure WorkQueue (α : Type*) where
  queue : List (List α) := []
  worker : Worker α := .waiting
  stop : Bool := false
  stop_of_exited : worker = .exited → stop = true := by simp

/-- What a turn of the worker did: worked on an item, finished a batch of a size, or neither. -/
inductive TurnObs (α : Type*)
  | quiet
  | item (a : α)
  | finished (size : ℕ)
  deriving DecidableEq, Repr

/-- The item a turn worked on. -/
def TurnObs.items : TurnObs α → List α
  | .item a => [a]
  | _ => []

namespace WorkQueue

/-- Append a batch. -/
def enqueue (q : WorkQueue α) (batch : List α) : WorkQueue α :=
  { q with queue := q.queue ++ [batch] }

/-- Ask the worker to stop; what is queued is dropped. -/
def requestStop (q : WorkQueue α) : WorkQueue α :=
  { q with queue := [], stop := true, stop_of_exited := fun _ => rfl }

/-- One turn of the worker. -/
def turn (q : WorkQueue α) : WorkQueue α × TurnObs α :=
  match q.worker with
  | .waiting =>
    if h : q.stop = true then ({ q with worker := .exited, stop_of_exited := fun _ => h }, .quiet)
    else
      match q.queue with
      | [] => (q, .quiet)
      | batch :: rest =>
        ({ q with
            queue := rest, worker := .working batch batch.length, stop_of_exited := nofun }, .quiet)
  | .working [] size => ({ q with worker := .waiting, stop_of_exited := nofun }, .finished size)
  | .working (a :: rest) size =>
    ({ q with worker := .working rest size, stop_of_exited := nofun }, .item a)
  | .exited => (q, .quiet)

/-- What is left of the batch the worker is on. -/
def current (q : WorkQueue α) : List α :=
  match q.worker with
  | .working rest _ => rest
  | _ => []

/-- What is queued for a worker that has not been asked to stop. -/
def waitingBatches (q : WorkQueue α) : List (List α) := if q.stop then [] else q.queue

/-- The items still to be worked on, oldest first. -/
def pending (q : WorkQueue α) : List α := q.current ++ q.waitingBatches.flatten

/-- How many turns the worker needs for what is pending: one for each item, one to take a
    batch and one to finish it. -/
def load (q : WorkQueue α) : ℕ :=
  (match q.worker with
    | .working rest _ => rest.length + 1
    | _ => 0) + (q.waitingBatches.map fun batch => batch.length + 2).sum

/-! ### What the operations do to what is pending -/

/-- A batch goes to the end of what is still to be done, unless the queue is stopped. -/
theorem pending_enqueue {q : WorkQueue α} (h : q.stop = false) (batch : List α) :
    (q.enqueue batch).pending = q.pending ++ batch := by
  simp [pending, current, waitingBatches, enqueue, h]

/-- Stopped or not, nothing else becomes pending. -/
theorem mem_pending_enqueue {q : WorkQueue α} {batch : List α} {a : α}
    (h : a ∈ (q.enqueue batch).pending) : a ∈ q.pending ∨ a ∈ batch := by
  cases hstop : q.stop with
  | false =>
    rw [pending_enqueue hstop] at h
    exact List.mem_append.mp h
  | true =>
    -- nobody takes the batch any more
    left
    simpa [pending, current, waitingBatches, enqueue, hstop] using h

/-- Stopping adds nothing. -/
theorem mem_pending_requestStop {q : WorkQueue α} {a : α} (h : a ∈ q.requestStop.pending) :
    a ∈ q.pending := by
  have hcur : a ∈ q.current := by simpa [pending, current, waitingBatches, requestStop] using h
  exact List.mem_append_left _ hcur

/-- **A turn works off what is pending, in order.** -/
theorem item_append_pending_turn (q : WorkQueue α) :
    q.turn.2.items ++ q.turn.1.pending = q.pending := by
  unfold turn
  split
  · rename_i hw
    split
    · rename_i hstop
      simp [pending, current, waitingBatches, TurnObs.items, hw, hstop]
    · rename_i hstop
      split
      · rfl
      · rename_i batch rest hq
        simp [pending, current, waitingBatches, TurnObs.items, hw, hq, hstop]
  · rename_i hw
    simp [pending, current, waitingBatches, TurnObs.items, hw]
  · rename_i hw
    simp [pending, current, waitingBatches, TurnObs.items, hw]
  · rfl

/-- The worker never touches the stop flag. -/
@[simp] theorem stop_turn (q : WorkQueue α) : q.turn.1.stop = q.stop := by
  unfold turn
  split
  · split
    · rfl
    · split <;> rfl
  all_goals rfl

/-- **Every turn takes one off the load.** -/
theorem load_turn (q : WorkQueue α) : q.turn.1.load = q.load - 1 := by
  unfold turn
  split
  · rename_i hw
    split
    · rename_i hstop
      simp [load, waitingBatches, hw, hstop]
    · rename_i hstop
      split
      · rename_i hq
        simp [load, waitingBatches, hw, hq]
      · rename_i batch rest hq
        simp only [load, waitingBatches, hw, hq, hstop, Bool.false_eq_true, if_false, List.map_cons,
          List.sum_cons]
        omega
  · rename_i hw
    simp [load, waitingBatches, hw]
  · rename_i hw
    simp only [load, waitingBatches, hw, List.length_cons]
    omega
  · rename_i hw
    simp [load, waitingBatches, hw, q.stop_of_exited hw]

/-- Load zero: nothing is pending. -/
theorem pending_eq_nil_of_load {q : WorkQueue α} (h : q.load = 0) : q.pending = [] := by
  have hbatches : q.waitingBatches = [] := by
    cases hb : q.waitingBatches with
    | nil => rfl
    | cons batch rest =>
      unfold load at h
      rw [hb, List.map_cons, List.sum_cons] at h
      omega
  have hcur : q.current = [] := by
    unfold load at h
    unfold current
    split
    · rename_i hw
      rw [hw] at h
      exact absurd (Nat.add_eq_zero_iff.mp h).1 (Nat.succ_ne_zero _)
    · rfl
  rw [pending, hcur, hbatches]
  rfl

/-! ### A worker that has left -/

/-- A worker that has left its loop does nothing more. -/
theorem turn_of_exited {q : WorkQueue α} (h : q.worker = .exited) : q.turn = (q, .quiet) := by
  unfold turn
  split
  all_goals simp_all

end WorkQueue

end Lib
