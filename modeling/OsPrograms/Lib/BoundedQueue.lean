import Mathlib.Data.List.Basic
import OsPrograms.Lib.TransitionSystem

/-!
# Bounded queues

The first-in first-out queue of at most `capacity` elements, as the system whose actions are
`enqueue v`, enabled while there is room, and `dequeue v`, enabled while `v` is the oldest element.
What has been enqueued is what has been dequeued followed by what is in the queue (`enqueued_eq`).
-/

namespace BoundedQueue

variable {α : Type*}

/-- An operation on a queue, with the element it moves. -/
inductive Op (α : Type*)
  | enqueue (v : α)
  | dequeue (v : α)
  deriving DecidableEq, Repr

/-- The elements that are enqueued, in order. -/
def enqueued (ops : List (Op α)) : List α :=
  ops.filterMap fun
    | .enqueue v => some v
    | .dequeue _ => none

/-- The elements that are dequeued, in order. -/
def dequeued (ops : List (Op α)) : List α :=
  ops.filterMap fun
    | .enqueue _ => none
    | .dequeue v => some v

/-- The queue after an operation, `none` if it is not enabled. -/
def step [DecidableEq α] (capacity : ℕ) (q : List α) : Op α → Option (List α)
  | .enqueue v => if q.length < capacity then some (q ++ [v]) else none
  | .dequeue v => if q.head? = some v then some q.tail else none

/-- The queue, empty at first. -/
def system [DecidableEq α] (capacity : ℕ) : TransitionSystem (List α) (Op α) where
  init := []
  step := step capacity

variable [DecidableEq α] {capacity : ℕ} {q q' : List α} {ops : List (Op α)}

/-- What has been enqueued is what has been dequeued and what is in the queue. -/
theorem enqueued_eq (h : (system capacity).run q ops = some q') :
    q ++ enqueued ops = dequeued ops ++ q' := by
  induction ops generalizing q with
  | nil =>
    obtain rfl := Option.some.inj h
    simp [enqueued, dequeued]
  | cons op ops ih =>
    obtain ⟨u, hstep, hrun⟩ := TransitionSystem.exists_of_run_cons h
    have hu := ih hrun
    cases op with
    | enqueue v =>
      simp only [system, step, Option.ite_none_right_eq_some, Option.some.injEq] at hstep
      obtain ⟨-, rfl⟩ := hstep
      simpa [enqueued, dequeued] using hu
    | dequeue v =>
      simp only [system, step, Option.ite_none_right_eq_some, Option.some.injEq] at hstep
      obtain ⟨hhead, rfl⟩ := hstep
      obtain ⟨rest, rfl⟩ := List.head?_eq_some_iff.mp hhead
      simpa [enqueued, dequeued] using hu

end BoundedQueue
