import Mathlib.Data.Nat.Notation

/-!
# Counting semaphores

A semaphore is an atomic counter. `wait` is not enabled at zero, which is how a transition system
models that the caller blocks; `post` always succeeds.
-/

namespace Semaphore

/-- `sem_wait` when it does not block: the value after the decrement. -/
def wait : ℕ → Option ℕ
  | 0 => none
  | n + 1 => some n

/-- `sem_post`. -/
def post (n : ℕ) : ℕ :=
  n + 1

/-- `sem_wait` returns when the value is positive, and lowers it. -/
@[simp]
theorem wait_eq_some_iff {n m : ℕ} : wait n = some m ↔ n = m + 1 := by
  cases n <;> simp [wait]

end Semaphore
