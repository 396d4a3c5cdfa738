import Mathlib.Data.Int.Notation
import Mathlib.Data.Nat.Notation

/-!
# System V semaphores

The value of a System V semaphore lies between 0 and `SEMVMX`, and `semop` adds to it, waits until
it can subtract from it, or waits until it is zero. With `SEM_UNDO` the kernel also keeps for each
process an adjustment that takes back what the process has done, and applies it when the process
terminates for any reason.
-/

namespace SysvSemaphore

/-- `SEMVMX`, the largest value of a semaphore. -/
def semvmx : ℕ := 32767

/-- What a call of `semop` comes to. -/
inductive Outcome (α : Type)
  /-- The caller sleeps. -/
  | blocks
  /-- The call fails with `ERANGE`. -/
  | erange
  | returns (a : α)
  deriving DecidableEq, Repr

/-- `semop` with one operation `op` on a semaphore of value `value`. It returns the new value. -/
def semop (value : ℕ) (op : ℤ) : Outcome ℕ :=
  if op = 0 ∧ value ≠ 0 then .blocks
  else if (value : ℤ) + op < 0 then .blocks
  else if (semvmx : ℤ) < value + op then .erange
  else .returns ((value : ℤ) + op).toNat

/-- `semop` with `SEM_UNDO`, by a process whose adjustment is `adj`. It returns the new value and
the new adjustment. -/
def semopUndo (value : ℕ) (adj op : ℤ) : Outcome (ℕ × ℤ) :=
  match semop value op with
  | .blocks => .blocks
  | .erange => .erange
  | .returns value' =>
    if adj - op < -semvmx - 1 ∨ semvmx < adj - op then .erange else .returns (value', adj - op)

/-- The value after a process with adjustment `adj` has terminated. -/
def undo (value : ℕ) (adj : ℤ) : ℕ :=
  min ((value : ℤ) + adj).toNat semvmx

/-- Waiting for zero goes on exactly at zero. -/
@[simp]
theorem semop_zero (value : ℕ) :
    semop value 0 = if value = 0 then .returns 0 else .blocks := by
  rcases value with _ | value
  · rfl
  · simp [semop]

/-- A decrement blocks exactly at zero. -/
@[simp]
theorem semop_neg_one {value : ℕ} (h : value ≤ semvmx) :
    semop value (-1) = if value = 0 then .blocks else .returns (value - 1) := by
  rcases value with _ | value
  · rfl
  · have hle : ¬(semvmx : ℤ) < (value + 1 : ℕ) + -1 := by omega
    have hnonneg : ¬((value + 1 : ℕ) : ℤ) + -1 < 0 := by omega
    have hvalue : ((value + 1 : ℕ) + -1 : ℤ).toNat = value := by omega
    rw [semop, if_neg (by simp), if_neg hnonneg, if_neg hle, hvalue]
    simp

/-- Taking a binary semaphore that is free. -/
@[simp]
theorem semopUndo_take : semopUndo 1 0 (-1) = .returns (0, 1) := by
  decide

/-- A binary semaphore that is taken blocks. -/
@[simp]
theorem semopUndo_blocks (adj : ℤ) : semopUndo 0 adj (-1) = .blocks :=
  rfl

/-- Giving back a binary semaphore. -/
@[simp]
theorem semopUndo_give : semopUndo 0 1 1 = .returns (1, 0) := by
  decide

/-- Without an adjustment the semaphore keeps its value. -/
@[simp]
theorem undo_zero {value : ℕ} (h : value ≤ semvmx) : undo value 0 = value := by
  rw [undo, Int.add_zero, Int.toNat_natCast]
  exact Nat.min_eq_left h

/-- A binary semaphore is free again when its holder terminates. -/
@[simp]
theorem undo_take : undo 0 1 = 1 := by
  decide

end SysvSemaphore
