import Mathlib.Logic.Basic

/-!
# Exclusive advisory locks

An exclusive lock on one object (the whole of a file, a mutex) has at most one owner. Who counts
as an owner is what distinguishes the lock families: the process for `fcntl` locks, the open file
description for OFD locks. A request conflicts only with a lock of another owner.
-/

namespace RecordLock

variable {ω : Type*} [DecidableEq ω]

/-- A lock request by `o`: the holder after it was granted, `none` if it conflicts. -/
def acquire (holder : Option ω) (o : ω) : Option (Option ω) :=
  if holder = none ∨ holder = some o then some (some o) else none

/-- An unlock by `o`, which gives up no lock but its own. -/
def release (holder : Option ω) (o : ω) : Option ω :=
  if holder = some o then none else holder

/-- A lock is granted if it is free, or if its owner asks for it again. -/
@[simp]
theorem acquire_eq_some_iff {holder holder' : Option ω} {o : ω} :
    acquire holder o = some holder' ↔
      (holder = none ∨ holder = some o) ∧ holder' = some o := by
  simp [acquire, eq_comm]

@[simp]
theorem release_self (o : ω) : release (some o) o = none :=
  if_pos rfl

/-- After an unlock by `o`, the lock is held by another owner or by nobody. -/
theorem release_eq_some_iff {holder : Option ω} {o o' : ω} :
    release holder o = some o' ↔ holder = some o' ∧ o' ≠ o := by
  rw [release]
  split
  · simp_all [eq_comm]
  · simp only [iff_self_and]
    rintro rfl rfl
    contradiction

/-- With only one possible owner no request conflicts. -/
theorem acquire_of_subsingleton [Subsingleton ω] (holder : Option ω) (o : ω) :
    acquire holder o = some (some o) := by
  rw [acquire_eq_some_iff]
  cases holder with
  | none => exact ⟨.inl rfl, rfl⟩
  | some o' => exact ⟨.inr (by rw [Subsingleton.elim o' o]), rfl⟩

end RecordLock
