import Mathlib.Data.Fintype.Basic
import Mathlib.Logic.Function.Basic

/-!
# Locks on ranges of bytes

Exclusive locks on parts of a file, as far as a process needs them that locks one range at a time:
a table says which range each process holds. A range is granted to a process if it overlaps none of
the ranges that others hold, so the ranges in the table never overlap (`Exclusive`).
-/

/-- `len` bytes from `start` on. -/
structure ByteRange where
  start : ℕ
  len : ℕ
  /-- To the kernel a length of zero means all bytes from `start` on. -/
  len_pos : 0 < len
  deriving DecidableEq, Repr

namespace ByteRange

/-- The byte at `p` belongs to the range. -/
def Contains (r : ByteRange) (p : ℕ) : Prop :=
  r.start ≤ p ∧ p < r.start + r.len

instance (r : ByteRange) (p : ℕ) : Decidable (r.Contains p) :=
  inferInstanceAs (Decidable (_ ∧ _))

/-- Two ranges conflict. -/
def Overlaps (r r' : ByteRange) : Prop :=
  r.start < r'.start + r'.len ∧ r'.start < r.start + r.len

instance (r r' : ByteRange) : Decidable (r.Overlaps r') :=
  inferInstanceAs (Decidable (_ ∧ _))

theorem Overlaps.symm {r r' : ByteRange} (h : r.Overlaps r') : r'.Overlaps r :=
  ⟨h.2, h.1⟩

/-- Ranges with a common byte overlap. -/
theorem overlaps_of_contains {r r' : ByteRange} {p : ℕ} (h : r.Contains p) (h' : r'.Contains p) :
    r.Overlaps r' := by
  unfold Contains at h h'
  exact ⟨by omega, by omega⟩

end ByteRange

namespace RangeLock

variable {ι : Type*} {locks : ι → Option ByteRange} {i : ι} {r : ByteRange}

/-- No other process holds a range that overlaps `r`. -/
def Grantable (locks : ι → Option ByteRange) (i : ι) (r : ByteRange) : Prop :=
  ∀ j, j ≠ i → ∀ r' ∈ locks j, ¬r.Overlaps r'

instance [Fintype ι] [DecidableEq ι] : Decidable (Grantable locks i r) :=
  inferInstanceAs (Decidable (∀ j, j ≠ i → ∀ r' ∈ locks j, ¬r.Overlaps r'))

/-- Ranges of different processes do not overlap. -/
def Exclusive (locks : ι → Option ByteRange) : Prop :=
  ∀ i j, i ≠ j → ∀ r ∈ locks i, ∀ r' ∈ locks j, ¬r.Overlaps r'

variable [DecidableEq ι]

/-- `F_SETLKW` with `F_WRLCK` succeeds. -/
def acquire (locks : ι → Option ByteRange) (i : ι) (r : ByteRange) : ι → Option ByteRange :=
  Function.update locks i (some r)

/-- The locks of a process are released when it exits. -/
def release (locks : ι → Option ByteRange) (i : ι) : ι → Option ByteRange :=
  Function.update locks i none

/-- A lock that is granted overlaps none of the others. -/
theorem Exclusive.acquire (h : Exclusive locks) (hr : Grantable locks i r) :
    Exclusive (acquire locks i r) := by
  intro j k hjk q hq q' hq'
  simp only [RangeLock.acquire, Function.update_apply] at hq hq'
  split at hq <;> split at hq'
  next hj hk => exact absurd (hj.trans hk.symm) hjk
  next hj hk =>
    obtain rfl := Option.some.inj hq
    exact hr k hk q' hq'
  next hj hk =>
    obtain rfl := Option.some.inj hq'
    exact fun hover => hr j hj q hq hover.symm
  next => exact h j k hjk q hq q' hq'

/-- Without one of them the locks still do not overlap. -/
theorem Exclusive.release (h : Exclusive locks) : Exclusive (release locks i) := by
  intro j k hjk q hq q' hq'
  simp only [RangeLock.release, Function.update_apply] at hq hq'
  split at hq
  next => cases hq
  next =>
    split at hq'
    next => cases hq'
    next => exact h j k hjk q hq q' hq'

end RangeLock
