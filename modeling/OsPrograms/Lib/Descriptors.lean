import Mathlib.Data.Finset.Lattice.Fold
import Mathlib.Data.Nat.Find
import Mathlib.Logic.Function.Basic
import Mathlib.Order.Lattice.Nat

/-!
# Descriptor tables

The table of a process maps descriptor numbers to what they refer to. Finitely many numbers are in
use, and a call that makes a new descriptor takes the lowest free number.

## Main results

- `lowestFree_spec`, `lowestFree_le`: the number that a new descriptor gets.
- `lowestFree_lt_lowestFree_set`: the next one gets a larger number.
-/

/-- A descriptor table with entries in `φ`. -/
structure Descriptors (φ : Type*) where
  /-- What a number refers to; `none` for a free number. -/
  entry : ℕ → Option φ
  /-- The numbers in use are below `bound`. -/
  bound : ℕ
  entry_of_le : ∀ k, bound ≤ k → entry k = none

namespace Descriptors

variable {φ : Type*}

/-- The table without entries. -/
def empty : Descriptors φ where
  entry _ := none
  bound := 0
  entry_of_le _ _ := rfl

/-- The table in which the numbers in `opened` are in use. -/
def ofFinset (opened : Finset ℕ) (file : ℕ → φ) : Descriptors φ where
  entry k := if k ∈ opened then some (file k) else none
  bound := opened.sup id + 1
  entry_of_le k hk := by
    rw [if_neg]
    intro hmem
    have hle : k ≤ opened.sup id := Finset.le_sup (f := id) hmem
    omega

/-- The table after the entry of `k` has been replaced. -/
def set (t : Descriptors φ) (k : ℕ) (e : Option φ) : Descriptors φ where
  entry := Function.update t.entry k e
  bound := max t.bound (k + 1)
  entry_of_le j hj := by
    rw [Function.update_of_ne (by omega)]
    exact t.entry_of_le j (by omega)

instance (t : Descriptors φ) (k : ℕ) : Decidable (t.entry k = none) :=
  decidable_of_iff ((t.entry k).isNone = true) Option.isNone_iff_eq_none

/-- A table has finitely many entries, so that some number is free. -/
theorem exists_free (t : Descriptors φ) : ∃ k, t.entry k = none :=
  ⟨t.bound, t.entry_of_le _ (Nat.le_refl _)⟩

/-- The number that the next new descriptor gets. -/
def lowestFree (t : Descriptors φ) : ℕ :=
  Nat.find t.exists_free

/-- Some number of the table refers to `file`. -/
def RefersTo (t : Descriptors φ) (file : φ) : Prop :=
  ∃ k < t.bound, t.entry k = some file

instance [DecidableEq φ] (t : Descriptors φ) (file : φ) : Decidable (t.RefersTo file) :=
  inferInstanceAs (Decidable (∃ k < t.bound, t.entry k = some file))

variable {t : Descriptors φ} {j k : ℕ} {e : Option φ} {file : φ}

theorem entry_set : (t.set k e).entry j = if j = k then e else t.entry j := by
  rw [set]
  exact Function.update_apply t.entry k e j

@[simp]
theorem entry_set_self : (t.set k e).entry k = e := by
  rw [entry_set, if_pos rfl]

theorem entry_set_of_ne (h : j ≠ k) : (t.set k e).entry j = t.entry j := by
  rw [entry_set, if_neg h]

/-- The bound of the table does not matter. -/
theorem refersTo_iff : t.RefersTo file ↔ ∃ k, t.entry k = some file := by
  constructor
  · rintro ⟨k, -, hk⟩
    exact ⟨k, hk⟩
  · rintro ⟨k, hk⟩
    refine ⟨k, ?_, hk⟩
    by_contra hle
    rw [t.entry_of_le k (by omega)] at hk
    cases hk

/-- What a changed table refers to, it refers to by the new entry or by an old one. -/
theorem RefersTo.of_set (h : (t.set k e).RefersTo file) :
    e = some file ∨ ∃ j, j ≠ k ∧ t.entry j = some file := by
  obtain ⟨j, hj⟩ := refersTo_iff.mp h
  by_cases hjk : j = k
  · rw [hjk, entry_set_self] at hj
    exact .inl hj
  · rw [entry_set_of_ne hjk] at hj
    exact .inr ⟨j, hjk, hj⟩

/-- The number that is chosen is free. -/
theorem lowestFree_spec (t : Descriptors φ) : t.entry t.lowestFree = none :=
  Nat.find_spec t.exists_free

/-- All smaller numbers are in use. -/
theorem lowestFree_le (h : t.entry k = none) : t.lowestFree ≤ k :=
  Nat.find_min' t.exists_free h

/-- After the lowest free number has been used, the next one is larger. -/
theorem lowestFree_lt_lowestFree_set (t : Descriptors φ) (file : φ) :
    t.lowestFree < (t.set t.lowestFree (some file)).lowestFree := by
  have hfree := (t.set t.lowestFree (some file)).lowestFree_spec
  have hne : (t.set t.lowestFree (some file)).lowestFree ≠ t.lowestFree := by
    intro h
    rw [h, entry_set_self] at hfree
    cases hfree
  rw [entry_set_of_ne hne] at hfree
  exact lt_of_le_of_ne (lowestFree_le hfree) hne.symm

end Descriptors
