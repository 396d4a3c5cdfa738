import Mathlib.Data.List.Count
import Mathlib.Data.Nat.ModEq
import Mathlib.Logic.Function.Basic

/-!
# Windows of a sequence in a ring of slots

A bounded buffer stores the elements `r, …, w - 1` of a sequence in `cap` slots, element `j` in
slot `j % cap`. `Window cap slots val r w` says that it does; `Window.push` and `Window.pop` move
its two ends, as long as the window never holds more than `cap` elements.

`visits cap k` lists the slots that the first `k` elements went through, in order. Comparing how
often a slot was written and how often it was read tells whether it holds an unread element
(`count_visits_eq`, `count_visits_lt`).
-/

/-- Distinct elements less than `cap` apart are in distinct slots. -/
theorem Nat.mod_ne_mod_of_lt_of_lt_add {cap j w : ℕ} (hjw : j < w) (hw : w < j + cap) :
    j % cap ≠ w % cap := by
  intro h
  have hmod : j ≡ w [MOD cap] := h
  -- in one slot they would be a multiple of `cap` apart
  have hdvd : cap ∣ w - j := (Nat.modEq_iff_dvd' hjw.le).mp hmod
  have hle := Nat.le_of_dvd (by omega) hdvd
  omega

namespace RingWindow

variable {α : Type*} {cap r w : ℕ} {slots : ℕ → α} {val : ℕ → α}

/-- The slots hold the elements `r, …, w - 1` of the sequence `val`. -/
def Window (cap : ℕ) (slots : ℕ → α) (val : ℕ → α) (r w : ℕ) : Prop :=
  ∀ j, r ≤ j → j < w → slots (j % cap) = val j

/-- An empty window. -/
theorem Window.empty (cap : ℕ) (slots : ℕ → α) (val : ℕ → α) (r : ℕ) :
    Window cap slots val r r := by
  intro j hr hw
  omega

/-- The oldest element of a non-empty window is in its slot. -/
theorem Window.front (h : Window cap slots val r w) (hrw : r < w) : slots (r % cap) = val r :=
  h r le_rfl hrw

/-- The window without its oldest element. -/
theorem Window.pop (h : Window cap slots val r w) : Window cap slots val (r + 1) w := by
  intro j hr hw
  exact h j (by omega) hw

/-- Writing the next element into its slot overwrites none of the window when there is room. -/
theorem Window.push (h : Window cap slots val r w) (hroom : w < r + cap) :
    Window cap (Function.update slots (w % cap) (val w)) val r (w + 1) := by
  intro j hr hw
  rcases Nat.lt_succ_iff_lt_or_eq.mp hw with hlt | rfl
  · rw [Function.update_of_ne (Nat.mod_ne_mod_of_lt_of_lt_add hlt (by omega))]
    exact h j hr hlt
  · rw [Function.update_self]

/-- The slots of the first `k` elements, in order. -/
def visits (cap k : ℕ) : List ℕ :=
  (List.range k).map (· % cap)

/-- The next slot to be visited. -/
theorem visits_succ (cap k : ℕ) : visits cap (k + 1) = visits cap k ++ [k % cap] := by
  simp [visits, List.range_succ]

/-- The visits up to `w` are those up to `r` and those of the window. -/
theorem count_visits_add (cap r d t : ℕ) :
    (visits cap (r + d)).count t =
      (visits cap r).count t + ((List.range d).map fun j => (r + j) % cap).count t := by
  rw [visits, List.range_add, List.map_append, List.count_append, List.map_map]
  rfl

/-- While there is room, the slot of the next element has been read as often as written. -/
theorem count_visits_eq (hrw : r ≤ w) (hroom : w < r + cap) :
    (visits cap w).count (w % cap) = (visits cap r).count (w % cap) := by
  obtain ⟨d, rfl⟩ := Nat.exists_eq_add_of_le hrw
  rw [count_visits_add, Nat.add_eq_left, List.count_eq_zero]
  -- no element of the window is in the slot of the next one
  intro hmem
  obtain ⟨j, hj, hslot⟩ := List.mem_map.mp hmem
  rw [List.mem_range] at hj
  exact Nat.mod_ne_mod_of_lt_of_lt_add (by omega) (by omega) hslot

/-- The slot of the oldest element of a non-empty window has been written more often than
read. -/
theorem count_visits_lt (hrw : r < w) :
    (visits cap r).count (r % cap) < (visits cap w).count (r % cap) := by
  obtain ⟨d, rfl⟩ := Nat.exists_eq_add_of_le hrw.le
  rw [count_visits_add, Nat.lt_add_right_iff_pos, List.count_pos_iff]
  -- the window itself starts with a visit to that slot
  exact List.mem_map.mpr ⟨0, List.mem_range.mpr (by omega), rfl⟩

end RingWindow
