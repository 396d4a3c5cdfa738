import Mathlib.Data.Nat.Notation
import Mathlib.Logic.Relation
import Mathlib.Tactic.SplitIfs

/-!
# Wait-for relations

Each process waits for at most one other process: `waits p` is the process that `p` waits for. A
kernel that refuses requests which would close a cycle follows the chain of waiting processes from
the one that holds the requested lock, and looks for the one that requests it (`reaches`).

When there is a rank that grows along the relation, there is no cycle, the search finds nothing,
and every chain ends at a process that does not wait.

## Main results

- `acyclic_of_rank`, `rank_le_of_reaches`, `exists_end`.
-/

namespace WaitFor

variable {ι : Type*} (waits : ι → Option ι)

/-- `p` waits for `q`. -/
def Rel (p q : ι) : Prop :=
  waits p = some q

/-- No process waits for itself, directly or through others. -/
def Acyclic : Prop :=
  ∀ p, ¬Relation.TransGen (Rel waits) p p

/-- The chain of waiting processes that starts with `q` comes to `target` within `fuel` steps. -/
def reaches [DecidableEq ι] (target : ι) : ℕ → ι → Bool
  | 0, q => q = target
  | fuel + 1, q =>
    if q = target then true
    else
      match waits q with
      | none => false
      | some r => reaches target fuel r

variable {waits} {rank : ι → ℕ} (hrank : ∀ p q, waits p = some q → rank p < rank q)
include hrank

/-- The rank grows along chains. -/
theorem rank_lt_of_transGen {p q : ι} (h : Relation.TransGen (Rel waits) p q) :
    rank p < rank q := by
  induction h with
  | single h => exact hrank _ _ h
  | tail _ h ih => exact Nat.lt_trans ih (hrank _ _ h)

/-- Where the rank grows along every wait, nobody waits for itself. -/
theorem acyclic_of_rank : Acyclic waits := fun _ h =>
  Nat.lt_irrefl _ (rank_lt_of_transGen hrank h)

/-- The search finds only processes of a rank that is not smaller. -/
theorem rank_le_of_reaches [DecidableEq ι] {target : ι} {fuel : ℕ} {q : ι}
    (h : reaches waits target fuel q) : rank q ≤ rank target := by
  induction fuel generalizing q with
  | zero =>
    obtain rfl : q = target := by simpa [reaches] using h
    exact Nat.le_refl _
  | succ fuel ih =>
    rw [reaches] at h
    split_ifs at h with hq
    · exact Nat.le_of_eq (congrArg rank hq)
    · cases hw : waits q with
      | none => simp [hw] at h
      | some r =>
        rw [hw] at h
        exact Nat.le_trans (Nat.le_of_lt (hrank q r hw)) (ih h)

/-- With bounded ranks, whoever waits does so, in the end, for somebody who does not. -/
theorem exists_end {bound : ℕ} (hbound : ∀ p, rank p ≤ bound) (p : ι) :
    ∃ q, Relation.ReflTransGen (Rel waits) p q ∧ waits q = none := by
  -- induction on how far the rank of `p` is below the bound
  obtain ⟨d, hd⟩ : ∃ d, bound ≤ rank p + d := ⟨bound, Nat.le_add_left _ _⟩
  induction d generalizing p with
  | zero =>
    refine ⟨p, .refl, ?_⟩
    cases hw : waits p with
    | none => rfl
    | some q =>
      have hlt := hrank p q hw
      have hle := hbound q
      omega
  | succ d ih =>
    cases hw : waits p with
    | none => exact ⟨p, .refl, hw⟩
    | some q =>
      have hlt := hrank p q hw
      obtain ⟨r, hqr, hr⟩ := ih q (by omega)
      exact ⟨r, .head hw hqr, hr⟩

end WaitFor
