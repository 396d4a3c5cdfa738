import Mathlib.Algebra.BigOperators.Fin
import Mathlib.Data.Fintype.BigOperators
import Mathlib.Data.List.FinRange

/-!
# Tables of processes

A step of one process changes one entry of the table of processes. What holds of all entries has
to be shown of the new one only, and a quantity summed over the table changes by the difference
at that entry. A log of what each process has done once is a list without repetitions.
-/

/-- What holds of every entry of `g` holds after entry `i` is changed to `x`, if it holds of
`x`. -/
theorem Function.forall_update_of_forall {ι α : Type*} [DecidableEq ι] {P : α → Prop} {g : ι → α}
    (h : ∀ k, P (g k)) {i : ι} {x : α} (hx : P x) (k : ι) : P (Function.update g i x k) :=
  (Function.forall_update_iff g fun _ => P).mpr ⟨hx, fun k _ => h k⟩ k

/-- Changing entry `i` of `g` to `x` changes the sum of `f` by the difference at `i`. -/
theorem Finset.sum_update_add_of_mem {ι α : Type*} [DecidableEq ι] (f : α → ℕ) (g : ι → α)
    {S : Finset ι} {i : ι} (hi : i ∈ S) (x : α) :
    ∑ k ∈ S, f (Function.update g i x k) + f (g i) = ∑ k ∈ S, f (g k) + f x := by
  have hsplit := Finset.add_sum_erase S (fun k => f (g k)) hi
  have hsplit' := Finset.add_sum_erase S (fun k => f (Function.update g i x k)) hi
  -- away from `i` the two sums have the same terms
  have hrest : ∑ k ∈ S.erase i, f (Function.update g i x k) = ∑ k ∈ S.erase i, f (g k) := by
    refine Finset.sum_congr rfl fun k hk => ?_
    rw [Function.update_of_ne (Finset.ne_of_mem_erase hk)]
  simp only [Function.update_self] at hsplit'
  rw [hrest] at hsplit'
  omega

/-- When one entry of a table changes, a sum over the table changes by this entry. -/
theorem Finset.sum_update_add {ι α : Type*} [Fintype ι] [DecidableEq ι] (f : α → ℕ) (g : ι → α)
    (i : ι) (x : α) :
    ∑ k, f (Function.update g i x k) + f (g i) = ∑ k, f (g k) + f x :=
  Finset.sum_update_add_of_mem f g (Finset.mem_univ i) x

/-- Process `a` enters a log for the first time. -/
theorem List.Nodup.append_singleton {α : Type*} {l : List α} {a : α} (h : l.Nodup) (ha : a ∉ l) :
    (l ++ [a]).Nodup :=
  List.nodup_append_comm.mpr (List.nodup_cons.mpr ⟨ha, h⟩)

/-- A log in which every process occurs once has them all, in some order. -/
theorem List.Nodup.perm_finRange {n : ℕ} {l : List (Fin n)} (h : l.Nodup) (hall : ∀ i, i ∈ l) :
    l.Perm (List.finRange n) :=
  (List.perm_ext_iff_of_nodup h (List.nodup_finRange n)).mpr fun i =>
    ⟨fun _ => List.mem_finRange i, fun _ => hall i⟩
