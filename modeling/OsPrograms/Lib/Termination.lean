import OsPrograms.Lib.TransitionSystem

/-!
# Systems all of whose runs end

For programs without infinite loops it can be said how many steps they take: those that the parts of
the system have to take in any order. `EndsAfter` says that this is the number of steps of all runs
that have come to an end, and that a run ends nowhere else; `endsAfter_of_rank` proves it from the
number of steps that are still to be taken in a state.
-/

namespace TransitionSystem

variable {S A : Type*} {sys : TransitionSystem S A} {n : Nat} {Q : S → Prop}

/-- All runs end in `Q`, after `n` steps. -/
structure EndsAfter (sys : TransitionSystem S A) (n : Nat) (Q : S → Prop) : Prop where
  length_le : ∀ as s, sys.run sys.init as = some s → as.length ≤ n
  /-- A run has come to its end when it has taken all steps. -/
  ends_iff : ∀ as s, sys.run sys.init as = some s → (Q s ↔ as.length = n)
  /-- A run does not stop before. -/
  of_stuck : ∀ s, sys.Reachable s → sys.Stuck s → Q s

/-- When every step lowers `rank` by one, `rank` is the number of steps that are still to be
taken. -/
theorem endsAfter_of_rank (rank : S → Nat) (hinit : rank sys.init = n)
    (hstep : ∀ s a s', sys.Reachable s → sys.step s a = some s' → rank s' + 1 = rank s)
    (hend : ∀ s, sys.Reachable s → (Q s ↔ rank s = 0))
    (hstuck : ∀ s, sys.Reachable s → sys.Stuck s → Q s) : sys.EndsAfter n Q := by
  have hcount (as : List A) (s : S) (hrun : sys.run sys.init as = some s) :
      as.length + rank s = n := by
    have hsum := Reachable.countP_run_eq rank (fun _ => true)
      (fun s a s' hs hs' => by
        have := hstep s a s' hs hs'
        simp only [if_true]
        omega) .init hrun
    rw [List.countP_true, hinit] at hsum
    exact hsum
  refine ⟨fun as s hrun => ?_, fun as s hrun => ?_, hstuck⟩
  · have := hcount as s hrun
    omega
  · have := hcount as s hrun
    rw [hend s (reachable_of_run hrun)]
    omega

/-- When every step lowers `rank`, a run can be continued until nothing can happen. -/
theorem Reachable.exists_stuck (rank : S → Nat)
    (hrank : ∀ s a s', sys.Reachable s → sys.step s a = some s' → rank s' < rank s) {s : S}
    (h : sys.Reachable s) : ∃ s', sys.Reachable s' ∧ sys.Stuck s' := by
  induction hn : rank s using Nat.strongRecOn generalizing s with
  | _ n ih =>
    by_cases hstuck : sys.Stuck s
    · exact ⟨s, h, hstuck⟩
    · obtain ⟨a, ha⟩ := Classical.not_forall.mp hstuck
      obtain ⟨s', hs'⟩ := Option.ne_none_iff_exists'.mp ha
      exact ih (rank s') (hn ▸ hrank s a s' h hs') (h.next hs') rfl

end TransitionSystem
