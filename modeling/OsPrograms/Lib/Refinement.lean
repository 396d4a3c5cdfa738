import Mathlib.Data.List.Basic
import OsPrograms.Lib.TransitionSystem

/-!
# Refinement between transition systems

A refinement of a system by a more abstract one maps states to abstract states and each step to the
abstract actions that it stands for: none for a step that the abstract system does not see, or a
run of several. Then every run of the lower system is a run of the upper one
(`Refinement.run_trace`), and what holds in all reachable states of the upper system holds of what
the lower one reaches (`Refinement.reachable_abs`). Where the states of two systems are related
rather than mapped, `Reachable.exists_related` takes a reachable state of the one to one of the
other.
-/

namespace TransitionSystem

variable {S A T B : Type*} {impl : TransitionSystem S A} {spec : TransitionSystem T B}

/-- `impl` refines `spec`. -/
structure Refinement (impl : TransitionSystem S A) (spec : TransitionSystem T B) where
  /-- The abstract state. -/
  abs : S → T
  /-- The abstract actions that the step `a` from `s` stands for. -/
  event : S → A → List B
  abs_init : abs impl.init = spec.init
  run_event : ∀ {s a s'}, impl.Reachable s → impl.step s a = some s' →
    spec.run (abs s) (event s a) = some (abs s')

namespace Refinement

variable (R : Refinement impl spec)

/-- The abstract actions of a run from `s`. -/
def trace : S → List A → List B
  | _, [] => []
  | s, a :: as => R.event s a ++ (impl.step s a).elim [] fun s' => trace s' as

variable {R} {s s' : S} {as : List A}

/-- The abstract operations of a run are those of its first step and of the rest. -/
theorem trace_cons {a : A} {u : S} (h : impl.step s a = some u) :
    R.trace s (a :: as) = R.event s a ++ R.trace u as := by
  rw [trace, h, Option.elim_some]

/-- A run of the lower system is a run of the upper one. -/
theorem run_trace (hs : impl.Reachable s) (hrun : impl.run s as = some s') :
    spec.run (R.abs s) (R.trace s as) = some (R.abs s') := by
  induction as generalizing s with
  | nil =>
    obtain rfl := Option.some.inj hrun
    rfl
  | cons a as ih =>
    obtain ⟨u, hstep, hrun⟩ := exists_of_run_cons hrun
    rw [trace_cons hstep, run_append (R.run_event hs hstep)]
    exact ih (hs.next hstep) hrun

/-- A run of the implementation is a run of the specification, which ends where the implementation
does. -/
theorem run_trace_init (hrun : impl.run impl.init as = some s) :
    spec.run spec.init (R.trace impl.init as) = some (R.abs s) := by
  rw [← R.abs_init]
  exact run_trace .init hrun

/-- Only abstract states that are reachable are reached. -/
theorem reachable_abs (R : Refinement impl spec) (hs : impl.Reachable s) :
    spec.Reachable (R.abs s) := by
  refine hs.invariant' (P := fun s => spec.Reachable (R.abs s)) ?_ ?_
  · rw [R.abs_init]
    exact .init
  · intro s a s' hs habs hstep
    exact habs.run (R.run_event hs hstep)

end Refinement

/-- When every step of the one system can be followed by a step of the other, what the one can reach
has a counterpart that the other can reach. -/
theorem Reachable.exists_related {R : S → T → Prop} (hinit : R impl.init spec.init)
    (hstep : ∀ s a s' t, R s t → impl.step s a = some s' →
      ∃ b t', spec.step t b = some t' ∧ R s' t')
    {s : S} (h : impl.Reachable s) : ∃ t, spec.Reachable t ∧ R s t := by
  refine h.invariant (P := fun s => ∃ t, spec.Reachable t ∧ R s t) ⟨_, .init, hinit⟩ ?_
  rintro s a s' ⟨t, ht, hR⟩ hs
  obtain ⟨b, t', ht', hR'⟩ := hstep s a s' t hR hs
  exact ⟨t', ht.next ht', hR'⟩

end TransitionSystem
