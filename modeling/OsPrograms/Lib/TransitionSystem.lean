import Mathlib.Logic.Basic

/-!
# Guarded transition systems

A concurrent program is modelled as a guarded step function: `step s a` is `some s'` when the
action `a` is enabled in `s` and leads to `s'`, and `none` when `a` is not enabled. An action
names the process that moves and every choice the kernel makes for it, so one interleaving is
one list of actions.

* `run` replays a list of actions, and is what a concrete schedule evaluates.
* `ReachableVia ok` are the states reached by the runs all of whose steps satisfy `ok`, a
  condition on the state before the step and on the action; `Reachable` puts no condition.
* `ReachableVia.invariant` is the induction rule every safety result is proved with.
* `Stuck` states have no enabled action.
-/

/-- A transition system with states `S` and actions `A`. -/
structure TransitionSystem (S A : Type*) where
  /-- The initial state. -/
  init : S
  /-- The state after an enabled action, `none` for an action that is not enabled. -/
  step : S → A → Option S

namespace TransitionSystem

variable {S A : Type*} (sys : TransitionSystem S A)

/-- The state after performing the actions in order, `none` if one of them is not enabled. -/
def run : S → List A → Option S
  | s, [] => some s
  | s, a :: as => (sys.step s a).bind fun s' => run s' as

/-- The states reached from `init` by steps that all satisfy `ok`. -/
inductive ReachableVia (ok : S → A → Prop) : S → Prop
  | init : ReachableVia ok sys.init
  | step {s s' : S} {a : A} :
      ReachableVia ok s → ok s a → sys.step s a = some s' → ReachableVia ok s'

/-- The states reached from `init` by any steps. -/
def Reachable : S → Prop :=
  sys.ReachableVia fun _ _ => True

/-- No action is enabled in `s`. -/
def Stuck (s : S) : Prop :=
  ∀ a, sys.step s a = none

variable {sys} {ok : S → A → Prop} {s s' : S}

/-- Performing an enabled action from a reachable state reaches its result. -/
theorem Reachable.next {a : A} (h : sys.Reachable s) (hstep : sys.step s a = some s') :
    sys.Reachable s' :=
  ReachableVia.step h trivial hstep

/-- A predicate that holds initially and is kept by every step satisfying `ok` holds in every
state reached by such steps. -/
theorem ReachableVia.invariant {P : S → Prop} (h : sys.ReachableVia ok s) (hinit : P sys.init)
    (hstep : ∀ s a s', P s → ok s a → sys.step s a = some s' → P s') : P s := by
  induction h with
  | init => exact hinit
  | step _ ha hs ih => exact hstep _ _ _ ih ha hs

/-- A predicate that holds initially and is kept by every step holds in every reachable
state. -/
theorem Reachable.invariant {P : S → Prop} (h : sys.Reachable s) (hinit : P sys.init)
    (hstep : ∀ s a s', P s → sys.step s a = some s' → P s') : P s :=
  ReachableVia.invariant h hinit fun s a s' hP _ => hstep s a s' hP

/-- The same rule for a predicate whose step may use that the state is reachable. -/
theorem Reachable.invariant' {P : S → Prop} (h : sys.Reachable s) (hinit : P sys.init)
    (hstep : ∀ s a s', sys.Reachable s → P s → sys.step s a = some s' → P s') : P s := by
  induction h with
  | init => exact hinit
  | step hs _ hstep' ih => exact hstep _ _ _ hs ih hstep'

/-- What is reachable by some steps is reachable. -/
theorem ReachableVia.reachable (h : sys.ReachableVia ok s) : sys.Reachable s :=
  h.invariant ReachableVia.init fun _ _ _ hs _ hstep => Reachable.next hs hstep

/-- A system with the same initial state and more steps reaches at least as many states. -/
theorem Reachable.mono {sys' : TransitionSystem S A} (h : sys.Reachable s)
    (hinit : sys.init = sys'.init)
    (hstep : ∀ s a s', sys.step s a = some s' → sys'.step s a = some s') : sys'.Reachable s := by
  apply h.invariant
  · rw [hinit]
    exact .init
  · intro s a s' hs hs'
    exact Reachable.next hs (hstep s a s' hs')

@[simp]
theorem run_nil : sys.run s [] = some s := rfl

/-- The first action of a run is performed first. -/
theorem run_cons {a : A} {as : List A} {t : S} (hstep : sys.step s a = some t) :
    sys.run s (a :: as) = sys.run t as := by
  simp [run, hstep]

/-- A run that begins with `a` makes this step first. -/
theorem exists_of_run_cons {a : A} {as : List A} {t : S} (h : sys.run s (a :: as) = some t) :
    ∃ u, sys.step s a = some u ∧ sys.run u as = some t :=
  Option.bind_eq_some_iff.mp h

/-- Two runs compose. -/
theorem run_append {as bs : List A} {t : S} (h : sys.run s as = some t) :
    sys.run s (as ++ bs) = sys.run t bs := by
  induction as generalizing s with
  | nil => simp_all
  | cons a as ih =>
    obtain ⟨u, hstep, hrun⟩ := exists_of_run_cons h
    rw [List.cons_append, run_cons hstep, ih hrun]

/-- A run from a reachable state ends in a reachable state. -/
theorem Reachable.run {as : List A} (h : sys.Reachable s) (hrun : sys.run s as = some s') :
    sys.Reachable s' := by
  induction as generalizing s with
  | nil => simp_all
  | cons a as ih =>
    obtain ⟨u, hstep, hrun⟩ := exists_of_run_cons hrun
    exact ih (h.next hstep) hrun

/-- A run from the initial state ends in a reachable state. -/
theorem reachable_of_run {as : List A} (hrun : sys.run sys.init as = some s) :
    sys.Reachable s :=
  Reachable.run ReachableVia.init hrun

/-- When every step from a reachable state lowers `rank`, a run takes no more steps than the rank it
begins with. -/
theorem Reachable.length_run_le {rank : S → Nat} {as : List A}
    (hrank : ∀ s a s', sys.Reachable s → sys.step s a = some s' → rank s' < rank s)
    (h : sys.Reachable s) (hrun : sys.run s as = some s') :
    as.length + rank s' ≤ rank s := by
  induction as generalizing s with
  | nil => simp_all
  | cons a as ih =>
    obtain ⟨u, hstep, hrun⟩ := exists_of_run_cons hrun
    have hlt := hrank s a u h hstep
    have hle := ih (h.next hstep) hrun
    rw [List.length_cons]
    omega

/-- When each step in `p` lowers `rank` by one and the others leave it, the rank counts the steps in
`p` that are still to come. -/
theorem Reachable.countP_run_eq (rank : S → Nat) (p : A → Bool) {as : List A}
    (hrank : ∀ s a s', sys.Reachable s → sys.step s a = some s' →
      (if p a then 1 else 0) + rank s' = rank s)
    (h : sys.Reachable s) (hrun : sys.run s as = some s') :
    as.countP p + rank s' = rank s := by
  induction as generalizing s with
  | nil =>
    obtain rfl := Option.some.inj hrun
    rw [List.countP_nil, Nat.zero_add]
  | cons a as ih =>
    obtain ⟨u, hstep, hrun⟩ := exists_of_run_cons hrun
    have hlt := hrank s a u h hstep
    have heq := ih (h.next hstep) hrun
    rw [List.countP_cons]
    omega

end TransitionSystem
