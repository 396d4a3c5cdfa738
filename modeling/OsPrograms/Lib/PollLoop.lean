import OsPrograms.Lib.Signal
import OsPrograms.Lib.TransitionSystem

/-!
# Loops that die when `poll` does not report readiness

A loop that calls `poll` and treats every result but 1 in the same way: it dies. A result of -1
comes from a signal that is delivered while `poll` is blocked, so such a loop dies of a signal as if
the timeout had passed. All that matters here of a state is where it stands in relation to `poll`
(`PollView`), and of an action whether it delivers a signal.

* `PollStep`: what a step may do to the view.
* `PollLoop`: a transition system whose steps do no more than that.
* `PollLoop.timedOut_of_died`: if no signal is delivered while `poll` is blocked, the loop dies only
  of a timeout.
-/

/-- Where a loop stands in relation to its `poll`. -/
inductive PollView
  | blocked
  /-- `poll` has returned `r`, which is compared next. -/
  | result (r : PollResult)
  /-- The loop has died of the result `r`. -/
  | died (r : PollResult)
  | elsewhere
  deriving DecidableEq, Repr

/-- A step of the loop or of the kernel, which delivers a signal or not. -/
inductive PollStep : PollView → Prop → PollView → Prop
  | same {v : PollView} {delivers : Prop} : PollStep v delivers v
  | leave {v : PollView} {delivers : Prop} : PollStep v delivers .elsewhere
  | block {v : PollView} {delivers : Prop} : PollStep v delivers .blocked
  | ready {v : PollView} {delivers : Prop} : PollStep v delivers (.result .ready)
  | timeout {delivers : Prop} : PollStep .blocked delivers (.result .timedOut)
  | interrupt {delivers : Prop} (h : delivers) : PollStep .blocked delivers (.result .interrupted)
  | die {r : PollResult} {delivers : Prop} (h : r ≠ .ready) :
      PollStep (.result r) delivers (.died r)

/-- `poll` has not failed, and the loop has not died of anything but a timeout. -/
structure PollView.Patient (v : PollView) : Prop where
  result : v ≠ .result .interrupted
  died : ∀ r, v = .died r → r = .timedOut

/-- One step: without a signal while `poll` is blocked it does not fail. -/
theorem PollView.Patient.step {v v' : PollView} {delivers : Prop} (h : v.Patient)
    (hs : PollStep v delivers v') (hok : delivers → v ≠ .blocked) : v'.Patient := by
  cases hs with
  | same => exact h
  | leave | block | ready | timeout => exact ⟨by simp, by simp⟩
  | interrupt hdelivers => exact absurd rfl (hok hdelivers)
  | @die r _ hne =>
    refine ⟨by simp, fun r' hr => ?_⟩
    rw [← PollView.died.inj hr]
    -- a result that is not 1 is 0, because it is not an interruption
    cases r with
    | ready => exact absurd rfl hne
    | timedOut => rfl
    | interrupted => exact absurd rfl h.result

/-- The states of `sys` stand to `poll` as `view` says, and the actions in `Delivers` are those that
deliver a signal. -/
structure PollLoop {S A : Type*} (sys : TransitionSystem S A) (view : S → PollView)
    (Delivers : A → Prop) : Prop where
  init : view sys.init = .elsewhere
  step : ∀ s a s', sys.step s a = some s' → PollStep (view s) (Delivers a) (view s')

/-- A loop whose `poll` is not interrupted dies only when the timeout has passed. -/
theorem PollLoop.timedOut_of_died {S A : Type*} {sys : TransitionSystem S A} {view : S → PollView}
    {Delivers : A → Prop} {ok : S → A → Prop} (h : PollLoop sys view Delivers)
    (hok : ∀ s a, ok s a → Delivers a → view s ≠ .blocked) {s : S} (hs : sys.ReachableVia ok s)
    {r : PollResult} (hdied : view s = .died r) : r = .timedOut := by
  have hpatient : (view s).Patient := by
    refine hs.invariant (P := fun s => (view s).Patient) ?_ fun s a s' ih ha hstep =>
      ih.step (h.step s a s' hstep) (hok s a ha)
    rw [h.init]
    exact ⟨by simp, by simp⟩
  exact hpatient.died r hdied
