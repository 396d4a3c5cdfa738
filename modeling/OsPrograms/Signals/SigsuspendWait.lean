import Mathlib.Algebra.Order.Ring.Nat
import OsPrograms.Lib.TransitionSystem

/-!
# Waiting with `sigsuspend` (`sigsuspend_wait`)

```
parent                                          child
sigaction(SIGUSR1, …);                          usleep(50000);
sigprocmask(SIG_BLOCK, SIGUSR1);                kill(getppid(), SIGUSR1);
fork();                                         _exit(0);
while (!ready) sigsuspend(&empty);
printf(…); reap_all_children();
```

The parent tests `ready` with the signal blocked, and `sigsuspend` unblocks it and sleeps in one
step. So the handler cannot run between the test and the sleep, however long the kernel takes to
deliver a signal, and the wake-up is not lost. Other processes can send `SIGUSR1` as well, at any
time; before `sigaction` it kills the parent.

The result of `fork` is only compared with 0. If the call fails there is nobody to send the signal,
and the parent sleeps for ever.

## Main results

- `Inv`: the handler runs only in `sigsuspend`, or before the signal is blocked, and a signal that
  has been sent is pending until it runs.
- `sigsuspend_completes_iff`: all runs end, and all of them get to the end of `main` or are killed
  before `sigaction` exactly when `fork` succeeds.
-/

namespace SigsuspendWait

open TransitionSystem

structure Config where
  /-- The number of signals that other processes send. -/
  foreign : ℕ
  /-- `fork` succeeds. -/
  forks : Bool

/-- The next statement of the parent. -/
inductive Pc
  | sigaction
  | sigprocmask
  | fork
  /-- The test `!ready`. -/
  | test
  | sigsuspend
  /-- Asleep in `sigsuspend`, which restores `mask` when it returns. -/
  | suspended (mask : Bool)
  | print
  /-- In `reap_all_children`. -/
  | reap
  | returned
  /-- `SIGUSR1` had its default action. -/
  | killed
  deriving DecidableEq, Repr

/-- The next statement of the child. -/
inductive Child
  | unborn
  | usleep
  | kill
  /-- `_exit(0)` -/
  | exit
  | exited
  | reaped
  /-- `fork` has failed. -/
  | absent
  deriving DecidableEq, Repr

structure State where
  pc : Pc
  child : Child
  /-- `SIGUSR1` is blocked in the parent. -/
  blocked : Bool
  /-- `SIGUSR1` is pending for the parent. -/
  pending : Bool
  /-- `on_usr1` runs in the parent. -/
  handler : Bool
  ready : Bool
  /-- The signals that other processes have still to send. -/
  foreign : ℕ
  /-- How often the line has been printed. -/
  printed : ℕ
  deriving DecidableEq, Repr

inductive Action
  /-- The parent performs its next statement. -/
  | main
  /-- The kernel delivers `SIGUSR1` to the parent. -/
  | deliver
  /-- `on_usr1` runs to its end. -/
  | handler
  | child
  /-- Another process sends `SIGUSR1`. -/
  | foreign
  deriving DecidableEq, Repr

section Model

variable (c : Config) (s : State)

def init : State where
  pc := .sigaction
  child := .unborn
  blocked := false
  pending := false
  handler := false
  ready := false
  foreign := c.foreign
  printed := 0

/-- The next statement of the parent, `none` while it sleeps and after its end. -/
def mainStep : Option State :=
  match s.pc with
  | .sigaction => some { s with pc := .sigprocmask }
  | .sigprocmask => some { s with blocked := true, pc := .fork }
  | .fork => some { s with child := if c.forks then .usleep else .absent, pc := .test }
  | .test => some { s with pc := if s.ready then .print else .sigsuspend }
  | .sigsuspend => some { s with blocked := false, pc := .suspended s.blocked }
  | .print => some { s with printed := s.printed + 1, pc := .reap }
  | .reap =>
    match s.child with
    | .exited => some { s with child := .reaped }
    -- `wait` fails with `ECHILD`
    | .unborn | .reaped | .absent => some { s with pc := .returned }
    | .usleep | .kill | .exit => none
  | .suspended _ | .returned | .killed => none

/-- The next statement of the child. -/
def childStep : Option State :=
  match s.child with
  | .usleep => some { s with child := .kill }
  | .kill => some { s with pending := true, child := .exit }
  | .exit => some { s with child := .exited }
  | .unborn | .exited | .reaped | .absent => none

/-- `SIGUSR1` is delivered, if it is pending and neither blocked nor being handled. -/
def deliverStep : Option State :=
  if s.pending ∧ s.blocked = false ∧ s.handler = false ∧ s.pc ≠ .returned ∧ s.pc ≠ .killed then
    if s.pc = .sigaction then
      some { s with pending := false, pc := .killed }
    else
      some { s with pending := false, handler := true }
  else
    none

/-- `on_usr1` returns, and with it `sigsuspend`. -/
def handlerStep : Option State :=
  if s.handler then
    match s.pc with
    | .suspended mask => some
        { s with ready := true, handler := false, blocked := mask, pc := .test }
    | _ => some { s with ready := true, handler := false }
  else
    none

def step : Action → Option State
  | .main => if s.handler then none else mainStep c s
  | .deliver => deliverStep s
  | .handler => handlerStep s
  | .child => childStep s
  | .foreign =>
    if 0 < s.foreign then some { s with foreign := s.foreign - 1, pending := true } else none

/-- Parent, child and kernel, interleaved. -/
def system : TransitionSystem State Action where
  init := init c
  step := step c

end Model

/-! ## The invariant -/

/-- `SIGUSR1` is blocked at this statement. -/
def Pc.blocked : Pc → Bool
  | .sigaction | .sigprocmask | .suspended _ | .killed => false
  | .fork | .test | .sigsuspend | .print | .reap | .returned => true

/-- The parent has not forked. -/
def Pc.early : Pc → Bool
  | .sigaction | .sigprocmask | .fork | .killed => true
  | .test | .sigsuspend | .suspended _ | .print | .reap | .returned => false

/-- The handler can run here: the signal is not blocked, and has no default action any more. -/
def Pc.handles : Pc → Bool
  | .sigprocmask | .suspended _ => true
  | .sigaction | .fork | .test | .sigsuspend | .print | .reap | .returned | .killed => false

/-- What the parent knows of `ready` at a statement: it goes to sleep only while the handler has not
run, and prints only after it has. -/
def Pc.Knows (ready : Bool) : Pc → Prop
  | .sigsuspend => ready = false
  | .suspended mask => mask = true ∧ ready = false
  | .print | .reap | .returned => ready = true
  | .sigaction | .sigprocmask | .fork | .test | .killed => True

/-- The number of lines printed before this statement. -/
def Pc.lines : Pc → ℕ
  | .reap | .returned => 1
  | .sigaction | .sigprocmask | .fork | .test | .sigsuspend | .suspended _ | .print | .killed => 0

/-- The child has sent its signal. -/
def Child.sent : Child → Bool
  | .exit | .exited | .reaped => true
  | .unborn | .usleep | .kill | .absent => false

/-- The invariant of the program. -/
structure Inv (c : Config) (s : State) : Prop where
  blocked : s.blocked = s.pc.blocked
  knows : s.pc.Knows s.ready
  handler : s.handler = true → s.pc.handles = true
  /-- The signal of the child is not lost. -/
  sent : s.child.sent = true → s.ready = true ∨ s.pending = true ∨ s.handler = true
  unborn : s.child = .unborn ↔ s.pc.early = true
  absent : s.child = .absent → c.forks = false
  returned : s.pc = .returned → s.child = .reaped ∨ s.child = .absent
  printed : s.printed = s.pc.lines

section Inv

variable {c : Config} {s s' : State} {a : Action}

theorem Inv.init (c : Config) : Inv c (init c) where
  blocked := rfl
  knows := trivial
  handler := by simp [SigsuspendWait.init]
  sent := by simp [SigsuspendWait.init, Child.sent]
  unborn := by simp [SigsuspendWait.init, Pc.early]
  absent := by simp [SigsuspendWait.init]
  returned := by simp [SigsuspendWait.init]
  printed := rfl

/-- The parent forks, or fails to. -/
theorem Inv.fork (h : Inv c s) (hidle : s.handler = false) (hpc : s.pc = .fork) :
    Inv c { s with child := if c.forks then .usleep else .absent, pc := .test } where
  blocked := by rw [h.blocked, hpc]; rfl
  knows := trivial
  handler := by simp [hidle]
  sent := by cases c.forks <;> simp [Child.sent]
  unborn := by cases c.forks <;> simp [Pc.early]
  absent := by cases c.forks <;> simp
  returned := by simp
  printed := by rw [h.printed, hpc]; rfl

/-- The parent tests `ready` and goes to sleep with the signal blocked in between. -/
theorem Inv.mainStep (h : Inv c s) (hidle : s.handler = false)
    (hs : SigsuspendWait.mainStep c s = some s') : Inv c s' := by
  obtain ⟨pc, child, blocked, pending, handler, ready, foreign, printed⟩ := s
  dsimp only at hidle
  subst hidle
  cases pc
  case suspended | returned | killed => cases hs
  case sigaction =>
    obtain rfl := Option.some.inj hs
    exact { h with knows := trivial, handler := by simp, returned := by simp }
  case sigprocmask =>
    obtain rfl := Option.some.inj hs
    exact { h with blocked := rfl, knows := trivial, handler := by simp, returned := by simp }
  case fork =>
    obtain rfl := Option.some.inj hs
    exact h.fork rfl rfl
  case test =>
    obtain rfl := Option.some.inj hs
    -- the signal is blocked, so what the test has found stays true
    cases ready
    · exact { h with knows := rfl, handler := by simp, returned := by simp }
    · exact { h with knows := rfl, handler := by simp, returned := by simp }
  case sigsuspend =>
    obtain rfl := Option.some.inj hs
    exact { h with
      blocked := rfl
      knows := ⟨h.blocked, h.knows⟩
      handler := by simp
      returned := by simp }
  case print =>
    obtain rfl := Option.some.inj hs
    have hprinted : printed = 0 := h.printed
    exact { h with
      handler := by simp
      returned := by simp
      printed := by rw [hprinted]; rfl }
  case reap =>
    -- the handler has run, so the signal of the child need not be there any more
    have hready : ready = true := h.knows
    cases child
    case unborn => cases h.unborn.mp rfl
    case exited =>
      obtain rfl := Option.some.inj hs
      exact { h with
        sent := fun _ => .inl hready
        unborn := by simp [Pc.early]
        absent := by simp
        returned := by simp }
    case reaped | absent =>
      obtain rfl := Option.some.inj hs
      exact { h with handler := by simp, returned := by simp }
    case usleep | kill | exit => cases hs

/-- A step of a child that is running, so that the parent has not returned. -/
theorem Inv.nextChild {child : Child} {pending : Bool} (h : Inv c s) (hborn : s.child ≠ .unborn)
    (hrunning : s.child ≠ .reaped ∧ s.child ≠ .absent)
    (hchild : child ≠ .unborn ∧ child ≠ .absent)
    (hsent : child.sent = true → s.ready = true ∨ pending = true ∨ s.handler = true) :
    Inv c { s with child := child, pending := pending } :=
  { h with
    sent := hsent
    unborn := iff_of_false hchild.1 (h.unborn.not.mp hborn)
    absent := fun habsent => absurd habsent hchild.2
    returned := fun hpc => ((h.returned hpc).elim hrunning.1 hrunning.2).elim }

/-- The child sends its signal and exits. -/
theorem Inv.childStep (h : Inv c s) (hs : SigsuspendWait.childStep s = some s') : Inv c s' := by
  unfold SigsuspendWait.childStep at hs
  cases hchild : s.child <;> simp only [hchild, Option.some.injEq, reduceCtorEq] at hs
  case usleep =>
    subst hs
    exact h.nextChild (by simp [hchild]) (by simp [hchild]) (by simp) (by simp [Child.sent])
  case kill =>
    subst hs
    exact h.nextChild (by simp [hchild]) (by simp [hchild]) (by simp) fun _ => .inr (.inl rfl)
  case exit =>
    subst hs
    exact h.nextChild (by simp [hchild]) (by simp [hchild]) (by simp)
      fun _ => h.sent (by rw [hchild]; rfl)

/-- The signal is delivered only in `sigsuspend`, or before it is blocked. -/
theorem Inv.deliverStep (h : Inv c s) (hs : SigsuspendWait.deliverStep s = some s') :
    Inv c s' := by
  unfold SigsuspendWait.deliverStep at hs
  split_ifs at hs with henabled hpc
  · obtain rfl := Option.some.inj hs
    obtain ⟨pc, child, blocked, pending, handler, ready, foreign, printed⟩ := s
    obtain ⟨-, -, hidle, -⟩ := henabled
    dsimp only at hidle hpc
    subst hidle hpc
    have hnone : child = .unborn := h.unborn.mpr rfl
    exact { h with
      knows := trivial
      handler := by simp
      sent := by simp [hnone, Child.sent]
      returned := by simp }
  · obtain rfl := Option.some.inj hs
    obtain ⟨-, hopen, -, hreturned, hkilled⟩ := henabled
    have hblocked : s.pc.blocked = false := by rw [← h.blocked, hopen]
    have hhandles : s.pc.handles = true := by
      cases hat : s.pc <;> simp [hat, Pc.blocked, Pc.handles] at hblocked hpc hkilled ⊢
    exact { h with handler := fun _ => hhandles, sent := fun _ => .inr (.inr rfl) }

/-- After the handler the parent goes on where it was, or tests `ready` again. -/
theorem Inv.handlerStep (h : Inv c s) (hs : SigsuspendWait.handlerStep s = some s') :
    Inv c s' := by
  unfold SigsuspendWait.handlerStep at hs
  split_ifs at hs with hrun
  have hhandles := h.handler hrun
  obtain ⟨pc, child, blocked, pending, handler, ready, foreign, printed⟩ := s
  cases pc <;> simp only [Pc.handles, reduceCtorEq] at hhandles
  case sigprocmask =>
    obtain rfl := Option.some.inj hs
    exact { h with knows := trivial, handler := by simp, sent := fun _ => .inl rfl }
  case suspended mask =>
    obtain rfl := Option.some.inj hs
    obtain ⟨rfl, -⟩ : mask = true ∧ ready = false := h.knows
    exact { h with
      blocked := rfl
      knows := trivial
      handler := by simp
      sent := fun _ => .inl rfl
      returned := by simp }

/-- The signals of other processes take nothing away. -/
theorem Inv.step (h : Inv c s) (hs : step c s a = some s') : Inv c s' := by
  cases a with
  | main =>
    simp only [SigsuspendWait.step, Option.ite_none_left_eq_some] at hs
    exact h.mainStep (eq_false_of_ne_true hs.1) hs.2
  | deliver => exact h.deliverStep hs
  | handler => exact h.handlerStep hs
  | child => exact h.childStep hs
  | foreign =>
    simp only [SigsuspendWait.step, Option.ite_none_right_eq_some, Option.some.injEq] at hs
    obtain ⟨-, rfl⟩ := hs
    exact { h with sent := fun _ => .inr (.inl rfl) }

/-- The invariant holds along every run. -/
theorem inv_of_reachable (h : (system c).Reachable s) : Inv c s :=
  h.invariant (Inv.init c) fun _ _ _ hinv hs => hinv.step hs

end Inv

/-! ## Whole runs -/

/-- What is left to do for the parent. It sleeps at most once, since the handler sets `ready`. -/
def Pc.rank (ready : Bool) : Pc → ℕ
  | .sigaction => 10
  | .sigprocmask => 9
  | .fork => 8
  | .test => if ready then 4 else 7
  | .sigsuspend => 6
  | .suspended _ => 5
  | .print => 3
  | .reap => 2
  | .returned | .killed => 0

/-- What is left to do for the child and for its signal. -/
def Child.rank : Child → ℕ
  | .unborn | .usleep => 6
  | .kill => 5
  | .exit => 2
  | .exited => 1
  | .reaped | .absent => 0

/-- What is left to do. -/
def State.rank (s : State) : ℕ :=
  3 * s.foreign + (if s.pending then 2 else 0) + (if s.handler then 1 else 0) +
    s.pc.rank s.ready + s.child.rank

section Runs

variable {c : Config} {s s' : State} {a : Action}

/-- The parent has fewer statements left, since it goes to sleep only once. -/
theorem rank_mainStep (h : Inv c s) (hs : mainStep c s = some s') : s'.rank < s.rank := by
  have hunborn := h.unborn
  unfold mainStep at hs
  cases hpc : s.pc <;> simp only [hpc, Option.some.injEq, reduceCtorEq] at hs hunborn
  case fork =>
    subst hs
    have hchild : s.child = .unborn := hunborn.mpr rfl
    have htest : Pc.test.rank s.ready ≤ 7 := by
      rw [Pc.rank]
      split <;> omega
    have hnew : (if c.forks then Child.usleep else .absent).rank ≤ 6 := by
      cases c.forks <;> simp [Child.rank]
    have hold : Child.unborn.rank = 6 := rfl
    have hfork : Pc.fork.rank s.ready = 8 := rfl
    simp only [State.rank, hpc, hchild]
    omega
  case test =>
    subst hs
    by_cases hready : s.ready = true
    · simp only [State.rank, hpc, hready, if_true, Pc.rank]
      omega
    · rw [if_neg hready]
      simp only [State.rank, hpc, hready, Pc.rank, Bool.false_eq_true, if_false]
      omega
  case reap =>
    cases hchild : s.child <;> simp only [hchild, Option.some.injEq, reduceCtorEq] at hs <;>
      subst hs <;> simp only [State.rank, hpc, hchild, Pc.rank, Child.rank] <;> omega
  all_goals
    subst hs
    simp only [State.rank, hpc, Pc.rank]
    omega

/-- The child has fewer statements left, and its signal is counted from then on. -/
theorem rank_childStep (hs : childStep s = some s') : s'.rank < s.rank := by
  unfold childStep at hs
  cases hchild : s.child <;> simp only [hchild, Option.some.injEq, reduceCtorEq] at hs
  case kill =>
    subst hs
    -- the signal is counted as pending now
    simp only [State.rank, hchild, Child.rank, if_true]
    omega
  all_goals
    subst hs
    simp only [State.rank, hchild, Child.rank]
    omega

/-- A signal that is delivered makes a handler run. -/
theorem rank_deliverStep (hs : deliverStep s = some s') : s'.rank < s.rank := by
  unfold deliverStep at hs
  split_ifs at hs with henabled hpc
  · obtain rfl := Option.some.inj hs
    simp only [State.rank, hpc, henabled.1, Pc.rank, Bool.false_eq_true, if_true, if_false]
    omega
  · obtain rfl := Option.some.inj hs
    simp only [State.rank, henabled.1, henabled.2.2.1, Bool.false_eq_true, if_true, if_false]
    omega

/-- The handler ends the sleep, and sets `ready`. -/
theorem rank_handlerStep (h : Inv c s) (hs : handlerStep s = some s') : s'.rank < s.rank := by
  unfold handlerStep at hs
  split_ifs at hs with hrun
  have hhandles := h.handler hrun
  cases hpc : s.pc <;> simp only [hpc, Pc.handles, reduceCtorEq, Option.some.injEq] at hs hhandles
  all_goals
    subst hs
    simp only [State.rank, hpc, hrun, Pc.rank, Bool.false_eq_true, if_true, if_false]
    omega

/-- Every step leaves less to do. -/
theorem rank_step (h : Inv c s) (hs : step c s a = some s') : s'.rank < s.rank := by
  cases a with
  | main =>
    simp only [step, Option.ite_none_left_eq_some] at hs
    exact rank_mainStep h hs.2
  | deliver => exact rank_deliverStep hs
  | handler => exact rank_handlerStep h hs
  | child => exact rank_childStep hs
  | foreign =>
    simp only [step, Option.ite_none_right_eq_some, Option.some.injEq] at hs
    obtain ⟨hpos, rfl⟩ := hs
    simp only [State.rank, if_true]
    omega

/-- When only other processes could do something, the parent has ended or `fork` had failed. -/
theorem ended_of_stuck (h : Inv c s) (hforks : c.forks = true)
    (hstuck : ∀ a, a ≠ .foreign → step c s a = none) : s.pc = .returned ∨ s.pc = .killed := by
  have hhandler : handlerStep s = none := hstuck .handler (by simp)
  have hchild : childStep s = none := hstuck .child (by simp)
  have hdeliver : deliverStep s = none := hstuck .deliver (by simp)
  have hidle : s.handler = false := by
    by_contra hrun
    have hrun : s.handler = true := eq_true_of_ne_false hrun
    unfold handlerStep at hhandler
    rw [if_pos hrun] at hhandler
    split at hhandler <;> cases hhandler
  have hmain : mainStep c s = none := by
    have hmain := hstuck .main (by simp)
    simpa [step, hidle] using hmain
  have hended : s.child = .unborn ∨ s.child.sent = true := by
    have habsent : s.child ≠ .absent := fun habsent => by simp [h.absent habsent] at hforks
    unfold childStep at hchild
    cases hc : s.child <;> simp [hc, Child.sent] at hchild habsent ⊢
  unfold mainStep at hmain
  cases hpc : s.pc <;> simp only [hpc, reduceCtorEq] at hmain
  case suspended mask =>
    -- the child has sent its signal, and it has not been delivered, so now it can be
    have hready : s.ready = false := by
      have hknows := h.knows
      rw [hpc] at hknows
      exact hknows.2
    have hborn : s.child ≠ .unborn := by simp [h.unborn, hpc, Pc.early]
    have hpending : s.pending = true := by
      simpa [hready, hidle] using h.sent (hended.resolve_left hborn)
    have hblocked : s.blocked = false := by rw [h.blocked, hpc]; rfl
    simp [deliverStep, hpending, hblocked, hidle, hpc] at hdeliver
  case reap =>
    rcases hended with hc | hsent
    · simp [hc] at hmain
    · unfold childStep at hchild
      cases hc : s.child <;> simp [hc, Child.sent] at hmain hsent hchild
  case returned => exact .inl rfl
  case killed => exact .inr rfl

end Runs

/-- Whatever other processes send and whenever the kernel delivers it: all runs are finite, and a
parent that returns has seen the handler run, has printed its line once and has no child left. All
runs get there, unless a signal kills the parent before `sigaction`, exactly when `fork`
succeeds. -/
theorem sigsuspend_completes_iff (c : Config) :
    (∀ as s, (system c).run (init c) as = some s → as.length ≤ 3 * c.foreign + 16) ∧
    (∀ s, (system c).Reachable s → s.pc = .returned →
      s.ready = true ∧ s.printed = 1 ∧ (s.child = .reaped ∨ s.child = .absent)) ∧
    ((∀ s, (system c).Reachable s → (∀ a, a ≠ .foreign → step c s a = none) →
      s.pc = .returned ∨ s.pc = .killed) ↔ c.forks = true) := by
  refine ⟨fun as s hrun => ?_, fun s hs hpc => ?_, fun hends => ?_, fun hforks s hs =>
    ended_of_stuck (inv_of_reachable hs) hforks⟩
  · have hlen : as.length + s.rank ≤ (init c).rank := Reachable.length_run_le
      (fun s a s' h (hstep : (system c).step s a = some s') =>
        rank_step (inv_of_reachable h) hstep) .init hrun
    have hinit : (init c).rank = 3 * c.foreign + 16 := rfl
    omega
  · have hinv := inv_of_reachable hs
    have hready : s.ready = true := by
      have hknows := hinv.knows
      rw [hpc] at hknows
      exact hknows
    exact ⟨hready, by rw [hinv.printed, hpc]; rfl, hinv.returned hpc⟩
  · -- without a child the parent sleeps, and nobody wakes it
    by_contra hfails
    have hfails : c.forks = false := eq_false_of_ne_true hfails
    have hrun : (system c).run (init c) [.main, .main, .main, .main, .main] =
        some { init c with pc := .suspended true, child := .absent } := by
      simp [run, system, step, mainStep, init, hfails]
    have hsleeps := hends _ (reachable_of_run hrun) fun a ha => by
      cases a <;> simp [step, mainStep, deliverStep, handlerStep, childStep, init] at ha ⊢
    simp at hsleeps

end SigsuspendWait
