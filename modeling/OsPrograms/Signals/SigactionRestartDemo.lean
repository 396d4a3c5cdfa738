import Mathlib.Algebra.Order.Ring.Nat
import OsPrograms.Lib.TransitionSystem

/-!
# A `read` that is restarted (`sigaction_restart_demo`)

```
parent                                          child
sigaction(SIGUSR1, on_usr1, SA_RESTART);        usleep(50000); kill(getppid(), SIGUSR1);
fork();                                         usleep(50000);
n = read(pipefd[0], buffer, 63);                write_all(pipefd[1], "read resumed …", 26);
if (n == -1) die_errno("read");                 _exit(0);
printf("handled=%d %s", handled, buffer);
wait_for_pid(child);
```

A `read` that waits for data is interrupted by the handler. With `SA_RESTART` it is called again,
without it fails with `EINTR` and the program dies. Which of the two is a parameter of the model.

The line shows `handled=1` only if the handler has run by then. The child sends its signal before it
writes, so the signal is pending at the latest when `read` finds the data. It depends on the kernel
whether it is delivered before `read` returns (`drains`, as on Linux), or can come later.

Other processes can send `SIGUSR1` as well; before `sigaction` it kills the parent. The result of
`fork` is not tested for failure. The parent has the write end of the pipe itself, so without a
child it waits for ever.

## Main results

- `Inv`: the data is in the pipe or in the buffer, and the signal of the child is not lost.
- `restart_completes_iff`: all runs end, and all of them get to the end of `main` or are killed
  before `sigaction` exactly when `fork` succeeds and `SA_RESTART` is set.
- `handled_printed_iff`: what is printed, and when it shows that the handler has run.
-/

namespace SigactionRestartDemo

open TransitionSystem

structure Config where
  /-- `sa_flags` is `SA_RESTART`. -/
  restart : Bool
  /-- The kernel delivers pending signals before `read` returns. -/
  drains : Bool
  /-- `fork` succeeds. -/
  forks : Bool
  /-- The number of signals that other processes send. -/
  foreign : ℕ

/-- The next statement of the parent. -/
inductive Pc
  | sigaction
  | fork
  | read
  /-- In `read`. -/
  | reading
  /-- In `read`, which the handler has interrupted. -/
  | interrupted
  /-- `read` has the data and is about to return. -/
  | returning
  | print
  | waitForPid
  | returned
  /-- After `die_errno("read")`. -/
  | died
  /-- `SIGUSR1` had its default action. -/
  | killed
  deriving DecidableEq, Repr

/-- The next statement of the child. -/
inductive Child
  | unborn
  | usleep
  | kill
  /-- The second `usleep`. -/
  | usleepAgain
  | write
  /-- `_exit(0)` -/
  | exit
  | exited
  /-- `fork` has failed. -/
  | absent
  deriving DecidableEq, Repr

structure State where
  pc : Pc
  child : Child
  /-- What has been written to the pipe and not read. -/
  pipe : List Char
  /-- What `read` has stored in `buffer`. -/
  buffer : List Char
  /-- `SIGUSR1` is pending for the parent. -/
  pending : Bool
  /-- `on_usr1` runs in the parent. -/
  handler : Bool
  handled : Bool
  /-- The signals that other processes have still to send. -/
  foreign : ℕ
  /-- The values of `handled` and `buffer` that have been printed. -/
  printed : Option (Bool × List Char)
  deriving DecidableEq, Repr

inductive Action
  /-- The parent performs its next statement. -/
  | main
  /-- The kernel delivers `SIGUSR1` to the parent. -/
  | deliver
  /-- `on_usr1` runs to its end. -/
  | handler
  | child
  /-- Another process sends `SIGUSR1`. -/
  | foreign
  deriving DecidableEq, Repr

/-- What the child writes, in one piece. -/
def text : List Char :=
  "read resumed after signal\n".toList

section Model

variable (c : Config) (s : State)

def init : State where
  pc := .sigaction
  child := .unborn
  pipe := []
  buffer := []
  pending := false
  handler := false
  handled := false
  foreign := c.foreign
  printed := none

/-- The next statement of the parent, `none` while it waits and after its end. -/
def mainStep : Option State :=
  match s.pc with
  | .sigaction => some { s with pc := .fork }
  | .fork => some { s with child := if c.forks then .usleep else .absent, pc := .read }
  | .read => some { s with pc := .reading }
  | .reading =>
    if s.pipe = [] then none
    else some { s with pipe := s.pipe.drop 63, buffer := s.pipe.take 63, pc := .returning }
  | .returning => if c.drains ∧ s.pending then none else some { s with pc := .print }
  | .print => some { s with printed := some (s.handled, s.buffer), pc := .waitForPid }
  -- `waitpid` is called again when a handler interrupts it
  | .waitForPid => if s.child = .exited then some { s with pc := .returned } else none
  | .interrupted | .returned | .died | .killed => none

/-- The next statement of the child. -/
def childStep : Option State :=
  match s.child with
  | .usleep => some { s with child := .kill }
  | .kill => some { s with pending := true, child := .usleepAgain }
  | .usleepAgain => some { s with child := .write }
  | .write => some { s with pipe := s.pipe ++ text, child := .exit }
  | .exit => some { s with child := .exited }
  | .unborn | .exited | .absent => none

/-- `SIGUSR1` is delivered, if it is pending and not being handled. A `read` is interrupted only
while it finds no data. -/
def deliverStep : Option State :=
  if s.pending ∧ s.handler = false then
    match s.pc with
    | .sigaction => some { s with pending := false, pc := .killed }
    | .reading =>
      if s.pipe = [] then some { s with pending := false, handler := true, pc := .interrupted }
      else none
    | .returned | .died | .killed => none
    | _ => some { s with pending := false, handler := true }
  else
    none

/-- `on_usr1` returns. -/
def handlerStep : Option State :=
  if s.handler then
    match s.pc with
    | .interrupted => some
        { s with handled := true, handler := false, pc := if c.restart then .read else .died }
    | _ => some { s with handled := true, handler := false }
  else
    none

def step : Action → Option State
  | .main => if s.handler then none else mainStep c s
  | .deliver => deliverStep s
  | .handler => handlerStep c s
  | .child => childStep s
  | .foreign =>
    if 0 < s.foreign then some { s with foreign := s.foreign - 1, pending := true } else none

/-- Parent, child and kernel, interleaved. -/
def system : TransitionSystem State Action where
  init := init c
  step := step c

end Model

/-! ## The invariant -/

/-- The parent has not forked. -/
def Pc.early : Pc → Bool
  | .sigaction | .fork | .killed => true
  | .read | .reading | .interrupted | .returning | .print | .waitForPid | .returned | .died => false

/-- `read` has got the data. -/
def Pc.hasRead : Pc → Bool
  | .returning | .print | .waitForPid | .returned => true
  | .sigaction | .fork | .read | .reading | .interrupted | .died | .killed => false

/-- What holds at a statement of the parent. A handler that starts in `read` interrupts it, and only
without `SA_RESTART` does `read` fail then. -/
def Pc.Stage (c : Config) (handler handled : Bool) : Pc → Prop
  | .sigaction | .reading => handler = false
  | .interrupted => handler = true
  | .print | .waitForPid | .returned => c.drains = true → handled = true
  | .died => c.restart = false
  | .fork | .read | .returning | .killed => True

/-- Whether `fork` succeeds shows in the child. -/
def Child.Forked (forks : Bool) : Child → Prop
  | .unborn => True
  | .absent => forks = false
  | .usleep | .kill | .usleepAgain | .write | .exit | .exited => forks = true

/-- The child has sent its signal. -/
def Child.sent : Child → Bool
  | .usleepAgain | .write | .exit | .exited => true
  | .unborn | .usleep | .kill | .absent => false

/-- The child has written the text. -/
def Child.wrote : Child → Bool
  | .exit | .exited => true
  | .unborn | .usleep | .kill | .usleepAgain | .write | .absent => false

/-- The invariant of the program. -/
structure Inv (c : Config) (s : State) : Prop where
  unborn : s.child = .unborn ↔ s.pc.early = true
  forked : s.child.Forked c.forks
  stage : s.pc.Stage c s.handler s.handled
  pipe : s.pipe = if s.child.wrote && !s.pc.hasRead then text else []
  hasRead : s.pc.hasRead = true → s.child.wrote = true ∧ s.buffer = text
  /-- The signal of the child is not lost. -/
  sent : s.child.sent = true → s.handled = true ∨ s.pending = true ∨ s.handler = true
  printed : ∀ r, s.printed = some r →
    r.2 = text ∧ (c.drains = true → r.1 = true) ∧ c.forks = true

section Inv

variable {c : Config} {s s' : State} {a : Action}

/-- The child sends its signal before it writes. -/
theorem sent_of_wrote {child : Child} (h : child.wrote = true) : child.sent = true := by
  cases child <;> simp_all [Child.wrote, Child.sent]

/-- A child that has written is there. -/
theorem Child.Forked.of_wrote {child : Child} {forks : Bool} (h : child.Forked forks)
    (hwrote : child.wrote = true) : forks = true := by
  cases child <;> first | exact h | cases hwrote

/-- `read` asks for enough to get all of the text. -/
theorem length_text_le : text.length ≤ 63 := by
  decide

theorem text_ne_nil : text ≠ [] := by
  decide

theorem Inv.init (c : Config) : Inv c (init c) where
  unborn := by simp [SigactionRestartDemo.init, Pc.early]
  forked := trivial
  stage := rfl
  pipe := rfl
  hasRead := by simp [SigactionRestartDemo.init, Pc.hasRead]
  sent := by simp [SigactionRestartDemo.init, Child.sent]
  printed := by simp [SigactionRestartDemo.init]

/-- The parent forks, or fails to. -/
theorem Inv.fork (h : Inv c s) (hpc : s.pc = .fork) :
    Inv c { s with child := if c.forks then .usleep else .absent, pc := .read } where
  unborn := by cases c.forks <;> simp [Pc.early]
  forked := by cases c.forks <;> rfl
  stage := trivial
  pipe := by
    have hnone : s.child = .unborn := by simp [h.unborn, hpc, Pc.early]
    have hempty : s.pipe = [] := by simpa [hnone, Child.wrote] using h.pipe
    cases c.forks <;> exact hempty
  hasRead := by simp [Pc.hasRead]
  sent := by cases c.forks <;> simp [Child.sent]
  printed := h.printed

/-- `read` finds the text and takes all of it. -/
theorem Inv.read (h : Inv c s) (hpc : s.pc = .reading) (hdata : s.pipe ≠ []) :
    Inv c { s with pipe := s.pipe.drop 63, buffer := s.pipe.take 63, pc := .returning } := by
  have hpipe := h.pipe
  have hunborn := h.unborn
  rw [hpc] at hpipe hunborn
  -- there is data, so the child has written, and all of it fits
  have hwrote : s.child.wrote = true := by
    by_contra hnot
    exact hdata (by simpa [hnot] using hpipe)
  have htext : s.pipe = text := by simpa [hwrote, Pc.hasRead] using hpipe
  exact { h with
    unborn := hunborn
    stage := trivial
    pipe := by
      simp only [htext, List.drop_eq_nil_of_le length_text_le, Pc.hasRead, Bool.not_true,
        Bool.and_false, Bool.false_eq_true, if_false]
    hasRead := fun _ => ⟨hwrote, by rw [htext, List.take_of_length_le length_text_le]⟩ }

/-- The parent reads the text and prints it. -/
theorem Inv.mainStep (h : Inv c s) (hidle : s.handler = false)
    (hs : SigactionRestartDemo.mainStep c s = some s') : Inv c s' := by
  obtain ⟨pc, child, pipe, buffer, pending, handler, handled, foreign, printed⟩ := s
  dsimp only at hidle
  subst hidle
  cases pc
  case sigaction =>
    obtain rfl := Option.some.inj hs
    exact { h with stage := trivial }
  case fork =>
    obtain rfl := Option.some.inj hs
    exact h.fork rfl
  case read =>
    obtain rfl := Option.some.inj hs
    exact { h with stage := rfl }
  case reading =>
    simp only [SigactionRestartDemo.mainStep, Option.ite_none_left_eq_some, Option.some.injEq] at hs
    obtain ⟨hdata, rfl⟩ := hs
    exact h.read rfl hdata
  case returning =>
    simp only [SigactionRestartDemo.mainStep, Option.ite_none_left_eq_some, Option.some.injEq] at hs
    obtain ⟨hheld, rfl⟩ := hs
    have hsent := h.sent (sent_of_wrote (h.hasRead rfl).1)
    -- nothing is pending any more, so the signal of the child has been delivered
    exact { h with
      stage := fun hdrains => by simpa [not_and.mp hheld hdrains] using hsent }
  case print =>
    obtain rfl := Option.some.inj hs
    obtain ⟨hwrote, hbuffer⟩ := h.hasRead rfl
    exact { h with
      stage := h.stage
      printed := by
        rintro r hr
        obtain rfl := Option.some.inj hr
        exact ⟨hbuffer, h.stage, h.forked.of_wrote hwrote⟩ }
  case waitForPid =>
    simp only [SigactionRestartDemo.mainStep, Option.ite_none_right_eq_some,
      Option.some.injEq] at hs
    obtain ⟨-, rfl⟩ := hs
    exact { h with stage := h.stage }
  case interrupted | returned | died | killed => cases hs

/-- A step of the child that writes nothing. -/
theorem Inv.nextChild {child : Child} {pending : Bool} (h : Inv c s) (hborn : s.child ≠ .unborn)
    (hchild : child ≠ .unborn) (hforked : child.Forked c.forks)
    (hwrote : child.wrote = s.child.wrote)
    (hsent : child.sent = true → s.handled = true ∨ pending = true ∨ s.handler = true) :
    Inv c { s with child := child, pending := pending } where
  unborn := by
    have hunborn := h.unborn
    simp only [hborn, false_iff] at hunborn
    simp [hchild, hunborn]
  forked := hforked
  stage := h.stage
  pipe := by
    show s.pipe = _
    rw [hwrote]
    exact h.pipe
  hasRead hpc := by
    show child.wrote = true ∧ s.buffer = text
    rw [hwrote]
    exact h.hasRead hpc
  sent := hsent
  printed := h.printed

/-- The child writes the text to the pipe, which is empty. -/
theorem Inv.write (h : Inv c s) (hchild : s.child = .write) :
    Inv c { s with pipe := s.pipe ++ text, child := .exit } := by
  have hunborn := h.unborn
  have hpipe := h.pipe
  have hread := h.hasRead
  have hforked := h.forked
  simp only [hchild, reduceCtorEq, false_iff, Child.wrote, Bool.false_eq_true, false_and,
    imp_false, Bool.not_eq_true, Bool.false_and, if_false] at hunborn hpipe hread hforked
  exact { h with
    unborn := by simp [hunborn]
    forked := hforked
    pipe := by simp [hpipe, hread, Child.wrote]
    hasRead := by simp [hread]
    sent := fun _ => h.sent (by rw [hchild]; rfl) }

/-- The child sends its signal, and writes its text afterwards. -/
theorem Inv.childStep (h : Inv c s) (hs : SigactionRestartDemo.childStep s = some s') :
    Inv c s' := by
  have hsent := h.sent
  have hforked := h.forked
  unfold SigactionRestartDemo.childStep at hs
  cases hchild : s.child <;> simp only [hchild, Option.some.injEq, reduceCtorEq] at hs hsent hforked
  case usleep =>
    subst hs
    exact h.nextChild (by simp [hchild]) (by simp) hforked (by rw [hchild]; rfl)
      (by simp [Child.sent])
  case kill =>
    subst hs
    exact h.nextChild (by simp [hchild]) (by simp) hforked (by rw [hchild]; rfl)
      fun _ => .inr (.inl rfl)
  case usleepAgain =>
    subst hs
    exact h.nextChild (by simp [hchild]) (by simp) hforked (by rw [hchild]; rfl)
      fun _ => hsent rfl
  case write =>
    subst hs
    exact h.write hchild
  case exit =>
    subst hs
    exact h.nextChild (by simp [hchild]) (by simp) hforked (by rw [hchild]; rfl)
      fun _ => hsent rfl

/-- The signal kills the parent, interrupts its `read`, or is handled before the next statement. -/
theorem Inv.deliverStep (h : Inv c s) (hs : SigactionRestartDemo.deliverStep s = some s') :
    Inv c s' := by
  simp only [SigactionRestartDemo.deliverStep, Option.ite_none_right_eq_some] at hs
  obtain ⟨henabled, hs⟩ := hs
  obtain ⟨pc, child, pipe, buffer, pending, handler, handled, foreign, printed⟩ := s
  cases pc
  case sigaction =>
    obtain rfl := Option.some.inj hs
    have hnone : child = .unborn := h.unborn.mpr rfl
    exact { h with stage := trivial, sent := by simp [hnone, Child.sent] }
  case reading =>
    rw [Option.ite_none_right_eq_some, Option.some.injEq] at hs
    obtain ⟨-, rfl⟩ := hs
    exact { h with stage := rfl, sent := fun _ => .inr (.inr rfl) }
  case interrupted =>
    -- its handler is running
    obtain rfl : handler = true := h.stage
    simp at henabled
  case fork | read | returning =>
    obtain rfl := Option.some.inj hs
    exact { h with stage := trivial, sent := fun _ => .inr (.inr rfl) }
  case print | waitForPid =>
    obtain rfl := Option.some.inj hs
    exact { h with stage := h.stage, sent := fun _ => .inr (.inr rfl) }
  case returned | died | killed => cases hs

/-- After the handler an interrupted `read` is called again, or has failed. -/
theorem Inv.handlerStep (h : Inv c s) (hs : SigactionRestartDemo.handlerStep c s = some s') :
    Inv c s' := by
  simp only [SigactionRestartDemo.handlerStep, Option.ite_none_right_eq_some] at hs
  obtain ⟨-, hs⟩ := hs
  obtain ⟨pc, child, pipe, buffer, pending, handler, handled, foreign, printed⟩ := s
  cases pc <;> obtain rfl := Option.some.inj hs
  case interrupted =>
    cases hrestart : c.restart
    · exact { h with stage := hrestart, sent := fun _ => .inl rfl }
    · exact { h with stage := trivial, sent := fun _ => .inl rfl }
  case sigaction | reading => exact { h with stage := rfl, sent := fun _ => .inl rfl }
  case fork | read | returning | killed =>
    exact { h with stage := trivial, sent := fun _ => .inl rfl }
  case print | waitForPid | returned =>
    exact { h with stage := fun _ => rfl, sent := fun _ => .inl rfl }
  case died => exact { h with stage := h.stage, sent := fun _ => .inl rfl }

/-- The signals of other processes take nothing away. -/
theorem Inv.step (h : Inv c s) (hs : step c s a = some s') : Inv c s' := by
  cases a with
  | main =>
    simp only [SigactionRestartDemo.step, Option.ite_none_left_eq_some] at hs
    exact h.mainStep (eq_false_of_ne_true hs.1) hs.2
  | deliver => exact h.deliverStep hs
  | handler => exact h.handlerStep hs
  | child => exact h.childStep hs
  | foreign =>
    simp only [SigactionRestartDemo.step, Option.ite_none_right_eq_some, Option.some.injEq] at hs
    obtain ⟨-, rfl⟩ := hs
    exact { h with sent := fun _ => .inr (.inl rfl) }

/-- The invariant holds along every run. -/
theorem inv_of_reachable (h : (system c).Reachable s) : Inv c s :=
  h.invariant (Inv.init c) fun _ _ _ hinv hs => hinv.step hs

end Inv

/-! ## Whole runs -/

/-- What is left to do for the parent. A restarted `read` is paid for by the signal. -/
def Pc.rank : Pc → ℕ
  | .sigaction => 8
  | .fork => 7
  | .read => 6
  | .reading | .interrupted => 5
  | .returning => 4
  | .print => 3
  | .waitForPid => 2
  | .returned | .died | .killed => 0

/-- What is left to do for the child and for its signal. -/
def Child.rank : Child → ℕ
  | .unborn | .usleep => 9
  | .kill => 8
  | .usleepAgain => 4
  | .write => 3
  | .exit => 2
  | .exited | .absent => 0

/-- What is left to do. -/
def State.rank (s : State) : ℕ :=
  4 * s.foreign + (if s.pending then 3 else 0) + (if s.handler then 2 else 0) + s.pc.rank +
    s.child.rank

section Runs

variable {c : Config} {s s' : State} {a : Action}

/-- The parent has fewer statements left. -/
theorem rank_mainStep (h : Inv c s) (hs : mainStep c s = some s') : s'.rank < s.rank := by
  have hunborn := h.unborn
  unfold mainStep at hs
  cases hpc : s.pc <;> simp only [hpc, Option.some.injEq, reduceCtorEq] at hs hunborn
  case fork =>
    subst hs
    have hchild : s.child = .unborn := hunborn.mpr rfl
    have hnew : (if c.forks then Child.usleep else .absent).rank ≤ Child.unborn.rank := by
      cases c.forks <;> simp [Child.rank]
    simp only [State.rank, hpc, hchild, Pc.rank]
    omega
  case reading | returning | waitForPid =>
    split_ifs at hs
    obtain rfl := Option.some.inj hs
    simp only [State.rank, hpc, Pc.rank]
    omega
  all_goals
    subst hs
    simp only [State.rank, hpc, Pc.rank]
    omega

/-- The child has fewer statements left, and its signal is counted from then on. -/
theorem rank_childStep (hs : childStep s = some s') : s'.rank < s.rank := by
  unfold childStep at hs
  cases hchild : s.child <;> simp only [hchild, Option.some.injEq, reduceCtorEq] at hs
  case kill =>
    subst hs
    -- the signal is counted as pending now
    simp only [State.rank, hchild, Child.rank, if_true]
    omega
  all_goals
    subst hs
    simp only [State.rank, hchild, Child.rank]
    omega

/-- A signal that is delivered makes a handler run. -/
theorem rank_deliverStep (hs : deliverStep s = some s') : s'.rank < s.rank := by
  simp only [deliverStep, Option.ite_none_right_eq_some] at hs
  obtain ⟨henabled, hs⟩ := hs
  cases hpc : s.pc <;> simp only [hpc, Option.some.injEq, reduceCtorEq] at hs
  case reading =>
    split_ifs at hs
    obtain rfl := Option.some.inj hs
    simp only [State.rank, hpc, henabled, Pc.rank, Bool.false_eq_true, if_true, if_false]
    omega
  all_goals
    subst hs
    simp only [State.rank, hpc, henabled, Pc.rank, Bool.false_eq_true, if_true, if_false]
    omega

/-- The handler pays for the `read` that is called again. -/
theorem rank_handlerStep (hs : handlerStep c s = some s') : s'.rank < s.rank := by
  simp only [handlerStep, Option.ite_none_right_eq_some] at hs
  obtain ⟨hrun, hs⟩ := hs
  split at hs
  next hpc =>
    obtain rfl := Option.some.inj hs
    have hnext : (if c.restart then Pc.read else .died).rank ≤ 6 := by
      cases c.restart <;> simp [Pc.rank]
    have hnow : Pc.interrupted.rank = 5 := rfl
    simp only [State.rank, hpc, hrun, Bool.false_eq_true, if_true, if_false]
    omega
  next =>
    obtain rfl := Option.some.inj hs
    simp only [State.rank, hrun, Bool.false_eq_true, if_true, if_false]
    omega

/-- Every step leaves less to do. -/
theorem rank_step (h : Inv c s) (hs : step c s a = some s') : s'.rank < s.rank := by
  cases a with
  | main =>
    simp only [step, Option.ite_none_left_eq_some] at hs
    exact rank_mainStep h hs.2
  | deliver => exact rank_deliverStep hs
  | handler => exact rank_handlerStep hs
  | child => exact rank_childStep hs
  | foreign =>
    simp only [step, Option.ite_none_right_eq_some, Option.some.injEq] at hs
    obtain ⟨hpos, rfl⟩ := hs
    simp only [State.rank, if_true]
    omega

/-- With a child and `SA_RESTART`, the parent has ended when only other processes could do
something. -/
theorem ended_of_stuck (h : Inv c s) (hforks : c.forks = true) (hrestart : c.restart = true)
    (hstuck : ∀ a, a ≠ .foreign → step c s a = none) : s.pc = .returned ∨ s.pc = .killed := by
  have hhandler : handlerStep c s = none := hstuck .handler (by simp)
  have hchild : childStep s = none := hstuck .child (by simp)
  have hdeliver : deliverStep s = none := hstuck .deliver (by simp)
  have hidle : s.handler = false := by
    by_contra hrun
    have hrun : s.handler = true := eq_true_of_ne_false hrun
    unfold handlerStep at hhandler
    rw [if_pos hrun] at hhandler
    split at hhandler <;> cases hhandler
  have hmain : mainStep c s = none := by
    have hmain := hstuck .main (by simp)
    simpa [step, hidle] using hmain
  have hended : s.child = .unborn ∨ s.child = .exited := by
    have hforked := h.forked
    unfold childStep at hchild
    cases hc : s.child <;> simp [hc, Child.Forked, hforks] at hchild hforked ⊢
  have hpipe := h.pipe
  have hunborn := h.unborn
  have hstage := h.stage
  unfold mainStep at hmain
  cases hpc : s.pc <;> simp only [hpc, reduceCtorEq] at hmain hpipe hunborn hstage
  case reading =>
    -- the child has written
    have hexited := hended.resolve_left (by simp [hunborn, Pc.early])
    have htext : s.pipe = text := by simpa [hexited, Child.wrote, Pc.hasRead] using hpipe
    simp [htext, text_ne_nil] at hmain
  case interrupted => simp [Pc.Stage, hidle] at hstage
  case returning =>
    -- what is held back is delivered
    split_ifs at hmain with hheld
    simp [deliverStep, hheld.2, hidle, hpc] at hdeliver
  case waitForPid =>
    have hexited := hended.resolve_left (by simp [hunborn, Pc.early])
    simp [hexited] at hmain
  case returned => exact .inl rfl
  case died => simp [Pc.Stage, hrestart] at hstage
  case killed => exact .inr rfl

end Runs

/-- Without a child the parent waits for data. -/
theorem run_without_child {c : Config} (hforks : c.forks = false) :
    (system c).run (init c) [.main, .main, .main] =
      some { init c with pc := .reading, child := .absent } := by
  simp [run, system, step, mainStep, init, hforks]

/-- The signal of the child interrupts the `read`. -/
theorem run_interrupted {c : Config} (hforks : c.forks = true) (hrestart : c.restart = false) :
    (system c).run (init c) [.main, .main, .main, .child, .child, .deliver, .handler, .child,
      .child, .child] = some { init c with
        pc := .died, child := .exited, pipe := text, handled := true } := by
  simp [run, system, step, mainStep, childStep, deliverStep, handlerStep, init, hforks, hrestart]

/-- The data overtakes the signal of the child. -/
theorem run_overtaken {c : Config} (hforks : c.forks = true) (hdrains : c.drains = false) :
    (system c).run (init c) [.main, .main, .main, .child, .child, .child, .child, .main, .main,
      .main] = some { init c with
        pc := .waitForPid, child := .exit, buffer := text, pending := true,
        printed := some (false, text) } := by
  simp [run, system, step, mainStep, childStep, init, hforks, hdrains, text_ne_nil,
    List.take_of_length_le length_text_le, List.drop_eq_nil_of_le length_text_le]

/-- Whatever other processes send and whenever the kernel delivers it, all runs are finite. All of
them get to the end of `main`, unless a signal kills the parent before `sigaction`, exactly when
`fork` succeeds and the handler is installed with `SA_RESTART`. -/
theorem restart_completes_iff (c : Config) :
    (∀ as s, (system c).run (init c) as = some s → as.length ≤ 4 * c.foreign + 17) ∧
    ((∀ s, (system c).Reachable s → (∀ a, a ≠ .foreign → step c s a = none) →
      s.pc = .returned ∨ s.pc = .killed) ↔ c.forks = true ∧ c.restart = true) := by
  refine ⟨fun as s hrun => ?_, fun hends => ?_, fun hflags s hs =>
    ended_of_stuck (inv_of_reachable hs) hflags.1 hflags.2⟩
  · have hlen : as.length + s.rank ≤ (init c).rank := Reachable.length_run_le
      (fun s a s' h (hstep : (system c).step s a = some s') =>
        rank_step (inv_of_reachable h) hstep) .init hrun
    have hinit : (init c).rank = 4 * c.foreign + 17 := rfl
    omega
  · have hforks : c.forks = true := by
      by_contra hfails
      have hrun := run_without_child (eq_false_of_ne_true hfails)
      have hwaits := hends _ (reachable_of_run hrun) fun a ha => by
        cases a <;> simp [step, mainStep, deliverStep, handlerStep, childStep, init] at ha ⊢
      simp at hwaits
    refine ⟨hforks, ?_⟩
    by_contra hfails
    have hrun := run_interrupted hforks (eq_false_of_ne_true hfails)
    have hdies := hends _ (reachable_of_run hrun) fun a ha => by
      cases a <;> simp [step, mainStep, deliverStep, handlerStep, childStep, init] at ha ⊢
    simp at hdies

/-- What is printed has all of the text, and it shows that the handler has run in all runs exactly
when the kernel delivers pending signals before `read` returns, or there is no child. -/
theorem handled_printed_iff (c : Config) :
    (∀ s r, (system c).Reachable s → s.printed = some r → r.2 = text) ∧
    ((∀ s r, (system c).Reachable s → s.printed = some r → r.1 = true) ↔
      c.drains = true ∨ c.forks = false) := by
  refine ⟨fun s r hs hr => ((inv_of_reachable hs).printed r hr).1, fun hall => ?_, ?_⟩
  · by_contra hnot
    have hdrains : c.drains = false := eq_false_of_ne_true fun h => hnot (.inl h)
    have hforks : c.forks = true := eq_true_of_ne_false fun h => hnot (.inr h)
    have hprinted := hall _ _ (reachable_of_run (run_overtaken hforks hdrains)) rfl
    cases hprinted
  · rintro (hdrains | hforks) s r hs hr
    · exact ((inv_of_reachable hs).printed r hr).2.1 hdrains
    · simp [((inv_of_reachable hs).printed r hr).2.2] at hforks

end SigactionRestartDemo
