import Mathlib.Data.Nat.Basic
import OsPrograms.Lib.PollLoop

/-!
# Signals handled through a self-pipe (`self_pipe_signal_reactor`)

The handler of `SIGUSR1` and `SIGALRM` writes the number of the signal to a pipe, and the main
loop prints the numbers it reads from there:

```
raise(SIGUSR1); alarm(1);
while (events < expected) {
    if (poll(&pfd, 1, 1500) <= 0) die("poll timed out");
    if (read(signal_pipe[0], &signo, 1) == 1) { print signo; events++; }
}
```

* `Inv.log_eq`: what is printed, followed by what is in the pipe, is what the handlers have
  written, in the order in which they have written it.
* `reactor_correct`: a signal that is delivered while `poll` is blocked makes it fail with
  `EINTR`, and the loop dies of it as if the timeout had passed. The first event cannot suffer
  this, because the handler of the raised signal has run before the loop.
-/

namespace SelfPipeSignalReactor

/-- The handled signals. -/
inductive Signo
  | sigusr1
  | sigalrm
  deriving DecidableEq, Repr

/-- The number of a signal. -/
def Signo.number : Signo → ℕ
  | sigusr1 => 10
  | sigalrm => 14

/-- The byte the handler writes, `(unsigned char)signo`. -/
def Signo.byte (x : Signo) : ℕ :=
  x.number % 256

/-- The next statement of the process outside its handler. -/
inductive Pc
  /-- `raise(SIGUSR1)` -/
  | raise
  /-- Inside `raise`, which returns after the handler has run. -/
  | raised
  /-- `alarm(1)` -/
  | alarm
  | poll
  /-- Blocked in `poll`. -/
  | inPoll
  /-- `poll` has a result, which is compared with 0 next. -/
  | polled (r : PollResult)
  | read
  /-- `xclose(signal_pipe[0])` -/
  | closeRead
  /-- `xclose(signal_pipe[1])` -/
  | closeWrite
  /-- `return 0` -/
  | ret
  | returned
  /-- `die("poll timed out")` after the result `r`. -/
  | pollDied (r : PollResult)
  /-- Killed by `SIGPIPE`. -/
  | killed
  deriving DecidableEq, Repr

/-- What a run of the program depends on. -/
structure Config where
  /-- The number of events after which the loop ends. -/
  expected : ℕ
  /-- The number of bytes the pipe can hold. -/
  capacity : ℕ
  one_le_capacity : 1 ≤ capacity

/-- The state of the process. -/
structure State where
  pc : Pc
  events : ℕ
  /-- The bytes in the pipe, the oldest one first. -/
  pipe : List ℕ
  signals : Signals Signo
  /-- The alarm is set and has not expired. -/
  alarmSet : Bool
  /-- The signals whose handlers have run, in the order of their writes. -/
  ran : List Signo
  /-- The numbers that were printed. -/
  printed : List ℕ

/-- A scheduling choice. -/
inductive Action
  /-- The main loop performs its next statement. -/
  | main
  /-- Another process sends a signal. -/
  | send (x : Signo)
  /-- The alarm expires. -/
  | alarmExpires
  /-- A pending signal is delivered. -/
  | deliver (x : Signo)
  /-- The innermost handler writes its byte and returns. -/
  | handler
  /-- The 1500 ms of a blocked `poll` have passed. -/
  | timeout
  deriving DecidableEq, Repr

/-- The process has ended. -/
def Pc.ended : Pc → Bool
  | returned | pollDied _ | killed => true
  | _ => false

section Model

variable (p : Config)

/-- The test of the loop. -/
def loopTest (events : ℕ) : Pc :=
  if events < p.expected then .poll else .closeRead

/-- The state after the handlers have been installed. -/
def init : State where
  pc := .raise
  events := 0
  pipe := []
  signals := .quiet
  alarmSet := false
  ran := []
  printed := []

/-- The next statement outside the handlers, `none` while it is blocked and after its end. -/
def mainStep (s : State) : Option State :=
  match s.pc with
  | .raise => some { s with pc := .raised, signals := s.signals.send .sigusr1 }
  -- `raise` does not return before the handler of its own signal has
  | .raised => if s.signals.pending .sigusr1 then none else some { s with pc := .alarm }
  | .alarm => some { s with pc := loopTest p s.events, alarmSet := true }
  | .poll => some { s with pc := if s.pipe = [] then .inPoll else .polled .ready }
  | .inPoll => if s.pipe = [] then none else some { s with pc := .polled .ready }
  | .polled .ready => some { s with pc := .read }
  | .polled r => some { s with pc := .pollDied r }
  | .read =>
    match s.pipe with
    | [] => none
    | b :: rest =>
      some { s with
        pc := loopTest p (s.events + 1)
        events := s.events + 1
        pipe := rest
        printed := s.printed ++ [b] }
  | .closeRead => some { s with pc := .closeWrite }
  | .closeWrite => some { s with pc := .ret }
  | .ret => some { s with pc := .returned }
  | .returned | .pollDied _ | .killed => none

/-- The innermost handler, that of `x`, calls `write` and returns. -/
def handlerStep (s : State) (x : Signo) : Option State :=
  match s.pc with
  | .closeWrite => some { s with pc := .killed } -- the pipe has no reader
  | .ret =>
    -- the descriptor is closed, `write` fails with `EBADF`
    some { s with signals := s.signals.sigreturn, ran := s.ran ++ [x] }
  | _ =>
    if s.pipe.length < p.capacity then
      some { s with
        signals := s.signals.sigreturn
        pipe := s.pipe ++ [x.byte]
        ran := s.ran ++ [x] }
    else
      none

/-- One step of the process or of the kernel. -/
def step (s : State) : Action → Option State
  | .main => if s.signals.active = [] then mainStep p s else none
  | .send x => some { s with signals := s.signals.send x }
  | .alarmExpires =>
    if s.alarmSet then
      some { s with alarmSet := false, signals := s.signals.send .sigalrm }
    else
      none
  | .deliver x =>
    if s.pc.ended then
      none
    else do
      let signals ← s.signals.deliver x
      -- a blocked `poll` will fail with `EINTR`, also under `SA_RESTART`
      some { s with
        signals := signals
        pc := if s.pc = .inPoll then .polled .interrupted else s.pc }
  | .handler =>
    if s.pc.ended then
      none
    else
      match s.signals.active with
      | [] => none
      | x :: _ => handlerStep p s x
  | .timeout => if s.pc = .inPoll then some { s with pc := .polled .timedOut } else none

/-- The process and the signals, interleaved. -/
def system : TransitionSystem State Action where
  init := init
  step := step p

end Model

/-! ## The invariant -/

namespace Pc

/-- The read end of the pipe is open. -/
def readEndOpen : Pc → Bool
  | closeWrite | ret | returned | killed => false
  | _ => true

/-- `raise` has returned. -/
def afterRaise : Pc → Bool
  | raise | raised => false
  | _ => true

/-- The main loop is running. -/
def looping : Pc → Bool
  | poll | inPoll | polled _ | read => true
  | _ => false

/-- The loop has been left. -/
def afterLoop : Pc → Bool
  | closeRead | closeWrite | ret | returned => true
  | _ => false

/-- `poll` has been blocked in this round. -/
def waited : Pc → Bool
  | inPoll | polled .timedOut | polled .interrupted | pollDied _ => true
  | _ => false

end Pc

/-- The invariant of all runs. -/
structure Inv (p : Config) (s : State) : Prop where
  /-- Every byte written is printed or in the pipe. -/
  log_eq : s.pc.readEndOpen → s.printed ++ s.pipe = s.ran.map Signo.byte
  printed_initial : s.printed <+: s.ran.map Signo.byte
  events_eq : s.events = s.printed.length
  bound : s.pc.looping → s.events < p.expected
  events_le : s.events ≤ p.expected
  all : s.pc.afterLoop → p.expected ≤ s.events
  raised : s.pc = .raised → s.signals.InFlight .sigusr1 ∨ s.ran ≠ []
  /-- The handler of the raised signal has run before the loop. -/
  first : s.pc.afterRaise → s.ran ≠ []
  /-- So the first event is there without waiting. -/
  waits : s.pc.waited → 2 ≤ p.expected

section Inv

variable {p : Config} {s s' : State}

theorem Inv.init (p : Config) : Inv p init where
  log_eq _ := rfl
  printed_initial := List.prefix_rfl
  events_eq := rfl
  bound := nofun
  events_le := Nat.zero_le _
  all := nofun
  raised := nofun
  first := nofun
  waits := nofun

/-- The loop polls again exactly as long as events are missing. -/
theorem loopTest_cases (p : Config) (events : ℕ) :
    (loopTest p events = .poll ∧ events < p.expected) ∨
      (loopTest p events = .closeRead ∧ p.expected ≤ events) := by
  unfold loopTest
  split_ifs with hlt
  · exact .inl ⟨rfl, hlt⟩
  · exact .inr ⟨rfl, Nat.not_lt.mp hlt⟩

/-- The loop goes on at its test. -/
theorem Inv.loopTest (h : Inv p s) (hopen : s.pc.readEndOpen) (hafter : s.pc.afterRaise) :
    Inv p { s with pc := loopTest p s.events } := by
  rcases loopTest_cases p s.events with ⟨hpc, hlt⟩ | ⟨hpc, hle⟩ <;> simp only [hpc]
  · exact
      { h with
        log_eq := fun _ => h.log_eq hopen
        bound := fun _ => hlt
        all := nofun
        raised := nofun
        first := fun _ => h.first hafter
        waits := nofun }
  · exact
      { h with
        log_eq := fun _ => h.log_eq hopen
        bound := nofun
        all := fun _ => hle
        raised := nofun
        first := fun _ => h.first hafter
        waits := nofun }

/-- The loop prints what it reads from the pipe, in order. -/
theorem Inv.mainStep (h : Inv p s) (hactive : s.signals.active = [])
    (hs : mainStep p s = some s') : Inv p s' := by
  obtain ⟨pc, events, pipe, signals, alarmSet, ran, printed⟩ := s
  cases pc
  case raise =>
    obtain rfl := Option.some.inj hs
    exact { h with raised := fun _ => .inl (Signals.inFlight_send _ _), first := nofun }
  case raised =>
    simp only [SelfPipeSignalReactor.mainStep, Option.ite_none_left_eq_some,
      Option.some.injEq] at hs
    obtain ⟨hpending, rfl⟩ := hs
    have hran : ran ≠ [] := by
      -- the signal is neither pending nor being handled, so its handler has run
      refine (h.raised rfl).resolve_left fun hflight => ?_
      rcases hflight with hflight | hflight
      · exact hpending hflight
      · exact absurd hactive (List.ne_nil_of_mem hflight)
    exact { h with raised := nofun, first := fun _ => hran }
  case alarm =>
    obtain rfl := Option.some.inj hs
    have h' := h.loopTest rfl rfl
    exact { h' with }
  case poll =>
    obtain rfl := Option.some.inj hs
    by_cases hpipe : pipe = []
    · -- everything written has been printed, and that is at least one number
      have hlog : printed ++ pipe = ran.map Signo.byte := h.log_eq rfl
      have hran : ran ≠ [] := h.first rfl
      have hevents : events = printed.length := h.events_eq
      have hlt : events < p.expected := h.bound rfl
      rw [hpipe, List.append_nil] at hlog
      have hpos := List.length_pos_iff.mpr hran
      rw [hlog, List.length_map] at hevents
      have hwaits : 2 ≤ p.expected := by omega
      simp only [hpipe, ↓reduceIte]
      exact
        { h with
          log_eq := fun _ => by simpa [hpipe] using hlog
          raised := nofun
          waits := fun _ => hwaits }
    · simp only [hpipe, ↓reduceIte]
      exact { h with raised := nofun }
  case inPoll =>
    simp only [SelfPipeSignalReactor.mainStep, Option.ite_none_left_eq_some,
      Option.some.injEq] at hs
    obtain ⟨-, rfl⟩ := hs
    exact { h with raised := nofun, waits := nofun }
  case polled r =>
    rcases r with _ | _ | _ <;> obtain rfl := Option.some.inj hs
    · exact { h with raised := nofun }
    · exact { h with raised := nofun, bound := nofun }
    · exact { h with raised := nofun, bound := nofun }
  case read =>
    rcases pipe with _ | ⟨b, rest⟩
    · cases hs
    · obtain rfl := Option.some.inj hs
      have hlog : printed ++ b :: rest = ran.map Signo.byte := h.log_eq rfl
      have hevents : events = printed.length := h.events_eq
      have hlog' : (printed ++ [b]) ++ rest = ran.map Signo.byte := by
        rw [List.append_assoc]
        exact hlog
      -- the byte goes from the front of the pipe to the end of what is printed
      have hread : Inv p ⟨.alarm, events + 1, rest, signals, alarmSet, ran, printed ++ [b]⟩ :=
        { log_eq := fun _ => hlog'
          printed_initial := ⟨rest, hlog'⟩
          events_eq := by simp [hevents]
          bound := nofun
          events_le := h.bound rfl
          all := nofun
          raised := nofun
          first := fun _ => h.first rfl
          waits := nofun }
      exact hread.loopTest rfl rfl
  case closeRead =>
    obtain rfl := Option.some.inj hs
    -- what is in the pipe when its read end is closed is lost
    exact { h with log_eq := nofun, raised := nofun }
  case closeWrite =>
    obtain rfl := Option.some.inj hs
    exact { h with raised := nofun }
  case ret =>
    obtain rfl := Option.some.inj hs
    exact { h with raised := nofun }
  case returned => cases hs
  case pollDied => cases hs
  case killed => cases hs

/-- A handler adds its number to the end of the pipe. -/
theorem Inv.handlerStep {x : Signo} (h : Inv p s) (hs : handlerStep p s x = some s') :
    Inv p s' := by
  have hinitial : s.printed <+: (s.ran ++ [x]).map Signo.byte := by
    rw [List.map_append]
    exact h.printed_initial.trans (List.prefix_append _ _)
  unfold SelfPipeSignalReactor.handlerStep at hs
  split at hs
  -- between the two `xclose` the handler's `write` raises `SIGPIPE`
  case h_1 hpc =>
    obtain rfl := Option.some.inj hs
    exact
      { h with
        log_eq := nofun
        bound := nofun
        all := nofun
        raised := nofun
        first := fun _ => h.first (by rw [hpc]; rfl)
        waits := nofun }
  -- after them it fails, and its number is not written
  case h_2 hpc =>
    obtain rfl := Option.some.inj hs
    exact
      { h with
        log_eq := fun hopen => by simp [hpc, Pc.readEndOpen] at hopen
        printed_initial := hinitial
        raised := fun _ => .inr (by simp)
        first := fun _ => by simp }
  case h_3 =>
    rw [Option.ite_none_right_eq_some, Option.some.injEq] at hs
    obtain ⟨-, rfl⟩ := hs
    exact
      { h with
        log_eq := fun hopen => by
          rw [← List.append_assoc, h.log_eq hopen, List.map_append]
          rfl
        printed_initial := hinitial
        raised := fun _ => .inr (by simp)
        first := fun _ => by simp }

/-- Printed and unread numbers are those of the handlers that have run, in order. -/
theorem Inv.step {a : Action} (h : Inv p s) (hs : step p s a = some s') : Inv p s' := by
  cases a <;> simp only [SelfPipeSignalReactor.step, Option.ite_none_right_eq_some,
    Option.ite_none_left_eq_some, Option.bind_eq_bind, Option.bind_eq_some_iff,
    Option.some.injEq] at hs
  case main => exact h.mainStep hs.1 hs.2
  case send x =>
    subst hs
    exact { h with raised := fun hpc => (h.raised hpc).imp_left Signals.InFlight.send }
  case alarmExpires =>
    obtain ⟨-, rfl⟩ := hs
    exact { h with raised := fun hpc => (h.raised hpc).imp_left Signals.InFlight.send }
  case deliver x =>
    obtain ⟨-, signals, hdeliver, rfl⟩ := hs
    have hraised : s.pc = .raised → signals.InFlight .sigusr1 ∨ s.ran ≠ [] :=
      fun hpc => (h.raised hpc).imp_left fun hflight => hflight.deliver hdeliver
    obtain ⟨pc, events, pipe, signals₀, alarmSet, ran, printed⟩ := s
    by_cases hpc : pc = .inPoll
    · subst hpc
      exact { h with raised := nofun }
    · simp only [hpc, ↓reduceIte]
      exact { h with raised := hraised }
  case handler =>
    obtain ⟨-, hs⟩ := hs
    split at hs
    · cases hs
    · exact h.handlerStep hs
  case timeout =>
    obtain ⟨hpc, rfl⟩ := hs
    obtain ⟨pc, events, pipe, signals, alarmSet, ran, printed⟩ := s
    subst hpc
    exact { h with raised := nofun }

/-- The invariant holds along every run. -/
theorem inv_of_reachable (h : (system p).Reachable s) : Inv p s :=
  h.invariant (Inv.init p) fun _ _ _ hinv hs => hinv.step hs

end Inv

/-! ## Why the loop dies -/

/-- The step, if it delivers a signal, does so while the main loop is not blocked in `poll`. -/
def NotInterrupted (s : State) (a : Action) : Prop :=
  ∀ x, a = .deliver x → s.pc ≠ .inPoll

/-- Where a statement stands in relation to `poll`. -/
def Pc.pollView : Pc → PollView
  | inPoll => .blocked
  | polled r => .result r
  | pollDied r => .died r
  | raise | raised | alarm | poll | read | closeRead | closeWrite | ret | returned | killed =>
    .elsewhere

/-- The action delivers a signal. -/
def Action.Delivers (a : Action) : Prop :=
  ∃ x, a = .deliver x

section Poll

variable {p : Config} {s s' : State}

/-- At its test the loop has no result of `poll`. -/
theorem pollView_loopTest (p : Config) (events : ℕ) :
    (loopTest p events).pollView = .elsewhere := by
  rcases loopTest_cases p events with ⟨htest, -⟩ | ⟨htest, -⟩ <;> rw [htest] <;> rfl

/-- The steps of the main loop as steps of a loop around `poll`. -/
theorem pollStep_mainStep {delivers : Prop} (hs : mainStep p s = some s') :
    PollStep s.pc.pollView delivers s'.pc.pollView := by
  obtain ⟨pc, events, pipe, signals, alarmSet, ran, printed⟩ := s
  cases pc
  case raised =>
    simp only [mainStep, Option.ite_none_left_eq_some, Option.some.injEq] at hs
    obtain ⟨-, rfl⟩ := hs
    exact .leave
  case alarm =>
    obtain rfl := Option.some.inj hs
    show PollStep _ _ (loopTest p events).pollView
    rw [pollView_loopTest]
    exact .leave
  case poll =>
    obtain rfl := Option.some.inj hs
    by_cases hpipe : pipe = []
    · simp only [hpipe, ↓reduceIte]
      exact .block
    · simp only [hpipe, ↓reduceIte]
      exact .ready
  case inPoll =>
    simp only [mainStep, Option.ite_none_left_eq_some, Option.some.injEq] at hs
    obtain ⟨-, rfl⟩ := hs
    exact .ready
  -- the test `poll(...) <= 0` does not tell a timeout from an interruption
  case polled r =>
    rcases r with _ | _ | _ <;> obtain rfl := Option.some.inj hs
    · exact .leave
    · exact .die (by simp)
    · exact .die (by simp)
  case read =>
    rcases pipe with _ | ⟨b, rest⟩
    · cases hs
    · obtain rfl := Option.some.inj hs
      show PollStep _ _ (loopTest p (events + 1)).pollView
      rw [pollView_loopTest]
      exact .leave
  case raise | closeRead | closeWrite | ret =>
    obtain rfl := Option.some.inj hs
    exact .leave
  case returned | killed => cases hs
  case pollDied r => cases hs

/-- A handler leaves the main loop where it is, unless it is killed by `SIGPIPE`. -/
theorem pc_of_handlerStep {x : Signo} (hs : handlerStep p s x = some s') :
    s'.pc = s.pc ∨ (s.pc = .closeWrite ∧ s'.pc = .killed) := by
  unfold handlerStep at hs
  split at hs
  case h_1 hpc =>
    obtain rfl := Option.some.inj hs
    exact .inr ⟨hpc, rfl⟩
  case h_2 =>
    obtain rfl := Option.some.inj hs
    exact .inl rfl
  case h_3 =>
    rw [Option.ite_none_right_eq_some, Option.some.injEq] at hs
    obtain ⟨-, rfl⟩ := hs
    exact .inl rfl

/-- The main loop is a loop that dies when `poll` does not report readiness. -/
theorem pollLoop (p : Config) :
    PollLoop (system p) (fun s => s.pc.pollView) Action.Delivers where
  init := rfl
  step s a s' hs := by
    cases a <;> simp only [system, step, Option.ite_none_right_eq_some,
      Option.ite_none_left_eq_some, Option.bind_eq_bind, Option.bind_eq_some_iff,
      Option.some.injEq] at hs
    case main => exact pollStep_mainStep hs.2
    case send x =>
      subst hs
      exact .same
    case alarmExpires =>
      obtain ⟨-, rfl⟩ := hs
      exact .same
    case deliver x =>
      obtain ⟨-, signals, -, rfl⟩ := hs
      -- this is where a signal makes `poll` return -1
      by_cases hpc : s.pc = .inPoll
      · simp only [hpc, ↓reduceIte]
        exact .interrupt ⟨x, rfl⟩
      · simp only [hpc, ↓reduceIte]
        exact .same
    case handler =>
      obtain ⟨-, hs⟩ := hs
      split at hs
      · cases hs
      · rcases pc_of_handlerStep hs with hpc | ⟨-, hpc⟩ <;> rw [hpc]
        · exact .same
        · exact .leave
    case timeout =>
      obtain ⟨hpc, rfl⟩ := hs
      rw [hpc]
      exact .timeout

/-- The alarm expires while the loop is blocked in its second `poll`. -/
def alarmInPoll : List Action :=
  [.main, .deliver .sigusr1, .handler, .main, .main, .main, .main, .main, .main, .alarmExpires,
    .deliver .sigalrm, .handler, .main]

/-- With a second event the alarm can come while `poll` is blocked. -/
theorem exists_interrupted (hp : 2 ≤ p.expected) :
    ∃ s, (system p).Reachable s ∧ s.pc = .pollDied .interrupted := by
  have hcap : 0 < p.capacity := p.one_le_capacity
  have hpoll₀ : loopTest p 0 = .poll := if_pos (by omega)
  have hpoll₁ : loopTest p 1 = .poll := if_pos hp
  have hrun : ∃ s, (system p).run (system p).init alarmInPoll = some s ∧
      s.pc = .pollDied .interrupted := by
    simp [alarmInPoll, TransitionSystem.run, system, init, step, mainStep, handlerStep,
      Signals.deliver, Signals.send, Signals.quiet, Signals.sigreturn, Pc.ended, hpoll₀, hpoll₁,
      hcap]
  obtain ⟨s, hs, hpc⟩ := hrun
  exact ⟨s, TransitionSystem.reachable_of_run hs, hpc⟩

/-- What is printed is what the handlers have written, in order, each byte once; as long as the
pipe is open, the rest is in the pipe. When `main` returns, it has printed the first `expected`
numbers, and others may have been left in the pipe. In every run in which no signal is delivered
while `poll` is blocked, the loop dies only if the timeout has passed. Over all runs this holds
exactly when at most one event is expected. -/
theorem reactor_correct (p : Config) :
    (∀ s, (system p).Reachable s →
        s.printed <+: s.ran.map Signo.byte ∧
        (s.pc.readEndOpen → s.printed ++ s.pipe = s.ran.map Signo.byte) ∧
        (s.pc = .returned → s.printed.length = p.expected ∧
          s.printed = (s.ran.map Signo.byte).take p.expected)) ∧
      (∀ s, (system p).ReachableVia NotInterrupted s → ∀ r, s.pc = .pollDied r → r = .timedOut) ∧
      ((∀ s, (system p).Reachable s → ∀ r, s.pc = .pollDied r → r = .timedOut) ↔
        p.expected ≤ 1) := by
  refine ⟨fun s hs => ?_, fun s hs => ?_, ?_, ?_⟩
  · have h := inv_of_reachable hs
    refine ⟨h.printed_initial, h.log_eq, fun hpc => ?_⟩
    have hlength : s.printed.length = p.expected := by
      rw [← h.events_eq]
      exact le_antisymm h.events_le (h.all (by rw [hpc]; rfl))
    refine ⟨hlength, ?_⟩
    rw [← hlength]
    exact List.prefix_iff_eq_take.mp h.printed_initial
  · intro r hpc
    refine (pollLoop p).timedOut_of_died (fun t a hok => ?_) hs (by rw [hpc]; rfl)
    rintro ⟨x, rfl⟩ hblocked
    -- the only statement that is blocked in `poll`
    have hin : t.pc = .inPoll := by
      cases hpc : t.pc <;> simp [hpc, Pc.pollView] at hblocked ⊢
    exact hok x rfl hin
  · intro hdied
    by_contra hmany
    obtain ⟨s, hs, hpc⟩ := exists_interrupted (show 2 ≤ p.expected by omega)
    cases hdied s hs .interrupted hpc
  · intro hfew s hs r hpc
    -- the first event is in the pipe when the loop starts, so `poll` blocks for a second one only
    have hwaits := (inv_of_reachable hs).waits (by rw [hpc]; rfl)
    omega

/-- The two events of the source, on Linux. -/
def twoEvents : Config where
  expected := 2
  capacity := pipeCapacity
  one_le_capacity := one_le_pipeCapacity

/-- The alarm of the program itself interrupts the second `poll`. -/
theorem died_of_alarm :
    ∃ s, (system twoEvents).Reachable s ∧ s.pc = .pollDied .interrupted ∧
      s.printed = [10] ∧ s.ran = [.sigusr1, .sigalrm] := by
  have hrun : ((system twoEvents).run (system twoEvents).init alarmInPoll).map
      (fun s => (s.pc, s.printed, s.ran)) =
      some (.pollDied .interrupted, [10], [.sigusr1, .sigalrm]) := by decide
  obtain ⟨s, hs, hend⟩ := Option.map_eq_some_iff.mp hrun
  simp only [Prod.mk.injEq] at hend
  exact ⟨s, TransitionSystem.reachable_of_run hs, hend⟩

end Poll

end SelfPipeSignalReactor
