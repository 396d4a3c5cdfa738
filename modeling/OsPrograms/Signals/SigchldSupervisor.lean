import Mathlib.Data.Nat.Basic
import OsPrograms.Lib.PollLoop
import OsPrograms.Lib.Stdio

/-!
# A supervisor woken up by `SIGCHLD` (`sigchld_supervisor`)

The supervisor starts a worker, waits until it has exited, reaps it and starts the next one, until
`RESTART_LIMIT` workers have been reaped. The handler of `SIGCHLD` writes a byte to a pipe, and
the main loop waits in `poll` for the pipe:

```
while (attempt < RESTART_LIMIT) {
    if (poll(&pfd, 1, 2000) <= 0) die("poll timed out waiting for SIGCHLD");
    read(signal_pipe[0], drain, 8);
    if (waitpid(worker, &status, WNOHANG) == worker) { report; attempt++; start_worker; }
}
```

* `Inv` ties the attempt counter to the workers: the earlier ones are reaped, the current one is
  not, and there are no others.
* `Inv.wakeup`: when the current worker has terminated and the loop is at `poll`, a wakeup is on
  its way.
* `died_of_timeout`: the wakeup itself can be fatal. A handler that runs while `poll` is blocked
  makes it fail with `EINTR`, which the loop takes for a timeout.
-/

namespace SigchldSupervisor

/-- A line on standard output. -/
inductive Line
  /-- `worker attempt=%d pid=%ld` -/
  | worker (attempt : ℕ)
  /-- `supervisor reaped pid=%ld status=%d`, for the worker of an attempt. -/
  | reaped (attempt status : ℕ)
  deriving DecidableEq, Repr

/-- A worker process. -/
inductive WorkerState
  | unborn
  /-- Before its `printf`, with the buffer it has got from the supervisor by `fork`. -/
  | print (buffer : List Line)
  | flush (buffer : List Line)
  /-- Before its `_exit`. -/
  | exit
  | zombie (status : ℕ)
  | reaped
  deriving DecidableEq, Repr

/-- The next statement of the supervisor. -/
inductive Pc
  /-- `worker = start_worker(attempt)` -/
  | start
  | poll
  /-- Blocked in `poll`. -/
  | inPoll
  /-- `poll` has a result, which is compared with 0 next. -/
  | polled (r : PollResult)
  | read
  | waitpid
  /-- `printf("supervisor reaped ...")` -/
  | report (status : ℕ)
  /-- `return 0` -/
  | ret
  | returned
  /-- `die("poll timed out waiting for SIGCHLD")` after the result `r`. -/
  | pollDied (r : PollResult)
  /-- `die_errno("fork")` -/
  | forkDied
  deriving DecidableEq, Repr

/-- What a run of the program depends on. -/
structure Config where
  /-- `RESTART_LIMIT` -/
  limit : ℕ
  one_le_limit : 1 ≤ limit
  /-- The number of bytes the signal pipe can hold. -/
  capacity : ℕ
  one_le_capacity : 1 ≤ capacity
  /-- How standard output is buffered. -/
  buffering : Buffering

/-- The state of the supervisor and its workers. -/
structure State where
  pc : Pc
  attempt : ℕ
  /-- The process in the variable `worker`, given by its attempt. -/
  worker : ℕ
  /-- The worker of an attempt. -/
  process : ℕ → WorkerState
  /-- The number of bytes in the signal pipe. -/
  pipe : ℕ
  /-- `SIGCHLD`, the one signal that is handled. -/
  sigchld : Signals Unit
  /-- The attempts for which a worker was started. -/
  started : List ℕ
  /-- The workers that were reported as reaped, with their status. -/
  reports : List (ℕ × ℕ)
  /-- The buffer of the supervisor's standard output. -/
  buffer : List Line
  /-- What has reached standard output. -/
  output : List Line

/-- A scheduling choice. -/
inductive Action
  /-- The main loop performs its next statement. -/
  | main
  /-- The worker of an attempt performs its next statement. -/
  | worker (k : ℕ)
  /-- A pending `SIGCHLD` is delivered to the supervisor. -/
  | deliver
  /-- The handler writes its byte and returns. -/
  | handler
  /-- Another process sends a `SIGCHLD` to the supervisor. -/
  | spurious
  /-- The 2000 ms of a blocked `poll` have passed. -/
  | timeout
  /-- The `fork` of `start_worker` fails. -/
  | forkFails
  deriving DecidableEq, Repr

/-- The supervisor process has ended. -/
def Pc.ended : Pc → Bool
  | returned | pollDied _ | forkDied => true
  | _ => false

section Model

variable (p : Config)

/-- The test of the loop. -/
def loopTest (attempt : ℕ) : Pc :=
  if attempt < p.limit then .poll else .ret

/-- The state before the first worker is started. -/
def init : State where
  pc := .start
  attempt := 0
  worker := 0
  process := fun _ => .unborn
  pipe := 0
  sigchld := .quiet
  started := []
  reports := []
  buffer := []
  output := []

/-- The supervisor ends at `pc`, which writes its buffer out. -/
def State.exit (s : State) (pc : Pc) : State :=
  { s with pc := pc, output := s.output ++ s.buffer, buffer := [] }

/-- The next statement of the main loop, `none` while it is blocked and after its end. -/
def mainStep (s : State) : Option State :=
  match s.pc with
  | .start =>
    some { s with
      pc := loopTest p s.attempt
      worker := s.attempt
      process := Function.update s.process s.attempt (.print s.buffer)
      started := s.started ++ [s.attempt] }
  | .poll => some { s with pc := if 0 < s.pipe then .polled .ready else .inPoll }
  | .inPoll => if 0 < s.pipe then some { s with pc := .polled .ready } else none
  | .polled .ready => some { s with pc := .read }
  | .polled r => some (s.exit (.pollDied r))
  -- one `read` drains up to 8 bytes, those of several signals
  | .read => if 0 < s.pipe then some { s with pc := .waitpid, pipe := s.pipe - 8 } else none
  | .waitpid =>
    match s.process s.worker with
    | .zombie status =>
      some { s with
        pc := .report status
        process := Function.update s.process s.worker .reaped }
    -- `WNOHANG`: the worker is still running, and the loop goes round
    | _ => some { s with pc := loopTest p s.attempt }
  | .report status =>
    some { s with
      pc := if s.attempt + 1 < p.limit then .start else loopTest p (s.attempt + 1)
      attempt := s.attempt + 1
      reports := s.reports ++ [(s.worker, status)]
      output := s.output ++ (Stdio.printf p.buffering s.buffer (.reaped s.worker status)).1
      buffer := (Stdio.printf p.buffering s.buffer (.reaped s.worker status)).2 }
  | .ret => some (s.exit .returned)
  | .returned | .pollDied _ | .forkDied => none

/-- The next statement of the worker of attempt `k`. -/
def workerStep (s : State) (k : ℕ) : Option State :=
  match s.process k with
  | .print buffer =>
    some { s with
      process := Function.update s.process k
        (.flush (Stdio.printf p.buffering buffer (.worker k)).2)
      output := s.output ++ (Stdio.printf p.buffering buffer (.worker k)).1 }
  | .flush buffer =>
    some { s with
      process := Function.update s.process k .exit
      output := s.output ++ buffer }
  | .exit =>
    some { s with
      process := Function.update s.process k (.zombie ((30 + k) % 256))
      sigchld := s.sigchld.send () }
  | .unborn | .zombie _ | .reaped => none

/-- One step of the supervisor, of a worker or of the kernel. -/
def step (s : State) : Action → Option State
  | .main => if s.sigchld.active = [] then mainStep p s else none
  | .worker k => workerStep p s k
  | .deliver =>
    if s.pc.ended then
      none
    else do
      let sigchld ← s.sigchld.deliver ()
      -- a blocked `poll` will fail with `EINTR`, also under `SA_RESTART`
      some { s with
        sigchld := sigchld
        pc := if s.pc = .inPoll then .polled .interrupted else s.pc }
  | .handler =>
    -- the handler's `write` blocks while the pipe is full
    if s.sigchld.active ≠ [] ∧ s.pipe < p.capacity then
      some { s with sigchld := s.sigchld.sigreturn, pipe := s.pipe + 1 }
    else
      none
  | .spurious => some { s with sigchld := s.sigchld.send () }
  | .timeout => if s.pc = .inPoll then some { s with pc := .polled .timedOut } else none
  | .forkFails =>
    if s.pc = .start ∧ s.sigchld.active = [] then some (s.exit .forkDied) else none

/-- The supervisor, its workers and the signals, interleaved. -/
def system : TransitionSystem State Action where
  init := init
  step := step p

end Model

/-! ## One worker at a time -/

/-- The worker has been started and not reaped. -/
def WorkerState.Unreaped : WorkerState → Prop
  | unborn | reaped => False
  | print _ | flush _ | exit | zombie _ => True

/-- The workers before `c` are reaped, those after `c` not yet started, and worker `c` is the one
that is being watched, if any. -/
structure OneAtATime (process : ℕ → WorkerState) (c : ℕ) (watching : Bool) : Prop where
  reaped : ∀ k < c, process k = .reaped
  current : watching → (process c).Unreaped
  fresh : ∀ k, c ≤ k → (k = c → watching = false) → process k = .unborn

namespace OneAtATime

variable {process : ℕ → WorkerState} {c k : ℕ} {watching : Bool} {x : WorkerState}

/-- The only worker that is not reaped is the current one. -/
theorem eq_of_unreaped (h : OneAtATime process c watching) (hk : (process k).Unreaped) :
    k = c ∧ watching := by
  rcases lt_trichotomy k c with hlt | rfl | hgt
  · rw [h.reaped k hlt] at hk
    exact hk.elim
  · refine ⟨rfl, ?_⟩
    by_contra hnot
    rw [h.fresh k le_rfl fun _ => eq_false_of_ne_true hnot] at hk
    exact hk.elim
  · rw [h.fresh k (Nat.le_of_lt hgt) fun heq => absurd heq (Nat.ne_of_gt hgt)] at hk
    exact hk.elim

/-- The next worker is started when no other one is there. -/
theorem start (h : OneAtATime process c false) (hx : x.Unreaped) :
    OneAtATime (Function.update process c x) c true where
  reaped k hk := by rw [Function.update_of_ne (Nat.ne_of_lt hk)]; exact h.reaped k hk
  current _ := by rw [Function.update_self]; exact hx
  fresh k hk hne := by
    have hkc : k ≠ c := fun heq => absurd (hne heq) (by decide)
    rw [Function.update_of_ne hkc]
    exact h.fresh k hk fun _ => rfl

/-- The current worker goes on. -/
theorem move (h : OneAtATime process c watching) (hk : (process k).Unreaped) (hx : x.Unreaped) :
    OneAtATime (Function.update process k x) c watching := by
  obtain ⟨rfl, hwatching⟩ := h.eq_of_unreaped hk
  refine ⟨fun j hj => ?_, fun _ => ?_, fun j hj hne => ?_⟩
  · rw [Function.update_of_ne (Nat.ne_of_lt hj)]
    exact h.reaped j hj
  · rw [Function.update_self]
    exact hx
  · have hjk : j ≠ k := fun heq => by
      rw [hne heq] at hwatching
      cases hwatching
    rw [Function.update_of_ne hjk]
    exact h.fresh j hj hne

/-- The current worker is reaped, and the next one is not there yet. -/
theorem reap (h : OneAtATime process c true) :
    OneAtATime (Function.update process c .reaped) (c + 1) false where
  reaped k hk := by
    by_cases hkc : k = c
    · rw [hkc, Function.update_self]
    · rw [Function.update_of_ne hkc]
      exact h.reaped k (by omega)
  current hfalse := by cases hfalse
  fresh k hk _ := by
    rw [Function.update_of_ne (by omega)]
    exact h.fresh k (by omega) fun heq => by omega

end OneAtATime

/-! ## The invariant -/

namespace Pc

/-- A worker has been started and not reaped. -/
def watching : Pc → Bool
  | poll | inPoll | polled _ | read | waitpid | pollDied _ => true
  | start | report _ | ret | returned | forkDied => false

/-- The current worker has been reaped and not reported. -/
def reporting : Pc → Bool
  | report _ => true
  | _ => false

/-- The main loop is at `poll` or inside. -/
def polling : Pc → Bool
  | poll | inPoll | polled _ => true
  | _ => false

/-- The main loop has been left because all workers have been reaped. -/
def finished : Pc → Bool
  | ret | returned => true
  | _ => false

end Pc

/-- The status that the worker of attempt `k` exits with. -/
def exitStatus (k : ℕ) : ℕ :=
  (30 + k) % 256

/-- The worker has terminated and not been reaped. -/
def WorkerState.Terminated (x : WorkerState) : Prop :=
  ∃ status, x = zombie status

/-- The invariant. -/
structure Inv (p : Config) (s : State) : Prop where
  attempt_eq : s.pc.finished → s.attempt = p.limit
  attempt_lt : s.pc.finished = false → s.attempt < p.limit
  workers : OneAtATime s.process (s.attempt + if s.pc.reporting then 1 else 0) s.pc.watching
  worker_eq : s.pc.watching || s.pc.reporting → s.worker = s.attempt
  started_eq : s.started =
    List.range (s.attempt + if s.pc.watching || s.pc.reporting then 1 else 0)
  reports_eq : s.reports = (List.range s.attempt).map fun k => (k, exitStatus k)
  report_eq : ∀ status, s.pc = .report status → status = exitStatus s.attempt
  zombie_eq : ∀ k status, s.process k = .zombie status → status = exitStatus k
  /-- No wakeup is lost. -/
  wakeup : s.pc.polling → (s.process s.worker).Terminated →
    0 < s.pipe ∨ s.sigchld.InFlight ()

section Inv

variable {p : Config} {s s' : State}

theorem Inv.init (p : Config) : Inv p init where
  attempt_eq := nofun
  attempt_lt _ := p.one_le_limit
  workers := ⟨nofun, nofun, fun _ _ _ => rfl⟩
  worker_eq := nofun
  started_eq := rfl
  reports_eq := rfl
  report_eq := nofun
  zombie_eq := nofun
  wakeup := nofun

/-- The update of one process keeps the statuses of the others. -/
theorem zombie_eq_update {process : ℕ → WorkerState} {k : ℕ} {x : WorkerState}
    (h : ∀ j status, process j = .zombie status → status = exitStatus j)
    (hx : ∀ status, x = .zombie status → status = exitStatus k) (j status : ℕ)
    (hj : Function.update process k x j = .zombie status) : status = exitStatus j := by
  by_cases hjk : j = k
  · rw [hjk, Function.update_self] at hj
    rw [hjk]
    exact hx status hj
  · rw [Function.update_of_ne hjk] at hj
    exact h j status hj

/-- The supervisor starts, watches and reaps one worker after the other. -/
theorem Inv.mainStep (h : Inv p s) (hs : mainStep p s = some s') : Inv p s' := by
  -- with the program counter a constructor, the conditions of the invariant on it compute
  obtain ⟨pc, attempt, worker, process, pipe, sigchld, started, reports, buffer, output⟩ := s
  cases pc
  case start =>
    obtain rfl := Option.some.inj hs
    have hlt : attempt < p.limit := h.attempt_lt rfl
    have hpoll : loopTest p attempt = .poll := if_pos hlt
    have hstarted : started = List.range attempt := h.started_eq
    simp only [hpoll]
    exact
      { h with
        attempt_eq := nofun
        attempt_lt := fun _ => hlt
        workers := h.workers.start trivial
        worker_eq := fun _ => rfl
        started_eq := by
          show started ++ [attempt] = List.range (attempt + 1)
          rw [hstarted, List.range_succ]
        report_eq := nofun
        zombie_eq := zombie_eq_update h.zombie_eq nofun
        wakeup := fun _ hterm => by
          -- the new worker has not terminated yet
          obtain ⟨status, hstatus⟩ := hterm
          simp at hstatus }
  case poll =>
    obtain rfl := Option.some.inj hs
    by_cases hpipe : 0 < pipe
    · simp only [hpipe, ↓reduceIte]
      exact { h with report_eq := nofun }
    · simp only [hpipe, ↓reduceIte]
      exact { h with report_eq := nofun }
  case inPoll =>
    simp only [SigchldSupervisor.mainStep, Option.ite_none_right_eq_some, Option.some.injEq] at hs
    obtain ⟨-, rfl⟩ := hs
    exact { h with report_eq := nofun }
  case polled r =>
    rcases r with _ | _ | _ <;> obtain rfl := Option.some.inj hs <;>
      exact { h with report_eq := nofun, wakeup := nofun }
  case read =>
    simp only [SigchldSupervisor.mainStep, Option.ite_none_right_eq_some, Option.some.injEq] at hs
    obtain ⟨-, rfl⟩ := hs
    exact { h with report_eq := nofun, wakeup := nofun }
  case waitpid =>
    have hlt : attempt < p.limit := h.attempt_lt rfl
    have hworker : worker = attempt := h.worker_eq rfl
    by_cases hterm : (process worker).Terminated
    · obtain ⟨status, hstatus⟩ := hterm
      simp only [SigchldSupervisor.mainStep, hstatus, Option.some.injEq] at hs
      subst hs hworker
      exact
        { h with
          attempt_eq := nofun
          attempt_lt := fun _ => hlt
          workers := h.workers.reap
          worker_eq := fun _ => rfl
          report_eq := fun status' heq => by
            obtain rfl := Pc.report.inj heq
            exact h.zombie_eq worker status hstatus
          zombie_eq := zombie_eq_update h.zombie_eq nofun
          wakeup := nofun }
    · -- the worker is still running, so its `SIGCHLD` is yet to come
      have hpoll : loopTest p attempt = .poll := if_pos hlt
      have hs' : s' =
          ⟨.poll, attempt, worker, process, pipe, sigchld, started, reports, buffer, output⟩ := by
        cases hproc : process worker <;>
          simp only [SigchldSupervisor.mainStep, hproc, hpoll, Option.some.injEq] at hs <;>
          try exact hs.symm
        exact absurd ⟨_, hproc⟩ hterm
      subst hs'
      exact { h with report_eq := nofun, wakeup := fun _ hterm' => absurd hterm' hterm }
  case report status =>
    obtain rfl := Option.some.inj hs
    have hlt : attempt < p.limit := h.attempt_lt rfl
    have hworker : worker = attempt := h.worker_eq rfl
    have hold : reports = (List.range attempt).map fun k => (k, exitStatus k) := h.reports_eq
    -- the status in the report is that of the worker just reaped
    have hreports : reports ++ [(worker, status)] =
        (List.range (attempt + 1)).map fun k => (k, exitStatus k) := by
      rw [hold, List.range_succ, List.map_append, hworker, h.report_eq status rfl]
      rfl
    by_cases hnext : attempt + 1 < p.limit
    · simp only [hnext, ↓reduceIte]
      exact
        { h with
          attempt_eq := nofun
          attempt_lt := fun _ => hnext
          worker_eq := nofun
          reports_eq := hreports
          report_eq := nofun
          wakeup := nofun }
    · -- the last worker: the loop ends instead of starting another one
      have hret : loopTest p (attempt + 1) = .ret := if_neg hnext
      have hlimit : attempt + 1 = p.limit := by omega
      simp only [hnext, ↓reduceIte, hret]
      exact
        { h with
          attempt_eq := fun _ => hlimit
          attempt_lt := nofun
          worker_eq := nofun
          reports_eq := hreports
          report_eq := nofun
          wakeup := nofun }
  case ret =>
    obtain rfl := Option.some.inj hs
    exact { h with report_eq := nofun, wakeup := nofun }
  case returned => cases hs
  case pollDied => cases hs
  case forkDied => cases hs

/-- A worker that exits leaves a `SIGCHLD` behind. -/
theorem Inv.workerStep {k : ℕ} (h : Inv p s) (hs : workerStep p s k = some s') : Inv p s' := by
  -- a step of a worker changes its own state, and possibly sends the signal
  have hmove : ∀ (x : WorkerState) (sigchld : Signals Unit) (output : List Line),
      (s.process k).Unreaped → x.Unreaped →
      (∀ status, x = .zombie status → status = exitStatus k ∧ sigchld.InFlight ()) →
      (s.sigchld.InFlight () → sigchld.InFlight ()) →
      Inv p { s with
        process := Function.update s.process k x, sigchld := sigchld, output := output } := by
    intro x sigchld output hk hx hzombie hflight
    exact
      { h with
        workers := h.workers.move hk hx
        zombie_eq := zombie_eq_update h.zombie_eq fun status hstatus => (hzombie status hstatus).1
        wakeup := fun hpolling hterm => by
          obtain ⟨status, hstatus⟩ := hterm
          by_cases hwk : s.worker = k
          · -- the exit of the current worker sends the signal
            simp only [hwk, Function.update_self] at hstatus
            exact .inr (hzombie status hstatus).2
          · simp only [Function.update_of_ne hwk] at hstatus
            exact (h.wakeup hpolling ⟨status, hstatus⟩).imp_right hflight }
  unfold SigchldSupervisor.workerStep at hs
  cases hk : s.process k <;> simp only [hk, Option.some.injEq, reduceCtorEq] at hs <;> subst hs
  case print buffer => exact hmove _ _ _ (by rw [hk]; trivial) trivial nofun id
  case flush buffer => exact hmove _ _ _ (by rw [hk]; trivial) trivial nofun id
  case exit =>
    refine hmove _ _ _ (by rw [hk]; trivial) trivial ?_ Signals.InFlight.send
    intro status hstatus
    obtain rfl := WorkerState.zombie.inj hstatus
    exact ⟨rfl, Signals.inFlight_send _ _⟩

/-- A `SIGCHLD` becomes a byte in the pipe, and no byte is taken without a look for zombies. -/
theorem Inv.step {a : Action} (h : Inv p s) (hs : step p s a = some s') : Inv p s' := by
  cases a <;> simp only [SigchldSupervisor.step, Option.ite_none_right_eq_some,
    Option.ite_none_left_eq_some, Option.bind_eq_bind, Option.bind_eq_some_iff,
    Option.some.injEq] at hs
  case main => exact h.mainStep hs.2
  case worker k => exact h.workerStep hs
  case deliver =>
    obtain ⟨-, sigchld, hdeliver, rfl⟩ := hs
    -- a delivered signal stays in flight until the handler has written
    have hwakeup : s.pc.polling → (s.process s.worker).Terminated →
        0 < s.pipe ∨ sigchld.InFlight () :=
      fun hpolling hterm => (h.wakeup hpolling hterm).imp_right fun hf => hf.deliver hdeliver
    obtain ⟨pc, attempt, worker, process, pipe, sigchld₀, started, reports, buffer, output⟩ := s
    by_cases hpc : pc = .inPoll
    · subst hpc
      exact { h with report_eq := nofun, wakeup := hwakeup }
    · simp only [hpc, ↓reduceIte]
      exact { h with wakeup := hwakeup }
  case handler =>
    obtain ⟨-, rfl⟩ := hs
    -- the byte written is in the pipe
    exact { h with wakeup := fun _ _ => .inl (Nat.succ_pos _) }
  case spurious =>
    subst hs
    exact { h with
      wakeup := fun hpolling hterm => (h.wakeup hpolling hterm).imp_right Signals.InFlight.send }
  case timeout =>
    obtain ⟨hpc, rfl⟩ := hs
    obtain ⟨pc, attempt, worker, process, pipe, sigchld, started, reports, buffer, output⟩ := s
    subst hpc
    exact { h with report_eq := nofun }
  case forkFails =>
    obtain ⟨⟨hpc, -⟩, rfl⟩ := hs
    obtain ⟨pc, attempt, worker, process, pipe, sigchld, started, reports, buffer, output⟩ := s
    subst hpc
    exact { h with report_eq := nofun, wakeup := nofun }

/-- The invariant holds along every run. -/
theorem inv_of_reachable (h : (system p).Reachable s) : Inv p s :=
  h.invariant (Inv.init p) fun _ _ _ hinv hs => hinv.step hs

/-- There is at most one worker that was started and not reaped. When the supervisor returns, it
has started each attempt and has reaped and reported it once, in order, and no worker is left.
Whenever it is at `poll` and the current worker has terminated, the signal pipe is not empty, or
`SIGCHLD` is pending, or its handler is about to write. -/
theorem supervises (p : Config) (s : State) (hs : (system p).Reachable s) :
    (∀ j k, (s.process j).Unreaped → (s.process k).Unreaped → j = k) ∧
      (s.pc = .returned →
        s.started = List.range p.limit ∧
        s.reports = (List.range p.limit).map (fun k => (k, (30 + k) % 256)) ∧
        (∀ k < p.limit, s.process k = .reaped) ∧ ∀ k, ¬(s.process k).Unreaped) ∧
      (s.pc.polling → (s.process s.worker).Terminated →
        0 < s.pipe ∨ s.sigchld.pending () ∨ s.sigchld.active ≠ []) := by
  have h := inv_of_reachable hs
  refine ⟨fun j k hj hk => ?_, fun hpc => ?_, fun hpolling hterm => ?_⟩
  · rw [(h.workers.eq_of_unreaped hj).1, (h.workers.eq_of_unreaped hk).1]
  · have hlimit : s.attempt = p.limit := h.attempt_eq (by rw [hpc]; rfl)
    have hworkers := h.workers
    rw [hpc, hlimit] at hworkers
    refine ⟨?_, ?_, hworkers.reaped, fun k hk => ?_⟩
    · rw [h.started_eq, hpc, hlimit]
      rfl
    · rw [h.reports_eq, hlimit]
      rfl
    · -- after the last report no worker is being watched
      exact absurd (hworkers.eq_of_unreaped hk).2 nofun
  · refine (h.wakeup hpolling hterm).imp_right fun hflight => hflight.imp_right ?_
    exact List.ne_nil_of_mem

end Inv

/-- `RESTART_LIMIT` 2, on Linux. -/
def restartTwice : Config where
  limit := 2
  one_le_limit := Nat.two_pos
  capacity := pipeCapacity
  one_le_capacity := one_le_pipeCapacity
  buffering := .line

/-- A run in which both workers exit before the supervisor calls `poll`, so that `main` returns
0. -/
theorem supervises_two_workers :
    ∃ s, (system restartTwice).Reachable s ∧ s.pc = .returned ∧
      s.started = List.range restartTwice.limit := by
  have hrun : ((system restartTwice).run (system restartTwice).init
      [.main, .worker 0, .worker 0, .worker 0, .deliver, .handler, .main, .main, .main, .main,
        .main, .main, .worker 1, .worker 1, .worker 1, .deliver, .handler, .main, .main, .main,
        .main, .main, .main]).map (fun s => s.pc) = some .returned := by decide
  obtain ⟨s, hs, hpc⟩ := Option.map_eq_some_iff.mp hrun
  have hreach := TransitionSystem.reachable_of_run hs
  exact ⟨s, hreach, hpc, ((supervises restartTwice s hreach).2.1 hpc).1⟩

/-! ## Why the supervisor dies -/

/-- The step, if it delivers a `SIGCHLD`, does so while the main loop is not blocked in `poll`. -/
def NotInterrupted (s : State) (a : Action) : Prop :=
  a = .deliver → s.pc ≠ .inPoll

/-- Where a statement stands in relation to `poll`. -/
def Pc.pollView : Pc → PollView
  | inPoll => .blocked
  | polled r => .result r
  | pollDied r => .died r
  | start | poll | read | waitpid | report _ | ret | returned | forkDied => .elsewhere

section Poll

variable {p : Config} {s s' : State}

/-- At its test the loop has no result of `poll`. -/
theorem pollView_loopTest (p : Config) (attempt : ℕ) :
    (loopTest p attempt).pollView = .elsewhere := by
  unfold loopTest
  split_ifs <;> rfl

/-- The steps of the supervisor as steps of a loop around `poll`. -/
theorem pollStep_mainStep {delivers : Prop} (hs : mainStep p s = some s') :
    PollStep s.pc.pollView delivers s'.pc.pollView := by
  obtain ⟨pc, attempt, worker, process, pipe, sigchld, started, reports, buffer, output⟩ := s
  cases pc
  case start =>
    obtain rfl := Option.some.inj hs
    show PollStep _ _ (loopTest p _).pollView
    rw [pollView_loopTest]
    exact .leave
  case poll =>
    obtain rfl := Option.some.inj hs
    by_cases hpipe : 0 < pipe
    · simp only [hpipe, ↓reduceIte]
      exact .ready
    · simp only [hpipe, ↓reduceIte]
      exact .block
  case inPoll =>
    simp only [mainStep, Option.ite_none_right_eq_some, Option.some.injEq] at hs
    obtain ⟨-, rfl⟩ := hs
    exact .ready
  -- the test `poll(...) <= 0` does not tell a timeout from an interruption
  case polled r =>
    rcases r with _ | _ | _ <;> obtain rfl := Option.some.inj hs
    · exact .leave
    · exact .die (by simp)
    · exact .die (by simp)
  case read =>
    simp only [mainStep, Option.ite_none_right_eq_some, Option.some.injEq] at hs
    obtain ⟨-, rfl⟩ := hs
    exact .leave
  case waitpid =>
    simp only [mainStep] at hs
    split at hs <;> rw [Option.some.injEq] at hs <;> subst hs
    · exact .leave
    · show PollStep _ _ (loopTest p _).pollView
      rw [pollView_loopTest]
      exact .leave
  case report status =>
    obtain rfl := Option.some.inj hs
    by_cases hnext : attempt + 1 < p.limit
    · simp only [hnext, ↓reduceIte]
      exact .leave
    · simp only [hnext, ↓reduceIte, pollView_loopTest]
      exact .leave
  case ret =>
    obtain rfl := Option.some.inj hs
    exact .leave
  case returned => cases hs
  case pollDied => cases hs
  case forkDied => cases hs

/-- The supervisor is a loop that dies when `poll` does not report readiness. -/
theorem pollLoop (p : Config) :
    PollLoop (system p) (fun s => s.pc.pollView) (· = Action.deliver) where
  init := rfl
  step s a s' hs := by
    cases a <;> simp only [system, step, Option.ite_none_right_eq_some,
      Option.ite_none_left_eq_some, Option.bind_eq_bind, Option.bind_eq_some_iff,
      Option.some.injEq] at hs
    case main => exact pollStep_mainStep hs.2
    case worker k =>
      have hpc : s'.pc = s.pc := by
        unfold workerStep at hs
        cases hk : s.process k <;> simp only [hk, Option.some.injEq, reduceCtorEq] at hs <;>
          subst hs <;> rfl
      rw [hpc]
      exact .same
    case deliver =>
      obtain ⟨-, sigchld, -, rfl⟩ := hs
      -- this is where a signal makes `poll` return -1
      by_cases hpc : s.pc = .inPoll
      · simp only [hpc, ↓reduceIte]
        exact .interrupt trivial
      · simp only [hpc, ↓reduceIte]
        exact .same
    case handler =>
      obtain ⟨-, rfl⟩ := hs
      exact .same
    case spurious =>
      subst hs
      exact .same
    case timeout =>
      obtain ⟨hpc, rfl⟩ := hs
      rw [hpc]
      exact .timeout
    case forkFails =>
      obtain ⟨-, rfl⟩ := hs
      exact .leave

/-- In every run in which no `SIGCHLD` is delivered while `poll` is blocked, the supervisor dies
at `poll` only if the timeout has passed. For every number of restarts there is a run in which a
`SIGCHLD` is delivered there, and the supervisor dies of it. -/
theorem died_of_timeout (p : Config) :
    (∀ s, (system p).ReachableVia NotInterrupted s → ∀ r, s.pc = .pollDied r → r = .timedOut) ∧
      ∃ s, (system p).Reachable s ∧ s.pc = .pollDied .interrupted := by
  constructor
  · intro s hs r hpc
    refine (pollLoop p).timedOut_of_died (fun t a hok ha hblocked => ?_) hs (by rw [hpc]; rfl)
    -- the only statement that is blocked in `poll`
    have hin : t.pc = .inPoll := by
      cases hpc : t.pc <;> simp [hpc, Pc.pollView] at hblocked ⊢
    exact hok ha hin
  · have hone := p.one_le_limit
    have hcap : 0 < p.capacity := p.one_le_capacity
    have hpoll : loopTest p 0 = .poll := if_pos hone
    -- the loop blocks in `poll` before the first worker has exited
    have hrun : ∃ s, (system p).run (system p).init
        [.main, .main, .worker 0, .worker 0, .worker 0, .deliver, .handler, .main] = some s ∧
        s.pc = .pollDied .interrupted := by
      simp [TransitionSystem.run, system, init, step, mainStep, workerStep, Signals.deliver,
        Signals.send, Signals.quiet, Signals.sigreturn, State.exit, Pc.ended, hpoll, hcap]
    obtain ⟨s, hs, hpc⟩ := hrun
    exact ⟨s, TransitionSystem.reachable_of_run hs, hpc⟩

/-- The first worker exits while the supervisor is blocked in `poll`. -/
theorem died_of_interruption :
    ∃ s, (system restartTwice).Reachable s ∧ s.pc = .pollDied .interrupted := by
  have hrun : ((system restartTwice).run (system restartTwice).init
      [.main, .main, .worker 0, .worker 0, .worker 0, .deliver, .handler, .main]).map
        (fun s => s.pc) = some (.pollDied .interrupted) := by decide
  obtain ⟨s, hs, hpc⟩ := Option.map_eq_some_iff.mp hrun
  exact ⟨s, TransitionSystem.reachable_of_run hs, hpc⟩

end Poll

end SigchldSupervisor
