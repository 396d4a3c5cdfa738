import OsPrograms.Signals.SigchldSupervisor

/-!
# What `sigchld_supervisor` writes

The supervisor prints a line for each worker it has reaped and does not flush it. When standard
output is fully buffered, the line is still in the supervisor's buffer when the next worker is
forked. The worker gets a copy of the buffer, adds its own line and writes everything out, so the
lines of the workers before it are written once more.

There is one worker at a time, so the output does not depend on the interleaving:

* `OutputInv` says what is in the output and in the buffers, in terms of the number of workers
  reported so far and of how far the current worker is.
* `output_of_reachable`: what has been written when `main` has returned.
* `lines_once_iff`: every line is written once exactly when the output is line buffered or there is
  no second worker.
-/

namespace SigchldSupervisor

/-- The line that reports the worker of attempt `k`. -/
def reapedLine (k : ℕ) : Line :=
  .reaped k (exitStatus k)

/-- What the supervisor has in its buffer when it has reported `k` workers. -/
def buffered : Buffering → ℕ → List Line
  | .line, _ => []
  | .full, k => (List.range k).map reapedLine

/-- What the worker of attempt `k` writes: the buffer it has got by `fork`, and its own line. -/
def workerOutput (mode : Buffering) (k : ℕ) : List Line :=
  buffered mode k ++ [.worker k]

/-- What has been written when `k` workers have been reported. -/
def written (mode : Buffering) (k : ℕ) : List Line :=
  (List.range k).flatMap fun i =>
    workerOutput mode i ++ (Stdio.printf mode (buffered mode i) (reapedLine i)).1

/-- What the worker of attempt `k` has written so far. -/
def WorkerState.emitted (mode : Buffering) (k : ℕ) : WorkerState → List Line
  | unborn | print _ => []
  | flush _ => (Stdio.printf mode (buffered mode k) (.worker k)).1
  | exit | zombie _ | reaped => workerOutput mode k

/-- What the worker of attempt `k` has in its buffer. -/
def WorkerState.BufferOk (mode : Buffering) (k : ℕ) : WorkerState → Prop
  | print buffer => buffer = buffered mode k
  | flush buffer => buffer = (Stdio.printf mode (buffered mode k) (.worker k)).2
  | unborn | exit | zombie _ | reaped => True

/-- What has been written, and what is in the buffers. -/
structure OutputInv (p : Config) (s : State) : Prop where
  buffer_eq : s.pc.ended = false → s.buffer = buffered p.buffering s.attempt
  output_eq : s.pc.ended = false → s.output =
    written p.buffering s.attempt ++ (s.process s.attempt).emitted p.buffering s.attempt
  worker : s.pc.ended = false → (s.process s.attempt).BufferOk p.buffering s.attempt
  returned : s.pc = .returned →
    s.output = written p.buffering p.limit ++ buffered p.buffering p.limit

section Output

variable {p : Config} {s s' : State}

/-- Each worker adds what it writes, and the supervisor its report, if it goes out at once. -/
theorem written_succ (mode : Buffering) (k : ℕ) :
    written mode (k + 1) = written mode k ++ workerOutput mode k ++
      (Stdio.printf mode (buffered mode k) (reapedLine k)).1 := by
  simp [written, List.range_succ, List.flatMap_append]

/-- A report that is not written out stays in the buffer. -/
theorem buffered_succ (mode : Buffering) (k : ℕ) :
    buffered mode (k + 1) = (Stdio.printf mode (buffered mode k) (reapedLine k)).2 := by
  rcases mode with _ | _
  · rfl
  · simp [buffered, Stdio.printf, List.range_succ]

/-- A worker that has called `printf` and `fflush` has written its buffer and its line. -/
theorem printf_worker (mode : Buffering) (k : ℕ) :
    (Stdio.printf mode (buffered mode k) (.worker k)).1 ++
      (Stdio.printf mode (buffered mode k) (.worker k)).2 = workerOutput mode k := by
  rcases mode with _ | _
  · exact List.append_nil _
  · exact List.nil_append _

/-- Between two workers, the next one has not been started. -/
theorem Inv.process_attempt (h : Inv p s) (hwatching : s.pc.watching = false)
    (hreporting : s.pc.reporting = false) : s.process s.attempt = .unborn := by
  apply h.workers.fresh
  · simp [hreporting]
  · exact fun _ => hwatching

/-- The worker that is reaped and not yet reported is the current one. -/
theorem Inv.process_reporting (h : Inv p s) (hreporting : s.pc.reporting) :
    s.process s.attempt = .reaped := by
  apply h.workers.reaped
  simp [hreporting]

theorem OutputInv.init (p : Config) : OutputInv p init where
  buffer_eq _ := by rcases hmode : p.buffering with _ | _ <;> rfl
  output_eq _ := rfl
  worker _ := trivial
  returned := nofun

/-- A step that changes only where the supervisor is, and the pipe. -/
theorem OutputInv.goto {pc : Pc} (h : OutputInv p s) (pipe : ℕ) (hpc : s.pc.ended = false)
    (hreturned : pc ≠ .returned) : OutputInv p { s with pc := pc, pipe := pipe } where
  buffer_eq _ := h.buffer_eq hpc
  output_eq _ := h.output_eq hpc
  worker _ := h.worker hpc
  returned hend := absurd hend hreturned

/-- The supervisor dies. -/
theorem OutputInv.exit {pc : Pc} (hended : pc.ended) (hreturned : pc ≠ .returned) :
    OutputInv p (s.exit pc) where
  buffer_eq hrunning := by simp [State.exit, hended] at hrunning
  output_eq hrunning := by simp [State.exit, hended] at hrunning
  worker hrunning := by simp [State.exit, hended] at hrunning
  returned hend := absurd hend hreturned

/-- The test of the loop does not end the supervisor. -/
theorem loopTest_ne_returned (p : Config) (attempt : ℕ) : loopTest p attempt ≠ .returned := by
  unfold loopTest
  split_ifs <;> simp

/-- The supervisor passes its buffer on to each worker that it starts. -/
theorem OutputInv.mainStep (h : OutputInv p s) (hinv : Inv p s) (hs : mainStep p s = some s') :
    OutputInv p s' := by
  obtain ⟨pc, attempt, worker, process, pipe, sigchld, started, reports, buffer, output⟩ := s
  rcases pc
  case start =>
    obtain rfl := Option.some.inj hs
    have hunborn : process attempt = .unborn := hinv.process_attempt rfl rfl
    have houtput : output = written p.buffering attempt ++
        (process attempt).emitted p.buffering attempt := h.output_eq rfl
    rw [hunborn] at houtput
    -- the new worker starts with a copy of the buffer and has written nothing
    exact
      { buffer_eq := fun _ => h.buffer_eq rfl
        output_eq := fun _ => by simpa [WorkerState.emitted] using houtput
        worker := fun _ => by
          simpa [WorkerState.BufferOk] using h.buffer_eq rfl
        returned := fun hend => absurd hend (loopTest_ne_returned p attempt) }
  case poll =>
    obtain rfl := Option.some.inj hs
    refine h.goto pipe rfl ?_
    split_ifs <;> simp
  case inPoll =>
    simp only [SigchldSupervisor.mainStep, Option.ite_none_right_eq_some, Option.some.injEq] at hs
    obtain ⟨-, rfl⟩ := hs
    exact h.goto pipe rfl (by simp)
  case polled r =>
    rcases r with _ | _ | _ <;> obtain rfl := Option.some.inj hs
    · exact h.goto pipe rfl (by simp)
    · exact .exit rfl (by simp)
    · exact .exit rfl (by simp)
  case read =>
    simp only [SigchldSupervisor.mainStep, Option.ite_none_right_eq_some, Option.some.injEq] at hs
    obtain ⟨-, rfl⟩ := hs
    exact h.goto (pipe - 8) rfl (by simp)
  case waitpid =>
    obtain rfl : worker = attempt := hinv.worker_eq rfl
    have houtput : output = written p.buffering worker ++
        (process worker).emitted p.buffering worker := h.output_eq rfl
    simp only [SigchldSupervisor.mainStep] at hs
    split at hs <;> rw [Option.some.injEq] at hs <;> subst hs
    · -- a zombie has written all it will ever write
      next status hzombie =>
      rw [hzombie] at houtput
      exact
        { buffer_eq := fun _ => h.buffer_eq rfl
          output_eq := fun _ => by simpa [WorkerState.emitted] using houtput
          worker := fun _ => by simp [WorkerState.BufferOk]
          returned := by simp }
    · exact h.goto pipe rfl (loopTest_ne_returned p worker)
  case report status =>
    obtain rfl := Option.some.inj hs
    obtain rfl : worker = attempt := hinv.worker_eq rfl
    obtain rfl : status = exitStatus worker := hinv.report_eq status rfl
    have hreaped : process worker = .reaped := hinv.process_reporting rfl
    -- the report of this worker is the last thing printed before the next worker starts
    have hnext : process (worker + 1) = .unborn :=
      hinv.workers.fresh (worker + 1) le_rfl fun _ => rfl
    have hbuffer : buffer = buffered p.buffering worker := h.buffer_eq rfl
    have houtput : output = written p.buffering worker ++
        (process worker).emitted p.buffering worker := h.output_eq rfl
    rw [hreaped, WorkerState.emitted] at houtput
    exact
      { buffer_eq := fun _ => by
          simp only [hbuffer]
          exact (buffered_succ p.buffering worker).symm
        output_eq := fun _ => by
          simp only [hbuffer, houtput, hnext, WorkerState.emitted, List.append_nil]
          exact (written_succ p.buffering worker).symm
        worker := fun _ => by simp [hnext, WorkerState.BufferOk]
        returned := fun hend => by
          dsimp only at hend
          split_ifs at hend
          exact absurd hend (loopTest_ne_returned p (worker + 1)) }
  case ret =>
    obtain rfl := Option.some.inj hs
    have hunborn : process attempt = .unborn := hinv.process_attempt rfl rfl
    have hbuffer : buffer = buffered p.buffering attempt := h.buffer_eq rfl
    have houtput : output = written p.buffering attempt ++
        (process attempt).emitted p.buffering attempt := h.output_eq rfl
    -- the return from `main` writes out what is still in the buffer
    have hlimit : attempt = p.limit := hinv.attempt_eq rfl
    rw [hunborn, WorkerState.emitted, List.append_nil] at houtput
    refine ⟨?_, ?_, ?_, fun _ => by simp only [State.exit, houtput, hbuffer, hlimit]⟩ <;>
      simp [State.exit, Pc.ended]
  case returned => cases hs
  case pollDied => cases hs
  case forkDied => cases hs

/-- A worker writes what it has got by `fork`, and its own line. -/
theorem OutputInv.workerStep {k : ℕ} (h : OutputInv p s) (hinv : Inv p s)
    (hs : workerStep p s k = some s') : OutputInv p s' := by
  -- a worker that moves is the current one, and the supervisor has not returned
  have hcurrent : (s.process k).Unreaped → k = s.attempt ∧ s.pc ≠ .returned := by
    intro hk
    obtain ⟨heq, hwatching⟩ := hinv.workers.eq_of_unreaped hk
    rcases hpc : s.pc <;> simp_all [Pc.watching, Pc.reporting]
  obtain ⟨pc, attempt, worker, process, pipe, sigchld, started, reports, buffer, output⟩ := s
  unfold SigchldSupervisor.workerStep at hs
  rcases hk : process k <;> simp only [hk, Option.some.injEq, reduceCtorEq] at hs <;> subst hs
  case print inherited =>
    obtain ⟨rfl, hpc⟩ := hcurrent (by simp [hk, WorkerState.Unreaped])
    have hworker := h.worker
    have houtput := h.output_eq
    simp only [hk, WorkerState.BufferOk, WorkerState.emitted, List.append_nil] at hworker houtput
    exact
      { buffer_eq := h.buffer_eq
        output_eq := fun hend => by
          simp [WorkerState.emitted, hworker hend, houtput hend]
        worker := fun hend => by simp [WorkerState.BufferOk, hworker hend]
        returned := fun hend => absurd hend hpc }
  case flush inherited =>
    obtain ⟨rfl, hpc⟩ := hcurrent (by simp [hk, WorkerState.Unreaped])
    have hworker := h.worker
    have houtput := h.output_eq
    simp only [hk, WorkerState.BufferOk, WorkerState.emitted] at hworker houtput
    exact
      { buffer_eq := h.buffer_eq
        output_eq := fun hend => by
          simp [WorkerState.emitted, hworker hend, houtput hend, printf_worker]
        worker := fun _ => by simp [WorkerState.BufferOk]
        returned := fun hend => absurd hend hpc }
  case exit =>
    obtain ⟨rfl, hpc⟩ := hcurrent (by simp [hk, WorkerState.Unreaped])
    have houtput := h.output_eq
    simp only [hk, WorkerState.emitted] at houtput
    exact
      { buffer_eq := h.buffer_eq
        output_eq := fun hend => by simpa [WorkerState.emitted] using houtput hend
        worker := fun _ => by simp [WorkerState.BufferOk]
        returned := fun hend => absurd hend hpc }

/-- A step of the kernel that neither returns from `main` nor ends it keeps all lines where they
are. -/
theorem OutputInv.of_kernel {pc : Pc} {pipe : ℕ} {sigchld : Signals Unit} (h : OutputInv p s)
    (hended : pc.ended = s.pc.ended) (hreturned : pc = .returned → s.pc = .returned) :
    OutputInv p { s with pc := pc, pipe := pipe, sigchld := sigchld } where
  buffer_eq hend := h.buffer_eq (hended ▸ hend)
  output_eq hend := h.output_eq (hended ▸ hend)
  worker hend := h.worker (hended ▸ hend)
  returned hend := h.returned (hreturned hend)

/-- Signals and timeouts do not write. -/
theorem OutputInv.step {a : Action} (h : OutputInv p s) (hinv : Inv p s)
    (hs : step p s a = some s') : OutputInv p s' := by
  rcases a <;> simp only [SigchldSupervisor.step, Option.ite_none_right_eq_some,
    Option.ite_none_left_eq_some, Option.bind_eq_bind, Option.bind_eq_some_iff,
    Option.some.injEq] at hs
  case main => exact h.mainStep hinv hs.2
  case worker k => exact h.workerStep hinv hs
  case deliver =>
    obtain ⟨-, sigchld, -, rfl⟩ := hs
    by_cases hpc : s.pc = .inPoll
    · simp only [hpc, ↓reduceIte]
      exact h.of_kernel (by rw [hpc]; rfl) (by simp)
    · simp only [hpc, ↓reduceIte]
      exact h.of_kernel rfl id
  case handler =>
    obtain ⟨-, rfl⟩ := hs
    exact h.of_kernel rfl id
  case spurious =>
    subst hs
    exact h.of_kernel rfl id
  case timeout =>
    obtain ⟨hpc, rfl⟩ := hs
    exact h.of_kernel (by rw [hpc]; rfl) (by simp)
  case forkFails =>
    obtain ⟨-, rfl⟩ := hs
    exact .exit rfl (by simp)

/-- The output of every run in which `main` returns. -/
theorem output_of_reachable (h : (system p).Reachable s) (hend : s.pc = .returned) :
    s.output = written p.buffering p.limit ++ buffered p.buffering p.limit := by
  have hinv : Inv p s ∧ OutputInv p s := by
    apply h.invariant (P := fun s => Inv p s ∧ OutputInv p s) ⟨Inv.init p, OutputInv.init p⟩
    rintro s a s' ⟨hinv, houtput⟩ hs
    exact ⟨hinv.step hs, houtput.step hinv hs⟩
  exact hinv.2.returned hend

end Output

/-! ## How often a line is written -/

section Count

variable {mode : Buffering} {n k : ℕ}

/-- What is written once for each `k < n`, one more time. -/
theorem ite_lt_succ (n k : ℕ) :
    (if k < n + 1 then 1 else 0) = (if k < n then 1 else 0) + if n = k then 1 else 0 := by
  split_ifs <;> omega

theorem count_worker_singleton (n k : ℕ) :
    [Line.worker n].count (.worker k) = if n = k then 1 else 0 := by
  simp [List.count_singleton]

theorem count_reaped_singleton (n k : ℕ) :
    [reapedLine n].count (reapedLine k) = if n = k then 1 else 0 := by
  by_cases hnk : n = k
  · simp [hnk]
  · simp [reapedLine, hnk]

/-- The supervisor has only reports in its buffer. -/
theorem count_worker_buffered (mode : Buffering) (n k : ℕ) :
    (buffered mode n).count (.worker k) = 0 := by
  rcases mode with _ | _ <;> simp [buffered, reapedLine, List.count_eq_zero]

/-- The line of a worker is written once. -/
theorem count_worker_written (mode : Buffering) (n k : ℕ) :
    (written mode n).count (.worker k) = if k < n then 1 else 0 := by
  induction n with
  | zero => rfl
  | succ n ih =>
    have hreport :
        (Stdio.printf mode (buffered mode n) (reapedLine n)).1.count (.worker k) = 0 := by
      rcases mode with _ | _ <;> simp [Stdio.printf, buffered, reapedLine]
    rw [written_succ, List.count_append, List.count_append, ih, hreport, workerOutput,
      List.count_append, count_worker_buffered, count_worker_singleton, ite_lt_succ, Nat.zero_add,
      Nat.add_zero]

/-- In full buffering a line stays in the buffer. -/
theorem count_reaped_buffered (n k : ℕ) :
    (buffered .full n).count (reapedLine k) = if k < n then 1 else 0 := by
  induction n with
  | zero => rfl
  | succ n ih =>
    rw [buffered_succ, Stdio.printf, List.count_append, ih, count_reaped_singleton, ite_lt_succ]

/-- With line buffering a report is written once. -/
theorem count_reaped_written_line (n k : ℕ) :
    (written .line n).count (reapedLine k) = if k < n then 1 else 0 := by
  induction n with
  | zero => rfl
  | succ n ih =>
    have hworker : (workerOutput .line n).count (reapedLine k) = 0 := by
      simp [workerOutput, buffered, reapedLine]
    have hreport : (Stdio.printf .line (buffered .line n) (reapedLine n)).1 = [reapedLine n] := rfl
    rw [written_succ, List.count_append, List.count_append, ih, hworker, hreport,
      count_reaped_singleton, ite_lt_succ, Nat.add_zero]

/-- In full buffering every later worker writes the line of worker `k` once more. -/
theorem count_reaped_written_full (n k : ℕ) :
    (written .full n).count (reapedLine k) = n - (k + 1) := by
  induction n with
  | zero => exact (Nat.zero_sub _).symm
  | succ n ih =>
    have hworker : [Line.worker n].count (reapedLine k) = 0 := by
      simp [reapedLine]
    have hreport : (Stdio.printf .full (buffered .full n) (reapedLine n)).1 = [] := rfl
    rw [written_succ, List.count_append, List.count_append, ih, workerOutput, List.count_append,
      count_reaped_buffered, hworker, hreport, List.count_nil]
    split_ifs <;> omega

end Count

/-- Each worker's line and each report have been written exactly once. -/
def LinesOnce (p : Config) (s : State) : Prop :=
  ∀ k < p.limit, s.output.count (.worker k) = 1 ∧ s.output.count (.reaped k ((30 + k) % 256)) = 1

section Once

variable {p : Config} {s : State}

/-- In every run in which `main` returns: the lines have been written once exactly when the output
is line buffered or there was one worker only. -/
theorem linesOnce_iff_of_reachable (h : (system p).Reachable s) (hend : s.pc = .returned) :
    LinesOnce p s ↔ p.buffering = .line ∨ p.limit = 1 := by
  have hlimit := p.one_le_limit
  have hworker : ∀ k < p.limit, s.output.count (.worker k) = 1 := by
    intro k hk
    rw [output_of_reachable h hend, List.count_append, count_worker_written,
      count_worker_buffered, if_pos hk]
  -- with full buffering each later worker inherits the line of worker `k`, and writes it again
  have hreaped : ∀ k < p.limit, s.output.count (reapedLine k) =
      if p.buffering = .line then 1 else p.limit - k := by
    intro k hk
    rw [output_of_reachable h hend, List.count_append]
    rcases hmode : p.buffering with _ | _
    · rw [count_reaped_written_line, if_pos hk, if_pos rfl]
      rfl
    · rw [count_reaped_written_full, count_reaped_buffered, if_pos hk, if_neg nofun]
      omega
  constructor
  · intro honce
    have hfirst : s.output.count (reapedLine 0) = 1 := (honce 0 hlimit).2
    rw [hreaped 0 hlimit] at hfirst
    split_ifs at hfirst with hmode
    · exact .inl hmode
    · exact .inr hfirst
  · intro hcond k hk
    refine ⟨hworker k hk, (hreaped k hk).trans ?_⟩
    rcases hcond with hmode | hone
    · rw [if_pos hmode]
    · split_ifs
      · rfl
      · omega

/-! ## A run in which `main` returns -/

/-- The supervisor is about to start the worker of attempt `k`, or to return after the last one,
and no signal is on its way. -/
structure Ready (p : Config) (k : ℕ) (s : State) : Prop where
  pc : s.pc = if k < p.limit then .start else .ret
  attempt : s.attempt = k
  pipe : s.pipe = 0
  pending : s.sigchld.pending () = false
  active : s.sigchld.active = []

/-- The worker of attempt `k` runs to its exit before the supervisor calls `poll`. -/
theorem Ready.next {k : ℕ} (h : Ready p k s) (hk : k < p.limit) :
    ∃ s', (system p).run s [.main, .worker k, .worker k, .worker k, .deliver, .handler, .main,
      .main, .main, .main, .main] = some s' ∧ Ready p (k + 1) s' := by
  obtain ⟨hpc, rfl, hpipe, hpending, hactive⟩ := h
  have hcap : 0 < p.capacity := p.one_le_capacity
  have hpoll : loopTest p s.attempt = .poll := if_pos hk
  rw [if_pos hk] at hpc
  have hrun : ∃ s', (system p).run s [.main, .worker s.attempt, .worker s.attempt,
      .worker s.attempt, .deliver, .handler, .main, .main, .main, .main, .main] = some s' ∧
      (s'.pc = if s.attempt + 1 < p.limit then .start else loopTest p (s.attempt + 1)) ∧
      s'.attempt = s.attempt + 1 ∧ s'.pipe = 0 ∧ s'.sigchld.pending () = false ∧
      s'.sigchld.active = [] := by
    simp [TransitionSystem.run, system, step, mainStep, workerStep, Signals.deliver, Signals.send,
      Signals.sigreturn, Pc.ended, hpc, hpipe, hactive, hcap, hpoll]
  obtain ⟨s', hs', hpc', hattempt', hpipe', hpending', hactive'⟩ := hrun
  refine ⟨s', hs', ?_, hattempt', hpipe', hpending', hactive'⟩
  rw [hpc']
  split_ifs with hnext
  · rfl
  · exact if_neg hnext

/-- After any number of workers up to the limit. -/
theorem exists_ready {k : ℕ} (hk : k ≤ p.limit) :
    ∃ s, (system p).Reachable s ∧ Ready p k s := by
  induction k with
  | zero => exact ⟨_, .init, (if_pos p.one_le_limit).symm, rfl, rfl, rfl, rfl⟩
  | succ k ih =>
    obtain ⟨s, hs, hready⟩ := ih (Nat.le_of_succ_le hk)
    obtain ⟨s', hrun, hready'⟩ := hready.next hk
    exact ⟨s', hs.run hrun, hready'⟩

/-- The supervisor can get to its end, with any limit. -/
theorem exists_returned (p : Config) : ∃ s, (system p).Reachable s ∧ s.pc = .returned := by
  obtain ⟨s, hs, hpc, -, -, -, hactive⟩ := exists_ready (le_refl p.limit)
  rw [if_neg (lt_irrefl _)] at hpc
  refine ⟨s.exit .returned, hs.next (a := .main) ?_, rfl⟩
  simp [system, step, mainStep, hpc, hactive]

/-- In all runs in which `main` returns every line is written exactly once, exactly when standard
output is line buffered or `RESTART_LIMIT` is 1. -/
theorem lines_once_iff (p : Config) :
    (∀ s, (system p).Reachable s → s.pc = .returned → LinesOnce p s) ↔
      p.buffering = .line ∨ p.limit = 1 := by
  constructor
  · intro honce
    obtain ⟨s, hs, hend⟩ := exists_returned p
    exact (linesOnce_iff_of_reachable hs hend).mp (honce s hs hend)
  · intro hcond s hs hend
    exact (linesOnce_iff_of_reachable hs hend).mpr hcond

/-- `RESTART_LIMIT` 2 with standard output in a file: the second worker writes the report on the
first one, and so does the supervisor when it returns. -/
theorem report_written_twice :
    ∃ s, (system { restartTwice with buffering := .full }).Reachable s ∧ s.pc = .returned ∧
      s.output = [.worker 0, .reaped 0 30, .worker 1, .reaped 0 30, .reaped 1 31] ∧
      ¬LinesOnce { restartTwice with buffering := .full } s := by
  have hrun : ((system { restartTwice with buffering := .full }).run
      (system { restartTwice with buffering := .full }).init
      [.main, .worker 0, .worker 0, .worker 0, .deliver, .handler, .main, .main, .main, .main,
        .main, .main, .worker 1, .worker 1, .worker 1, .deliver, .handler, .main, .main, .main,
        .main, .main, .main]).map (fun s => (s.pc, s.output)) =
      some (.returned, [.worker 0, .reaped 0 30, .worker 1, .reaped 0 30, .reaped 1 31]) := by
    decide
  obtain ⟨s, hs, hend⟩ := Option.map_eq_some_iff.mp hrun
  rw [Prod.mk.injEq] at hend
  refine ⟨s, TransitionSystem.reachable_of_run hs, hend.1, hend.2, fun honce => ?_⟩
  have hfirst := (honce 0 (by decide)).2
  rw [hend.2] at hfirst
  exact absurd hfirst (by decide)

end Once

end SigchldSupervisor
