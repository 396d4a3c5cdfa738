import OsPrograms.Lib.SignalPipe
import OsPrograms.Pipes.SelfPipeSignalReactor
import OsPrograms.Signals.SigchldSupervisor

/-!
# Handlers that write to a blocking pipe

The handlers of `self_pipe_signal_reactor` and `sigchld_supervisor` write a byte to a pipe that
their own main loop reads. Neither program calls `set_nonblock` on the write end, so a handler that
finds the pipe full waits for the loop that it has interrupted.

Both programs use their pipe as `SignalPipe.Uses` describes.

## Main results

- `SelfPipeSignalReactor.uses`, `SigchldSupervisor.uses`: what the programs do to pipe and signals.
- `HandlerWrites.handlers_return_iff`: no handler blocks as long as each of them starts with room in
  the pipe, and the first that does not makes the process hang.
-/

/-! ## `self_pipe_signal_reactor` -/

namespace SelfPipeSignalReactor

variable {p : Config} {s s' : State} {a : Action}

/-- The process is inside a handler whose `write` does not return. -/
def HandlerBlocked (p : Config) (s : State) : Prop :=
  s.pc.ended = false ∧ s.signals.active ≠ [] ∧ step p s .handler = none

/-- The pipe and the signals. -/
def pipeView (s : State) : SignalPipe Signo where
  level := s.pipe.length
  signals := s.signals

/-- The process runs, and the pipe has its reader. -/
def PipeOpen (s : State) : Prop :=
  s.pc.readEndOpen ∧ s.pc.ended = false

/-- The action starts a handler. -/
def Starts (a : Action) : Prop :=
  ∃ x, a = .deliver x

/-- A handler that starts does so with room in the pipe. -/
def StartsWithRoom (p : Config) : State → Action → Prop :=
  SignalPipe.StartsWithRoom p.capacity pipeView PipeOpen Starts

/-- While the pipe is open, a handler writes if there is room. -/
theorem handlerStep_of_open {x : Signo} (h : PipeOpen s) :
    handlerStep p s x =
      if s.pipe.length < p.capacity then
        some { s with
          signals := s.signals.sigreturn
          pipe := s.pipe ++ [x.byte]
          ran := s.ran ++ [x] }
      else none := by
  obtain ⟨hopen, -⟩ := h
  unfold handlerStep
  split
  case h_1 hpc => simp [hpc, Pc.readEndOpen] at hopen
  case h_2 hpc => simp [hpc, Pc.readEndOpen] at hopen
  case h_3 => rfl

/-- The innermost handler is the one that runs. -/
theorem step_handler_of_open {x : Signo} {active : List Signo} (h : PipeOpen s)
    (hactive : s.signals.active = x :: active) : step p s .handler = handlerStep p s x := by
  simp [step, h.2, hactive]

/-- A handler blocks only while the pipe is open and full. -/
theorem handlerBlocked_iff :
    HandlerBlocked p s ↔ PipeOpen s ∧ SignalPipe.Blocked p.capacity (pipeView s) := by
  constructor
  · rintro ⟨hended, hactive, hstep⟩
    obtain ⟨x, active, hcons⟩ := List.exists_cons_of_ne_nil hactive
    simp only [step, hended, hcons, Bool.false_eq_true, ↓reduceIte] at hstep
    -- without a reader, or with the descriptor closed, `write` fails at once
    unfold handlerStep at hstep
    split at hstep
    case h_1 => cases hstep
    case h_2 => cases hstep
    case h_3 hwrite hret =>
      have hfull : p.capacity ≤ s.pipe.length := by simpa using hstep
      refine ⟨⟨?_, hended⟩, hactive, hfull⟩
      cases hpc : s.pc <;> simp_all [Pc.readEndOpen, Pc.ended]
  · rintro ⟨hopen, hactive, hfull⟩
    obtain ⟨x, active, hcons⟩ := List.exists_cons_of_ne_nil hactive
    refine ⟨hopen.2, hactive, ?_⟩
    rw [step_handler_of_open hopen hcons, handlerStep_of_open hopen]
    exact if_neg (Nat.not_lt.mpr hfull)

/-- The main loop reads, sends the process a signal, or leaves pipe and signals alone. -/
theorem effect_mainStep (hactive : s.signals.active = []) (hs : mainStep p s = some s') :
    SignalPipe.Effect p.capacity (pipeView s) (pipeView s') := by
  obtain ⟨pc, events, pipe, signals, alarmSet, ran, printed⟩ := s
  cases pc
  case raise =>
    -- the program sends itself the first signal
    obtain rfl := Option.some.inj hs
    exact .send Signo.sigusr1
  case raised | inPoll =>
    simp only [mainStep, Option.ite_none_left_eq_some, Option.some.injEq] at hs
    obtain ⟨-, rfl⟩ := hs
    exact .idle
  case polled r =>
    cases r <;> obtain rfl := Option.some.inj hs <;> exact .idle
  case read =>
    cases pipe with
    | nil => cases hs
    | cons b rest =>
      obtain rfl := Option.some.inj hs
      exact .read 1 hactive
  case returned | pollDied | killed => cases hs
  all_goals
    obtain rfl := Option.some.inj hs
    exact .idle

/-- What the steps that start no handler do to the pipe. -/
theorem effect_step (hopen : PipeOpen s) (hstarts : ¬Starts a) (hs : step p s a = some s') :
    SignalPipe.Effect p.capacity (pipeView s) (pipeView s') := by
  cases a with
  | main =>
    simp only [step, Option.ite_none_right_eq_some] at hs
    exact effect_mainStep hs.1 hs.2
  | send x =>
    obtain rfl := Option.some.inj hs
    exact .send x
  | alarmExpires =>
    simp only [step, Option.ite_none_right_eq_some, Option.some.injEq] at hs
    obtain ⟨-, rfl⟩ := hs
    exact .send Signo.sigalrm
  | deliver x => exact absurd ⟨x, rfl⟩ hstarts
  | handler =>
    cases hactive : s.signals.active with
    | nil => simp [step, hactive] at hs
    | cons x active =>
      rw [step_handler_of_open hopen hactive, handlerStep_of_open hopen,
        Option.ite_none_right_eq_some, Option.some.injEq] at hs
      obtain ⟨hlt, rfl⟩ := hs
      have hwrite := SignalPipe.Effect.write (p := pipeView s)
        (List.ne_nil_of_mem (hactive ▸ List.mem_cons_self)) hlt
      simpa [pipeView, SignalPipe.write] using hwrite
  | timeout =>
    simp only [step, Option.ite_none_right_eq_some, Option.some.injEq] at hs
    obtain ⟨-, rfl⟩ := hs
    exact .idle

/-- What a step does to the program counter: only the main loop moves it on, apart from a blocked
`poll` that gets its result and from `SIGPIPE`. -/
theorem pc_of_step (hs : step p s a = some s') :
    (a = .main ∧ s.signals.active = [] ∧ mainStep p s = some s') ∨ s'.pc = s.pc ∨
      (s.pc = .inPoll ∧ ∃ r, s'.pc = .polled r) ∨ (s.pc = .closeWrite ∧ s'.pc = .killed) := by
  cases a <;> simp only [step, Option.ite_none_right_eq_some, Option.ite_none_left_eq_some,
    Option.bind_eq_bind, Option.bind_eq_some_iff, Option.some.injEq] at hs
  case main => exact .inl ⟨rfl, hs⟩
  case send x =>
    subst hs
    exact .inr (.inl rfl)
  case alarmExpires =>
    obtain ⟨-, rfl⟩ := hs
    exact .inr (.inl rfl)
  case deliver x =>
    obtain ⟨-, signals, -, rfl⟩ := hs
    by_cases hpc : s.pc = .inPoll
    · exact .inr (.inr (.inl ⟨hpc, .interrupted, if_pos hpc⟩))
    · exact .inr (.inl (if_neg hpc))
  case handler =>
    obtain ⟨-, hs⟩ := hs
    split at hs
    · cases hs
    · rcases pc_of_handlerStep hs with hpc | hkilled
      · exact .inr (.inl hpc)
      · exact .inr (.inr (.inr hkilled))
  case timeout =>
    obtain ⟨hpc, rfl⟩ := hs
    exact .inr (.inr (.inl ⟨hpc, .timedOut, rfl⟩))

/-- The main loop does not open the pipe again. -/
theorem pipeOpen_of_mainStep (hs : mainStep p s = some s') (hopen : PipeOpen s') :
    PipeOpen s := by
  obtain ⟨pc, events, pipe, signals, alarmSet, ran, printed⟩ := s
  cases pc
  case closeWrite | ret =>
    -- the read end is closed behind these
    obtain rfl := Option.some.inj hs
    exact absurd hopen.1 (by simp [Pc.readEndOpen])
  case returned | pollDied | killed => cases hs
  all_goals exact ⟨rfl, rfl⟩

/-- A pipe that is open was open before. -/
theorem pipeOpen_of_step (hs : step p s a = some s') (hopen : PipeOpen s') : PipeOpen s := by
  rcases pc_of_step hs with ⟨-, -, hs⟩ | hpc | ⟨hpc, -⟩ | ⟨-, hpc'⟩
  · exact pipeOpen_of_mainStep hs hopen
  · rw [PipeOpen, ← hpc]
    exact hopen
  · rw [PipeOpen, hpc]
    exact ⟨rfl, rfl⟩
  · rw [PipeOpen, hpc'] at hopen
    exact absurd hopen.1 (by simp [Pc.readEndOpen])

/-- The main loop does not close the pipe while a handler runs. -/
theorem pipeOpen_step (hopen : PipeOpen s) (hs : step p s a = some s')
    (h : Starts a ∨ s.signals.active ≠ []) : PipeOpen s' := by
  rcases pc_of_step hs with ⟨rfl, hactive, -⟩ | hpc | ⟨-, r, hpc⟩ | ⟨hpc, -⟩
  · rcases h with ⟨x, hx⟩ | hne
    · cases hx
    · exact absurd hactive hne
  · rw [PipeOpen, hpc]
    exact hopen
  · rw [PipeOpen, hpc]
    exact ⟨rfl, rfl⟩
  · rw [PipeOpen, hpc] at hopen
    exact absurd hopen.1 (by simp [Pc.readEndOpen])

/-- The reactor uses a signal pipe. -/
theorem uses (p : Config) :
    SignalPipe.Uses (system p) p.capacity pipeView PipeOpen Starts .handler where
  init := ⟨rfl, rfl⟩
  open_of_step := pipeOpen_of_step
  open_step := pipeOpen_step
  delivers := by
    rintro s a s' - ⟨x, rfl⟩ hs
    simp only [system, step, Option.ite_none_left_eq_some, Option.bind_eq_bind,
      Option.bind_eq_some_iff, Option.some.injEq] at hs
    obtain ⟨-, signals, hdeliver, rfl⟩ := hs
    exact ⟨x, signals, hdeliver, rfl⟩
  effect := effect_step
  handler_step := by
    intro s hopen hactive hlt
    obtain ⟨x, active, hcons⟩ := List.exists_cons_of_ne_nil hactive
    refine ⟨_, (step_handler_of_open hopen hcons).trans
      ((handlerStep_of_open hopen).trans (if_pos hlt)), ?_⟩
    simp [pipeView, SignalPipe.write]

/-- Another process can send a signal at any time. -/
theorem canSignal (p : Config) :
    SignalPipe.CanSignal (system p) pipeView PipeOpen Starts Signo.sigusr1 where
  send hopen := ⟨.send .sigusr1, _, rfl, hopen, rfl⟩
  deliver {s signals} hopen hdeliver := by
    have hsignals : s.signals.deliver .sigusr1 = some signals := hdeliver
    let s' : State :=
      { s with signals := signals, pc := if s.pc = .inPoll then .polled .interrupted else s.pc }
    have hstart : (system p).step s (.deliver .sigusr1) = some s' := by
      simp [system, step, s', hopen.2, hsignals]
    exact ⟨.deliver .sigusr1, s', ⟨_, rfl⟩, hstart, rfl⟩

/-- The handler's write returns as long as each handler starts with room in the pipe. -/
theorem returnsIff (p : Config) :
    SignalPipe.ReturnsIff (system p) pipeView (StartsWithRoom p) (HandlerBlocked p) :=
  (uses p).returns_iff (canSignal p) ⟨rfl, rfl⟩ fun _ => handlerBlocked_iff

end SelfPipeSignalReactor

/-! ## `sigchld_supervisor` -/

namespace SigchldSupervisor

variable {p : Config} {s s' : State} {a : Action}

/-- The supervisor is inside its handler, whose `write` does not return. -/
def HandlerBlocked (p : Config) (s : State) : Prop :=
  s.pc.ended = false ∧ s.sigchld.active ≠ [] ∧ step p s .handler = none

/-- The pipe and the signal. -/
def pipeView (s : State) : SignalPipe Unit where
  level := s.pipe
  signals := s.sigchld

/-- The supervisor runs. It never closes its pipe. -/
def PipeOpen (s : State) : Prop :=
  s.pc.ended = false

/-- The action starts a handler. -/
def Starts (a : Action) : Prop :=
  a = .deliver

/-- A handler that starts does so with room in the pipe. -/
def StartsWithRoom (p : Config) : State → Action → Prop :=
  SignalPipe.StartsWithRoom p.capacity pipeView PipeOpen Starts

/-- A handler blocks only while the supervisor runs and its pipe is full. -/
theorem handlerBlocked_iff :
    HandlerBlocked p s ↔ PipeOpen s ∧ SignalPipe.Blocked p.capacity (pipeView s) := by
  refine and_congr_right fun _ => and_congr_right fun hactive => ?_
  simp [step, hactive, pipeView]

/-- The main loop reads, or leaves pipe and signal alone. -/
theorem effect_mainStep (hactive : s.sigchld.active = []) (hs : mainStep p s = some s') :
    SignalPipe.Effect p.capacity (pipeView s) (pipeView s') := by
  obtain ⟨pc, attempt, worker, process, pipe, sigchld, started, reports, buffer, output⟩ := s
  cases pc
  case inPoll =>
    simp only [mainStep, Option.ite_none_right_eq_some, Option.some.injEq] at hs
    obtain ⟨-, rfl⟩ := hs
    exact .idle
  case read =>
    simp only [mainStep, Option.ite_none_right_eq_some, Option.some.injEq] at hs
    obtain ⟨-, rfl⟩ := hs
    exact .read 8 hactive
  case polled r =>
    cases r <;> obtain rfl := Option.some.inj hs <;> exact .idle
  case waitpid =>
    simp only [mainStep] at hs
    split at hs <;> obtain rfl := Option.some.inj hs <;> exact .idle
  case returned | pollDied | forkDied => cases hs
  all_goals
    obtain rfl := Option.some.inj hs
    exact .idle

/-- What the steps that start no handler do to the pipe. -/
theorem effect_step (hstarts : ¬Starts a) (hs : step p s a = some s') :
    SignalPipe.Effect p.capacity (pipeView s) (pipeView s') := by
  cases a <;> simp only [step, Option.ite_none_right_eq_some, Option.some.injEq] at hs
  case main => exact effect_mainStep hs.1 hs.2
  case worker k =>
    unfold workerStep at hs
    split at hs <;> cases hs
    · exact .idle
    · exact .idle
    · -- the end of a worker is a `SIGCHLD` for the supervisor
      exact .send ()
  case deliver => exact absurd rfl hstarts
  case handler =>
    obtain ⟨⟨hactive, hlt⟩, rfl⟩ := hs
    exact .write hactive hlt
  case spurious =>
    subst hs
    exact .send ()
  case timeout =>
    obtain ⟨-, rfl⟩ := hs
    exact .idle
  case forkFails =>
    obtain ⟨-, rfl⟩ := hs
    exact .idle

/-- What a step does to the program counter: only the main loop moves it on, apart from a blocked
`poll` that gets its result. -/
theorem pc_of_step (hs : step p s a = some s') :
    (s.sigchld.active = [] ∧ ¬Starts a ∧ s.pc.ended = false) ∨ s'.pc = s.pc ∨
      (s.pc = .inPoll ∧ ∃ r, s'.pc = .polled r) := by
  cases a <;> simp only [step, Option.ite_none_right_eq_some, Option.ite_none_left_eq_some,
    Option.bind_eq_bind, Option.bind_eq_some_iff, Option.some.injEq] at hs
  case main =>
    refine .inl ⟨hs.1, by rintro ⟨⟩, ?_⟩
    cases hpc : s.pc <;> simp_all [mainStep, Pc.ended]
  case worker k =>
    unfold workerStep at hs
    split at hs <;> cases hs <;> exact .inr (.inl rfl)
  case deliver =>
    obtain ⟨-, sigchld, -, rfl⟩ := hs
    by_cases hpc : s.pc = .inPoll
    · exact .inr (.inr ⟨hpc, .interrupted, if_pos hpc⟩)
    · exact .inr (.inl (if_neg hpc))
  case handler =>
    obtain ⟨-, rfl⟩ := hs
    exact .inr (.inl rfl)
  case spurious =>
    subst hs
    exact .inr (.inl rfl)
  case timeout =>
    obtain ⟨hpc, rfl⟩ := hs
    exact .inr (.inr ⟨hpc, .timedOut, rfl⟩)
  case forkFails =>
    obtain ⟨⟨hpc, hactive⟩, rfl⟩ := hs
    exact .inl ⟨hactive, by rintro ⟨⟩, by rw [hpc]; rfl⟩

/-- A supervisor that runs was running before. -/
theorem pipeOpen_of_step (hs : step p s a = some s') (hopen : PipeOpen s') : PipeOpen s := by
  rcases pc_of_step hs with ⟨-, -, hopen⟩ | hpc | ⟨hpc, -⟩
  · exact hopen
  · rw [PipeOpen, ← hpc]
    exact hopen
  · rw [PipeOpen, hpc]
    rfl

/-- The supervisor does not end while its handler runs. -/
theorem pipeOpen_step (hopen : PipeOpen s) (hs : step p s a = some s')
    (h : Starts a ∨ s.sigchld.active ≠ []) : PipeOpen s' := by
  rcases pc_of_step hs with ⟨hactive, hstarts, -⟩ | hpc | ⟨-, r, hpc⟩
  · rcases h with hstarts' | hne
    · exact absurd hstarts' hstarts
    · exact absurd hactive hne
  · rw [PipeOpen, hpc]
    exact hopen
  · rw [PipeOpen, hpc]
    rfl

/-- The supervisor uses a signal pipe. -/
theorem uses (p : Config) :
    SignalPipe.Uses (system p) p.capacity pipeView PipeOpen Starts .handler where
  init := ⟨rfl, rfl⟩
  open_of_step := pipeOpen_of_step
  open_step := pipeOpen_step
  delivers := by
    rintro s a s' - rfl hs
    simp only [system, step, Option.ite_none_left_eq_some, Option.bind_eq_bind,
      Option.bind_eq_some_iff, Option.some.injEq] at hs
    obtain ⟨-, sigchld, hdeliver, rfl⟩ := hs
    exact ⟨(), sigchld, hdeliver, rfl⟩
  effect := fun _ => effect_step
  handler_step := fun _ hactive hlt => ⟨_, if_pos ⟨hactive, hlt⟩, rfl⟩

/-- Another process can send a `SIGCHLD` at any time. -/
theorem canSignal (p : Config) :
    SignalPipe.CanSignal (system p) pipeView PipeOpen Starts () where
  send hopen := ⟨.spurious, _, rfl, hopen, rfl⟩
  deliver {s sigchld} hopen hdeliver := by
    have hsigchld : s.sigchld.deliver () = some sigchld := hdeliver
    have hended : s.pc.ended = false := hopen
    let s' : State :=
      { s with sigchld := sigchld, pc := if s.pc = .inPoll then .polled .interrupted else s.pc }
    have hstart : (system p).step s .deliver = some s' := by
      simp [system, step, s', hended, hsigchld]
    exact ⟨.deliver, s', rfl, hstart, rfl⟩

/-- The handler's write returns as long as each handler starts with room in the pipe. -/
theorem returnsIff (p : Config) :
    SignalPipe.ReturnsIff (system p) pipeView (StartsWithRoom p) (HandlerBlocked p) :=
  (uses p).returns_iff (canSignal p) rfl fun _ => handlerBlocked_iff

end SigchldSupervisor

/-! ## Both programs -/

namespace HandlerWrites

/-- For both programs and every capacity of their pipe, along every run: no handler blocks as long
as each starts with room in the pipe for its byte and those of the handlers it interrupts. After one
that starts without it the process never leaves its handlers, and one of them can block, for
good. Over all runs the handlers of neither program are safe: a state in which one blocks is
reachable, however large the pipe is. -/
theorem handlers_return_iff (p : SelfPipeSignalReactor.Config) (q : SigchldSupervisor.Config) :
    SignalPipe.ReturnsIff (SelfPipeSignalReactor.system p) SelfPipeSignalReactor.pipeView
        (SelfPipeSignalReactor.StartsWithRoom p) (SelfPipeSignalReactor.HandlerBlocked p) ∧
      SignalPipe.ReturnsIff (SigchldSupervisor.system q) SigchldSupervisor.pipeView
        (SigchldSupervisor.StartsWithRoom q) (SigchldSupervisor.HandlerBlocked q) := by
  constructor
  · exact SelfPipeSignalReactor.returnsIff p
  · exact SigchldSupervisor.returnsIff q

/-- Signals from another process fill the pipe of either program before its main loop reads, with
the parameters of the source on Linux. -/
theorem handler_blocks :
    ¬(∀ s, (SelfPipeSignalReactor.system SelfPipeSignalReactor.twoEvents).Reachable s →
        ¬SelfPipeSignalReactor.HandlerBlocked SelfPipeSignalReactor.twoEvents s) ∧
      ¬∀ s, (SigchldSupervisor.system SigchldSupervisor.restartTwice).Reachable s →
        ¬SigchldSupervisor.HandlerBlocked SigchldSupervisor.restartTwice s := by
  constructor
  · intro hclaim
    obtain ⟨s, hs, hblocked⟩ :=
      (SelfPipeSignalReactor.returnsIff SelfPipeSignalReactor.twoEvents).reachable
    exact hclaim s hs hblocked
  · intro hclaim
    obtain ⟨s, hs, hblocked⟩ :=
      (SigchldSupervisor.returnsIff SigchldSupervisor.restartTwice).reachable
    exact hclaim s hs hblocked

end HandlerWrites
