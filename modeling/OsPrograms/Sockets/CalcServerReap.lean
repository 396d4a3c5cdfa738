import Mathlib.Data.List.Basic
import OsPrograms.Lib.Signal
import OsPrograms.Lib.TransitionSystem

/-!
# The children of `unix_calc_server`

The server forks one child for each client, and a handler of `SIGCHLD` reaps them:

```
static void reap(int signo) { while (waitpid(-1, NULL, WNOHANG) > 0) { } }
```

Signals are not counted: a child that exits while a `SIGCHLD` is pending, or while the handler is
running, adds no signal of its own. The handler therefore reaps all it finds. A child can still exit
between the last `waitpid` and the return of the handler; its signal is then pending, because the
delivery has cleared the earlier one.

* `ZombieSeen`: a zombie is always announced by a pending signal, or still to be found by the
  handler.
* `zombie_seen_of_reachable`: this holds in every interleaving of the clients, the children, the
  signals, the accept loop and the handler.
-/

namespace UnixCalcServer

/-- The error of a system call. -/
inductive Errno
  | eintr
  | echild
  | other
  deriving DecidableEq, Repr

/-- A child of the server. -/
inductive Child
  /-- In `serve`, or on its way to its exit. -/
  | running
  /-- It has terminated and has not been waited for. -/
  | zombie
  | reaped
  /-- The server has ended before it could wait for the child. -/
  | orphaned
  deriving DecidableEq, Repr

/-- The next statement of the accept loop. -/
inductive Pc
  | accept
  /-- `accept` has returned -1, and `errno` is tested next. -/
  | acceptFailed
  | fork
  /-- `xclose(client)` in the server. -/
  | close
  /-- After `die_errno`. -/
  | died
  deriving DecidableEq, Repr

/-- The next statement of the handler `reap`. -/
inductive HandlerPc
  | waitpid
  | ret
  deriving DecidableEq, Repr

/-- The server, its children and `SIGCHLD`. -/
structure State where
  pc : Pc
  errno : Errno
  /-- The children in the order of their forks. -/
  children : List Child
  /-- `SIGCHLD`, the one signal that is handled. -/
  sigchld : Signals Unit
  /-- Where the handler is, if it is running. -/
  handler : HandlerPc

/-- A scheduling choice, or a choice of the environment. -/
inductive Action
  /-- A client connects, and `accept` returns. -/
  | accept
  | acceptFails (errno : Errno)
  /-- The test of `errno` after a failed `accept`. -/
  | testErrno
  | fork
  | forkFails
  | close
  | closeFails
  /-- Child `k` terminates. -/
  | exit (k : ℕ)
  /-- A pending `SIGCHLD` is delivered to the server. -/
  | deliver
  /-- `waitpid` returns child `k` to the handler. -/
  | waitpid (k : ℕ)
  /-- `waitpid` returns 0 or -1 to the handler. -/
  | waitpidNone
  /-- The handler returns. -/
  | sigreturn
  /-- Another process sends a `SIGCHLD` to the server. -/
  | spurious
  deriving DecidableEq, Repr

/-- The state at the first `accept`. -/
def init : State where
  pc := .accept
  errno := .other
  children := []
  sigchld := .quiet
  handler := .ret

/-- `die_errno` in the server. -/
def die (s : State) : State :=
  { s with
    pc := .died
    children := s.children.map fun child => if child = .reaped then .reaped else .orphaned }

/-- A statement of the accept loop, which is at `pc` and not interrupted by the handler. -/
def mainStep (s : State) (pc : Pc) (next : State) : Option State :=
  if s.pc = pc ∧ s.sigchld.active = [] then some next else none

/-- A statement of the handler, which is running and at `pc`. -/
def handlerStep (s : State) (pc : HandlerPc) (next : State) : Option State :=
  if s.handler = pc ∧ s.sigchld.active ≠ [] then some next else none

/-- One step of the server, of a child or of the kernel. -/
def step (s : State) : Action → Option State
  | .accept => mainStep s .accept { s with pc := .fork }
  | .acceptFails errno => mainStep s .accept { s with pc := .acceptFailed, errno := errno }
  | .testErrno =>
    mainStep s .acceptFailed (if s.errno = .eintr then { s with pc := .accept } else die s)
  | .fork => mainStep s .fork { s with pc := .close, children := s.children ++ [.running] }
  | .forkFails => mainStep s .fork (die s)
  | .close => mainStep s .close { s with pc := .accept }
  | .closeFails => mainStep s .close (die s)
  | .exit k =>
    if s.children[k]? = some .running then
      some { s with
        children := s.children.set k .zombie
        sigchld := s.sigchld.send () }
    else
      none
  | .deliver =>
    if s.pc = .died then
      none
    else do
      let sigchld ← s.sigchld.deliver ()
      some { s with sigchld := sigchld, handler := .waitpid }
  | .waitpid k =>
    if s.children[k]? = some .zombie then
      handlerStep s .waitpid { s with children := s.children.set k .reaped }
    else
      none
  | .waitpidNone =>
    -- 0 while children are running, and -1 with `ECHILD` when there is no child left
    if .zombie ∈ s.children then
      none
    else
      handlerStep s .waitpid { s with
        handler := .ret
        errno := if .running ∈ s.children then s.errno else .echild }
  | .sigreturn => handlerStep s .ret { s with sigchld := s.sigchld.sigreturn }
  | .spurious => some { s with sigchld := s.sigchld.send () }

/-- The server with its children and signals, interleaved. -/
def server : TransitionSystem State Action where
  init := init
  step := step

/-- The handler is in its `waitpid` loop. -/
def State.InWaitpidLoop (s : State) : Prop :=
  s.sigchld.active ≠ [] ∧ s.handler = .waitpid

/-- An unreaped child that has terminated is announced by a pending `SIGCHLD`, or the handler is
still in its loop. -/
def ZombieSeen (s : State) : Prop :=
  .zombie ∈ s.children → s.sigchld.pending () ∨ s.InWaitpidLoop

section ZombieSeen

variable {s s' next : State} {a : Action}

/-- The main process moves only while no handler runs. -/
theorem mainStep_eq_some_iff {pc : Pc} :
    mainStep s pc next = some s' ↔ (s.pc = pc ∧ s.sigchld.active = []) ∧ next = s' := by
  rw [mainStep, Option.ite_none_right_eq_some, Option.some.injEq]

/-- A statement of the handler, while it runs. -/
theorem handlerStep_eq_some_iff {pc : HandlerPc} :
    handlerStep s pc next = some s' ↔
      (s.handler = pc ∧ s.sigchld.active ≠ []) ∧ next = s' := by
  rw [handlerStep, Option.ite_none_right_eq_some, Option.some.injEq]

/-- When the server dies, its children are taken over. -/
theorem zombie_notMem_die (s : State) : .zombie ∉ (die s).children := by
  intro hmem
  obtain ⟨child, -, heq⟩ := List.mem_map.mp hmem
  split_ifs at heq

/-- While the accept loop runs, the handler does not, so a zombie is announced by its signal. A
statement of the loop neither makes a zombie nor consumes a signal. -/
theorem ZombieSeen.mainStep {pc : Pc} (h : ZombieSeen s)
    (hs : mainStep s pc next = some s')
    (hzombie : .zombie ∈ next.children → .zombie ∈ s.children)
    (hsigchld : next.sigchld = s.sigchld) : ZombieSeen s' := by
  obtain ⟨⟨-, hactive⟩, rfl⟩ := mainStep_eq_some_iff.mp hs
  intro hmem
  rw [hsigchld]
  rcases h (hzombie hmem) with hpending | ⟨hrunning, -⟩
  · exact .inl hpending
  · exact absurd hactive hrunning

/-- The end of the server leaves no zombie to it. -/
theorem ZombieSeen.die {pc : Pc} (h : ZombieSeen s)
    (hs : UnixCalcServer.mainStep s pc (die s) = some s') : ZombieSeen s' :=
  h.mainStep hs (fun hmem => absurd hmem (zombie_notMem_die s)) rfl

/-- A zombie has sent a `SIGCHLD`, and its handler calls `waitpid` until no zombie is left. -/
theorem ZombieSeen.step (h : ZombieSeen s) (hs : step s a = some s') : ZombieSeen s' := by
  rcases a with _ | errno | _ | _ | _ | _ | _ | k | _ | k | _ | _ | _ <;>
    simp only [UnixCalcServer.step, Option.ite_none_left_eq_some, Option.ite_none_right_eq_some,
      handlerStep_eq_some_iff, Option.bind_eq_bind, Option.bind_eq_some_iff,
      Option.some.injEq] at hs
  case accept => exact h.mainStep hs id rfl
  case acceptFails => exact h.mainStep hs id rfl
  case testErrno =>
    split_ifs at hs
    · exact h.mainStep hs id rfl
    · exact h.die hs
  case fork => exact h.mainStep hs (by simp) rfl
  case forkFails => exact h.die hs
  case close => exact h.mainStep hs id rfl
  case closeFails => exact h.die hs
  case exit =>
    -- the child that terminates sends the signal
    obtain ⟨-, rfl⟩ := hs
    exact fun _ => .inl (s.sigchld.pending_send ())
  case deliver =>
    -- the signal that is no longer pending has started the loop
    obtain ⟨-, sigchld, hdeliver, rfl⟩ := hs
    obtain ⟨-, rfl⟩ := Signals.deliver_eq_some_iff.mp hdeliver
    exact fun _ => .inr ⟨List.cons_ne_nil _ _, rfl⟩
  case waitpid =>
    -- one zombie less, and the loop goes on
    obtain ⟨-, ⟨hpc, hactive⟩, rfl⟩ := hs
    exact fun _ => .inr ⟨hactive, hpc⟩
  case waitpidNone =>
    -- the loop is left only when there is no zombie
    obtain ⟨hnone, -, rfl⟩ := hs
    exact fun hmem => absurd hmem hnone
  case sigreturn =>
    -- the handler has left its loop, so a zombie that is there now has sent a signal since
    obtain ⟨⟨hpc, -⟩, rfl⟩ := hs
    intro hmem
    rcases h hmem with hpending | ⟨-, hloop⟩
    · exact .inl hpending
    · rw [hpc] at hloop
      cases hloop
  case spurious =>
    obtain rfl := hs
    exact fun _ => .inl (s.sigchld.pending_send ())

end ZombieSeen

/-- For every sequence of clients and in every interleaving, an unreaped child that has terminated
is announced by a pending `SIGCHLD` or will be found by the handler, so no zombie is left when no
signal is pending and the handler is not running. -/
theorem zombie_seen_of_reachable {s : State} (h : server.Reachable s) :
    ZombieSeen s ∧
      (s.sigchld.pending () = false → s.sigchld.active = [] → .zombie ∉ s.children) := by
  have hseen : ZombieSeen s := h.invariant nofun fun _ _ _ hinv hs => hinv.step hs
  refine ⟨hseen, fun hpending hactive hmem => ?_⟩
  rcases hseen hmem with hpending' | ⟨hrunning, -⟩
  · rw [hpending] at hpending'
    cases hpending'
  · exact hrunning hactive

/-- The second of two children exits between the last `waitpid` and the return of the handler: its
signal is pending. -/
theorem zombie_seen_late_exit :
    ∃ s, server.Reachable s ∧ s.children = [.reaped, .zombie] ∧ s.sigchld.active = [] ∧
      s.sigchld.pending () := by
  have hrun : (server.run server.init [.accept, .fork, .close, .accept, .fork, .exit 0, .deliver,
      .waitpid 0, .waitpidNone, .exit 1, .sigreturn]).map
        (fun s => (s.children, s.sigchld.active)) = some ([.reaped, .zombie], []) := by decide
  obtain ⟨s, hs, hend⟩ := Option.map_eq_some_iff.mp hrun
  rw [Prod.mk.injEq] at hend
  have hreach := TransitionSystem.reachable_of_run hs
  obtain ⟨hseen, -⟩ := zombie_seen_of_reachable hreach
  refine ⟨s, hreach, hend.1, hend.2, ?_⟩
  rcases hseen (by simp [hend.1]) with hpending | ⟨hrunning, -⟩
  · exact hpending
  · exact absurd hend.2 hrunning

end UnixCalcServer
