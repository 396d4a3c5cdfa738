import Mathlib.Data.List.Range
import Mathlib.Data.Nat.Notation
import Mathlib.Tactic.Common
import OsPrograms.Lib.Semaphore
import OsPrograms.Lib.Stdio
import OsPrograms.Lib.TransitionSystem

/-!
# Ping-pong between two named semaphores (`posix_named_sem_pingpong`)

The parent and its child take turns:

```
parent: for (i = 0; i < n; i++) { sem_wait(ping); printf("ping"); sem_post(pong); }
child:  for (i = 0; i < n; i++) { sem_wait(pong); printf("pong"); fflush(stdout); sem_post(ping); }
```

with `ping` initialised to 1 and `pong` to 0. The semaphores order the calls of `printf`. The bytes
reach standard output when a buffer is written out, and only the child does this before it hands
over.

* `Inv` relates the semaphores, both loops and the calls of `printf`, along every run.
* `pingpong_alternates`: the calls alternate, no state is deadlocked, and the semaphores end as they
  began.
* `output_in_order_iff`: the output is in order exactly when it is line buffered, or there is no
  output at all.
-/

namespace PosixNamedSemPingpong

/-- A printed line. -/
inductive Line
  /-- `ping %d` -/
  | ping (k : ℕ)
  /-- `pong %d` -/
  | pong (k : ℕ)
  deriving DecidableEq, Repr

/-- The next statement of the parent. -/
inductive ParentPc
  /-- `sem_wait(ping)` -/
  | wait
  | printf
  /-- `sem_post(pong)` -/
  | post
  /-- The loop is finished, `wait_for_pid(child)` is next. -/
  | waitForPid
  /-- The semaphores are closed and unlinked, and `main` returns. -/
  | ret
  | returned
  deriving DecidableEq, Repr

/-- The next statement of the child. -/
inductive ChildPc
  /-- `sem_wait(pong)` -/
  | wait
  | printf
  | fflush
  /-- `sem_post(ping)` -/
  | post
  /-- The loop is finished, `_exit(0)` is next. -/
  | exit
  | exited
  deriving DecidableEq, Repr

/-- What a run of the program depends on. -/
structure Config where
  /-- The number of rounds. -/
  rounds : ℕ
  /-- How standard output is buffered. -/
  buffering : Buffering

/-- The semaphores, both processes and standard output. -/
structure State where
  ping : ℕ
  pong : ℕ
  parent : ParentPc
  /-- The parent's loop variable. -/
  i : ℕ
  child : ChildPc
  /-- The child's loop variable. -/
  j : ℕ
  /-- The executed calls of `printf`, in order. -/
  calls : List Line
  /-- The buffer of the parent's standard output. -/
  parentBuffer : List Line
  /-- The buffer of the child's standard output. -/
  childBuffer : List Line
  /-- What has reached standard output. -/
  output : List Line

/-- Who takes the next step. -/
inductive Action
  | parent
  | child
  deriving DecidableEq, Repr

section Model

variable (c : Config)

/-- The parent at the test of its loop. -/
def parentTest (i : ℕ) : ParentPc :=
  if i < c.rounds then .wait else .waitForPid

/-- The child at the test of its loop. -/
def childTest (j : ℕ) : ChildPc :=
  if j < c.rounds then .wait else .exit

/-- The state after `fork`, which has copied an empty buffer. -/
def init : State where
  ping := 1
  pong := 0
  parent := parentTest c 0
  i := 0
  child := childTest c 0
  j := 0
  calls := []
  parentBuffer := []
  childBuffer := []
  output := []

/-- The next statement of the parent, `none` while it blocks and after its end. -/
def parentStep (s : State) : Option State :=
  match s.parent with
  | .wait => do
    let ping ← Semaphore.wait s.ping
    some { s with ping := ping, parent := .printf }
  | .printf =>
    some { s with
      parent := .post
      calls := s.calls ++ [.ping (s.i + 1)]
      output := s.output ++ (Stdio.printf c.buffering s.parentBuffer (.ping (s.i + 1))).1
      parentBuffer := (Stdio.printf c.buffering s.parentBuffer (.ping (s.i + 1))).2 }
  | .post =>
    some { s with
      pong := Semaphore.post s.pong
      i := s.i + 1
      parent := parentTest c (s.i + 1) }
  | .waitForPid => if s.child = .exited then some { s with parent := .ret } else none
  | .ret =>
    -- the return from `main` writes the buffer out
    some { s with parent := .returned, output := s.output ++ s.parentBuffer, parentBuffer := [] }
  | .returned => none

/-- The next statement of the child, `none` while it blocks and after its end. -/
def childStep (s : State) : Option State :=
  match s.child with
  | .wait => do
    let pong ← Semaphore.wait s.pong
    some { s with pong := pong, child := .printf }
  | .printf =>
    some { s with
      child := .fflush
      calls := s.calls ++ [.pong (s.j + 1)]
      output := s.output ++ (Stdio.printf c.buffering s.childBuffer (.pong (s.j + 1))).1
      childBuffer := (Stdio.printf c.buffering s.childBuffer (.pong (s.j + 1))).2 }
  | .fflush =>
    some { s with child := .post, output := s.output ++ s.childBuffer, childBuffer := [] }
  | .post =>
    some { s with
      ping := Semaphore.post s.ping
      j := s.j + 1
      child := childTest c (s.j + 1) }
  | .exit =>
    -- `_exit` discards what is in the buffer
    some { s with child := .exited, childBuffer := [] }
  | .exited => none

/-- The parent and the child, interleaved. -/
def system : TransitionSystem State Action where
  init := init c
  step
    | s, .parent => parentStep c s
    | s, .child => childStep c s

end Model

/-- The loop of the parent is finished. -/
def ParentPc.Finished (pc : ParentPc) : Prop :=
  pc = waitForPid ∨ pc = ret ∨ pc = returned

/-- The loop of the child is finished. -/
def ChildPc.Finished (pc : ChildPc) : Prop :=
  pc = exit ∨ pc = exited

/-- A loop is not finished, and neither process can take a step. -/
def Deadlocked (c : Config) (s : State) : Prop :=
  ¬(s.parent.Finished ∧ s.child.Finished) ∧ (system c).Stuck s

/-- `ping 1`, `pong 1`, ..., `ping n`, `pong n`. -/
def rally (n : ℕ) : List Line :=
  (List.range n).flatMap fun k => [.ping (k + 1), .pong (k + 1)]

/-! ## The invariant -/

namespace ParentPc

/-- Passed `sem_wait(ping)` in this round. -/
def tookPing : ParentPc → ℕ
  | .printf | .post => 1
  | _ => 0

/-- Called `printf` in this round. -/
def called : ParentPc → ℕ
  | .post => 1
  | _ => 0

/-- The range of the loop variable. -/
def Bound (n i : ℕ) : ParentPc → Prop
  | .wait | .printf | .post => i < n
  | .waitForPid | .ret | .returned => i = n

end ParentPc

namespace ChildPc

/-- Passed `sem_wait(pong)` in this round. -/
def tookPong : ChildPc → ℕ
  | .printf | .fflush | .post => 1
  | _ => 0

/-- Called `printf` in this round. -/
def called : ChildPc → ℕ
  | .fflush | .post => 1
  | _ => 0

/-- The range of the loop variable. -/
def Bound (n j : ℕ) : ChildPc → Prop
  | .wait | .printf | .fflush | .post => j < n
  | .exit | .exited => j = n

end ChildPc

/-- The first `a` pings and the first `b` pongs, which is one ping more at most. -/
def exchanged (a b : ℕ) : List Line :=
  rally b ++ if b < a then [.ping (b + 1)] else []

/-- The invariant of all runs. -/
structure Inv (c : Config) (s : State) : Prop where
  parent_bound : s.parent.Bound c.rounds s.i
  child_bound : s.child.Bound c.rounds s.j
  ping_eq : s.ping + (s.i + s.parent.tookPing) = 1 + s.j
  pong_eq : s.pong + (s.j + s.child.tookPong) = s.i
  calls_eq : s.calls = exchanged (s.i + s.parent.called) (s.j + s.child.called)

section Rally

variable {n m a b : ℕ}

theorem rally_succ (n : ℕ) : rally (n + 1) = rally n ++ [.ping (n + 1), .pong (n + 1)] := by
  simp [rally, List.range_succ, List.flatMap_append]

/-- Fewer rounds are the beginning of more rounds. -/
theorem rally_initial (h : m ≤ n) : rally m <+: rally n := by
  induction n, h using Nat.le_induction with
  | base => exact List.prefix_rfl
  | succ n _ ih =>
    rw [rally_succ]
    exact ih.trans (List.prefix_append _ _)

/-- When both have been called equally often, the rounds are complete. -/
theorem exchanged_self (a : ℕ) : exchanged a a = rally a := by
  simp [exchanged]

/-- A ping after as many pongs as pings. -/
theorem exchanged_ping (a : ℕ) : exchanged (a + 1) a = exchanged a a ++ [.ping (a + 1)] := by
  simp [exchanged]

/-- A pong after its ping. -/
theorem exchanged_pong (a : ℕ) :
    exchanged (a + 1) (a + 1) = exchanged (a + 1) a ++ [.pong (a + 1)] := by
  simp [exchanged, rally_succ]

/-- Within the rounds the calls are the beginning of the whole exchange. -/
theorem exchanged_initial (ha : a ≤ n) (hb : b ≤ n) : exchanged a b <+: rally n := by
  unfold exchanged
  split_ifs with hlt
  · have hsucc : rally b ++ [.ping (b + 1)] <+: rally (b + 1) := by
      rw [rally_succ]
      exact ⟨[.pong (b + 1)], by simp⟩
    exact hsucc.trans (rally_initial (by omega))
  · rw [List.append_nil]
    exact rally_initial hb

end Rally

section Inv

variable {c : Config} {s s' : State}

/-- The parent starts another round exactly while rounds are left. -/
theorem parentTest_cases (c : Config) {i : ℕ} (h : i ≤ c.rounds) :
    (parentTest c i = .wait ∧ i < c.rounds) ∨ (parentTest c i = .waitForPid ∧ i = c.rounds) := by
  unfold parentTest
  split_ifs with hlt
  · exact .inl ⟨rfl, hlt⟩
  · exact .inr ⟨rfl, le_antisymm h (not_lt.mp hlt)⟩

/-- The child starts another round exactly while rounds are left. -/
theorem childTest_cases (c : Config) {j : ℕ} (h : j ≤ c.rounds) :
    (childTest c j = .wait ∧ j < c.rounds) ∨ (childTest c j = .exit ∧ j = c.rounds) := by
  unfold childTest
  split_ifs with hlt
  · exact .inl ⟨rfl, hlt⟩
  · exact .inr ⟨rfl, le_antisymm h (not_lt.mp hlt)⟩

theorem Inv.init (c : Config) : Inv c (init c) := by
  have hparent := parentTest_cases c (Nat.zero_le c.rounds)
  have hchild := childTest_cases c (Nat.zero_le c.rounds)
  rcases hparent with ⟨hp, hpn⟩ | ⟨hp, hpn⟩ <;> rcases hchild with ⟨hc, hcn⟩ | ⟨hc, hcn⟩ <;>
    constructor <;> simp only [PosixNamedSemPingpong.init, hp, hc] <;>
    first | assumption | rfl

/-- The parent prints in its turn, and gives the turn to the child. -/
theorem Inv.parentStep (h : Inv c s) (hs : parentStep c s = some s') : Inv c s' := by
  obtain ⟨ping, pong, parent, i, child, j, calls, parentBuffer, childBuffer, output⟩ := s
  rcases parent with _ | _ | _ | _ | _ | _
  case wait =>
    simp only [PosixNamedSemPingpong.parentStep, Option.bind_eq_bind, Option.bind_eq_some_iff,
      Semaphore.wait_eq_some_iff, Option.some.injEq] at hs
    obtain ⟨m, rfl, rfl⟩ := hs
    have hping : m + 1 + (i + 0) = 1 + j := h.ping_eq
    exact { h with ping_eq := show m + (i + 1) = 1 + j by omega }
  case printf =>
    obtain rfl := Option.some.inj hs
    -- the parent has `ping`, so all pings so far have been answered
    have hping : ping + (i + 1) = 1 + j := h.ping_eq
    have hpong : pong + (j + child.tookPong) = i := h.pong_eq
    have hcalled : child.called ≤ child.tookPong := by rcases child <;> decide
    obtain rfl : i = j := by omega
    have hnot : child.called = 0 := by omega
    have hcalls : calls = exchanged (i + 0) (i + child.called) := h.calls_eq
    exact
      { h with
        calls_eq := by
          show calls ++ [.ping (i + 1)] = exchanged (i + 1) (i + child.called)
          rw [hcalls, hnot]
          exact (exchanged_ping i).symm }
  case post =>
    obtain rfl := Option.some.inj hs
    have hbound : i + 1 ≤ c.rounds := h.parent_bound
    have hping : ping + (i + 1) = 1 + j := h.ping_eq
    have hpong : pong + (j + child.tookPong) = i := h.pong_eq
    -- the round ends with the post, so `i` and `pong` move together
    have hpong' : pong + 1 + (j + child.tookPong) = i + 1 := by omega
    have hcalls : calls = exchanged (i + 1) (j + child.called) := h.calls_eq
    rcases parentTest_cases c hbound with ⟨htest, hi⟩ | ⟨htest, hi⟩ <;> simp only [htest]
    · exact ⟨hi, h.child_bound, hping, hpong', hcalls⟩
    · exact ⟨hi, h.child_bound, hping, hpong', hcalls⟩
  case waitForPid =>
    simp only [PosixNamedSemPingpong.parentStep, Option.ite_none_right_eq_some,
      Option.some.injEq] at hs
    obtain ⟨-, rfl⟩ := hs
    exact { h with }
  case ret =>
    obtain rfl := Option.some.inj hs
    exact { h with }
  case returned => cases hs

/-- The child prints in its turn, and gives the turn to the parent. -/
theorem Inv.childStep (h : Inv c s) (hs : childStep c s = some s') : Inv c s' := by
  obtain ⟨ping, pong, parent, i, child, j, calls, parentBuffer, childBuffer, output⟩ := s
  rcases child with _ | _ | _ | _ | _ | _
  case wait =>
    simp only [PosixNamedSemPingpong.childStep, Option.bind_eq_bind, Option.bind_eq_some_iff,
      Semaphore.wait_eq_some_iff, Option.some.injEq] at hs
    obtain ⟨m, rfl, rfl⟩ := hs
    have hpong : m + 1 + (j + 0) = i := h.pong_eq
    exact { h with pong_eq := show m + (j + 1) = i by omega }
  case printf =>
    obtain rfl := Option.some.inj hs
    -- the child has `pong`, so exactly one ping has not been answered
    have hping : ping + (i + parent.tookPing) = 1 + j := h.ping_eq
    have hpong : pong + (j + 1) = i := h.pong_eq
    have hcalled : parent.called ≤ parent.tookPing := by rcases parent <;> decide
    obtain rfl : i = j + 1 := by omega
    have hnot : parent.called = 0 := by omega
    have hcalls : calls = exchanged (j + 1 + parent.called) (j + 0) := h.calls_eq
    exact
      { h with
        calls_eq := by
          show calls ++ [.pong (j + 1)] = exchanged (j + 1 + parent.called) (j + 1)
          rw [hcalls, hnot]
          exact (exchanged_pong j).symm }
  case fflush =>
    obtain rfl := Option.some.inj hs
    exact { h with }
  case post =>
    obtain rfl := Option.some.inj hs
    have hbound : j + 1 ≤ c.rounds := h.child_bound
    have hping : ping + (i + parent.tookPing) = 1 + j := h.ping_eq
    -- the post hands the turn back, so `j` and `ping` move together
    have hping' : ping + 1 + (i + parent.tookPing) = 1 + (j + 1) := by omega
    have hpong : pong + (j + 1) = i := h.pong_eq
    have hcalls : calls = exchanged (i + parent.called) (j + 1) := h.calls_eq
    rcases childTest_cases c hbound with ⟨htest, hj⟩ | ⟨htest, hj⟩ <;> simp only [htest]
    · exact ⟨h.parent_bound, hj, hping', hpong, hcalls⟩
    · exact ⟨h.parent_bound, hj, hping', hpong, hcalls⟩
  case exit =>
    obtain rfl := Option.some.inj hs
    exact { h with }
  case exited => cases hs

/-- The invariant holds along every run. -/
theorem inv_of_reachable (h : (system c).Reachable s) : Inv c s := by
  apply h.invariant (Inv.init c)
  intro s a s' hinv hs
  rcases a with _ | _
  · exact hinv.parentStep hs
  · exact hinv.childStep hs

/-! ## The order of the calls -/

/-- The ways in which the parent can have no step. -/
theorem blocked_of_parentStep_eq_none (h : parentStep c s = none) :
    (s.parent = .wait ∧ s.ping = 0) ∨ s.parent.Finished := by
  unfold parentStep at h
  rcases hpc : s.parent <;> simp only [hpc, reduceCtorEq] at h
  case wait =>
    rcases hping : s.ping with _ | m
    · exact .inl ⟨rfl, rfl⟩
    · simp [hping, Semaphore.wait] at h
  case waitForPid => exact .inr (.inl rfl)
  case returned => exact .inr (.inr (.inr rfl))

/-- The ways in which the child can have no step. -/
theorem blocked_of_childStep_eq_none (h : childStep c s = none) :
    (s.child = .wait ∧ s.pong = 0) ∨ s.child.Finished := by
  unfold childStep at h
  rcases hpc : s.child <;> simp only [hpc, reduceCtorEq] at h
  case wait =>
    rcases hpong : s.pong with _ | m
    · exact .inl ⟨rfl, rfl⟩
    · simp [hpong, Semaphore.wait] at h
  case exited => exact .inr (.inr rfl)

/-- A parent that is past its loop has made all rounds, and waits for no turn. -/
theorem Inv.of_parent_finished (h : Inv c s) (hp : s.parent.Finished) :
    s.i = c.rounds ∧ s.ping + s.i = 1 + s.j := by
  have hbound := h.parent_bound
  have hping := h.ping_eq
  rcases hp with hp | hp | hp <;> rw [hp] at hbound hping <;> exact ⟨hbound, hping⟩

/-- A child that is past its loop has made all rounds. -/
theorem Inv.of_child_finished (h : Inv c s) (hc : s.child.Finished) :
    s.j = c.rounds ∧ s.pong + s.j = s.i := by
  have hbound := h.child_bound
  have hpong := h.pong_eq
  rcases hc with hc | hc <;> rw [hc] at hbound hpong <;> exact ⟨hbound, hpong⟩

/-- It is always the turn of one of the two. -/
theorem Inv.not_deadlocked (h : Inv c s) : ¬Deadlocked c s := by
  rintro ⟨hrunning, hstuck⟩
  apply hrunning
  rcases blocked_of_parentStep_eq_none (hstuck .parent) with ⟨hp, hping⟩ | hp <;>
    rcases blocked_of_childStep_eq_none (hstuck .child) with ⟨hc, hpong⟩ | hc
  · -- both semaphores would be 0, but then the turn of neither process
    have hping' := h.ping_eq
    have hpong' := h.pong_eq
    rw [hp] at hping'
    rw [hc] at hpong'
    simp only [ParentPc.tookPing, ChildPc.tookPong] at hping' hpong'
    omega
  · -- the child has answered all rounds, so the parent cannot wait in one of them
    have hi : s.i < c.rounds := by simpa only [ParentPc.Bound, hp] using h.parent_bound
    have hj := h.of_child_finished hc
    omega
  · -- the parent has posted `pong` for every round, and the child has not taken the last one
    have hj : s.j < c.rounds := by simpa only [ChildPc.Bound, hc] using h.child_bound
    have hi := h.of_parent_finished hp
    have hpong' := h.pong_eq
    rw [hc] at hpong'
    simp only [ChildPc.tookPong] at hpong'
    omega
  · exact ⟨hp, hc⟩

/-- The calls of `printf` alternate. -/
theorem Inv.calls_initial (h : Inv c s) : s.calls <+: rally c.rounds := by
  rw [h.calls_eq]
  apply exchanged_initial
  · have hbound := h.parent_bound
    rcases hp : s.parent <;> rw [hp] at hbound <;>
      simp only [ParentPc.Bound, ParentPc.called] at hbound ⊢ <;> omega
  · have hbound := h.child_bound
    rcases hc : s.child <;> rw [hc] at hbound <;>
      simp only [ChildPc.Bound, ChildPc.called] at hbound ⊢ <;> omega

/-- In every interleaving the calls of `printf` alternate and are in order, one of the processes
can go on until both loops are finished, and then the semaphores are back at their initial
values. -/
theorem pingpong_alternates (c : Config) (s : State) (h : (system c).Reachable s) :
    s.calls <+: rally c.rounds ∧ ¬Deadlocked c s ∧
      (s.parent.Finished → s.child.Finished → s.ping = 1 ∧ s.pong = 0) := by
  have hinv := inv_of_reachable h
  refine ⟨hinv.calls_initial, hinv.not_deadlocked, fun hp hc => ?_⟩
  have hparent := hinv.of_parent_finished hp
  have hchild := hinv.of_child_finished hc
  omega

end Inv

/-- Two rounds: the whole run, up to the end of both loops. -/
theorem pingpong_two_rounds :
    ∃ s, (system ⟨2, .line⟩).Reachable s ∧ s.calls = [.ping 1, .pong 1, .ping 2, .pong 2] ∧
      s.ping = 1 ∧ s.pong = 0 := by
  have hrun : ((system ⟨2, .line⟩).run (system ⟨2, .line⟩).init
      [.parent, .parent, .parent, .child, .child, .child, .child, .parent, .parent, .parent,
        .child, .child, .child, .child]).map (fun s => (s.parent, s.child, s.calls)) =
      some (.waitForPid, .exit, [.ping 1, .pong 1, .ping 2, .pong 2]) := by decide
  obtain ⟨s, hs, hend⟩ := Option.map_eq_some_iff.mp hrun
  simp only [Prod.mk.injEq] at hend
  have hreach := TransitionSystem.reachable_of_run hs
  exact ⟨s, hreach, hend.2.2,
    (pingpong_alternates ⟨2, .line⟩ s hreach).2.2 (.inl hend.1) (.inl hend.2.1)⟩

/-! ## The order of the output -/

/-- What has reached standard output is in order, and complete when `main` has returned. -/
def InOrder (c : Config) (s : State) : Prop :=
  s.output <+: rally c.rounds ∧ (s.parent = .returned → s.output = rally c.rounds)

/-- Every line goes to standard output with its call of `printf`. -/
structure Direct (s : State) : Prop where
  parentBuffer_eq : s.parentBuffer = []
  childBuffer_eq : s.childBuffer = []
  output_eq : s.output = s.calls
  /-- The parent returns after the child has exited. -/
  reaped : s.parent = .ret ∨ s.parent = .returned → s.child = .exited

section Output

variable {c : Config} {s s' : State}

theorem Direct.init (c : Config) : Direct (init c) where
  parentBuffer_eq := rfl
  childBuffer_eq := rfl
  output_eq := rfl
  reaped hend := by
    rcases parentTest_cases c (Nat.zero_le c.rounds) with ⟨hp, -⟩ | ⟨hp, -⟩ <;>
      simp [PosixNamedSemPingpong.init, hp] at hend

/-- A line buffered `printf` with an empty buffer writes its line and nothing else. -/
theorem printf_line (hc : c.buffering = .line) (l : Line) :
    Stdio.printf c.buffering [] l = ([l], []) := by
  rw [hc]
  rfl

/-- The line of the parent goes out with its call of `printf`. -/
theorem Direct.parentStep (h : Direct s) (hinv : Inv c s)
    (hc : c.buffering = .line ∨ c.rounds = 0) (hs : parentStep c s = some s') : Direct s' := by
  obtain ⟨ping, pong, parent, i, child, j, calls, parentBuffer, childBuffer, output⟩ := s
  obtain ⟨rfl, rfl, houtput, hreaped⟩ := h
  obtain rfl : output = calls := houtput
  rcases parent with _ | _ | _ | _ | _ | _
  case wait =>
    simp only [PosixNamedSemPingpong.parentStep, Option.bind_eq_bind, Option.bind_eq_some_iff,
      Option.some.injEq] at hs
    obtain ⟨m, -, rfl⟩ := hs
    exact ⟨rfl, rfl, rfl, nofun⟩
  case printf =>
    obtain rfl := Option.some.inj hs
    -- without rounds no call is reached
    have hi : i < c.rounds := hinv.parent_bound
    have hline : c.buffering = .line := hc.resolve_right (by omega)
    simp only [printf_line hline]
    exact ⟨rfl, rfl, rfl, nofun⟩
  case post =>
    obtain rfl := Option.some.inj hs
    refine ⟨rfl, rfl, rfl, fun hend => ?_⟩
    have hbound : i + 1 ≤ c.rounds := hinv.parent_bound
    rcases parentTest_cases c hbound with ⟨htest, -⟩ | ⟨htest, -⟩ <;> simp [htest] at hend
  case waitForPid =>
    simp only [PosixNamedSemPingpong.parentStep, Option.ite_none_right_eq_some,
      Option.some.injEq] at hs
    obtain ⟨hexited, rfl⟩ := hs
    exact ⟨rfl, rfl, rfl, fun _ => hexited⟩
  case ret =>
    obtain rfl := Option.some.inj hs
    exact ⟨rfl, rfl, List.append_nil _, fun _ => hreaped (.inl rfl)⟩
  case returned => cases hs

/-- The line of the child goes out with its call of `printf`. -/
theorem Direct.childStep (h : Direct s) (hinv : Inv c s)
    (hc : c.buffering = .line ∨ c.rounds = 0) (hs : childStep c s = some s') : Direct s' := by
  obtain ⟨ping, pong, parent, i, child, j, calls, parentBuffer, childBuffer, output⟩ := s
  obtain ⟨rfl, rfl, houtput, hreaped⟩ := h
  obtain rfl : output = calls := houtput
  -- the parent returns only after `wait_for_pid`
  have hrunning : child ≠ .exited → ¬(parent = .ret ∨ parent = .returned) :=
    fun hne hend => hne (hreaped hend)
  rcases child with _ | _ | _ | _ | _ | _
  case wait =>
    simp only [PosixNamedSemPingpong.childStep, Option.bind_eq_bind, Option.bind_eq_some_iff,
      Option.some.injEq] at hs
    obtain ⟨m, -, rfl⟩ := hs
    exact ⟨rfl, rfl, rfl, fun hend => absurd hend (hrunning nofun)⟩
  case printf =>
    obtain rfl := Option.some.inj hs
    have hj : j < c.rounds := hinv.child_bound
    have hline : c.buffering = .line := hc.resolve_right (by omega)
    simp only [printf_line hline]
    exact ⟨rfl, rfl, rfl, fun hend => absurd hend (hrunning nofun)⟩
  case fflush =>
    obtain rfl := Option.some.inj hs
    exact ⟨rfl, rfl, List.append_nil _, fun hend => absurd hend (hrunning nofun)⟩
  case post =>
    obtain rfl := Option.some.inj hs
    exact ⟨rfl, rfl, rfl, fun hend => absurd hend (hrunning nofun)⟩
  case exit =>
    obtain rfl := Option.some.inj hs
    exact ⟨rfl, rfl, rfl, fun _ => rfl⟩
  case exited => cases hs

/-- Line buffering, or no rounds at all, takes the buffers out of the program. -/
theorem direct_of_reachable (hc : c.buffering = .line ∨ c.rounds = 0)
    (h : (system c).Reachable s) : Inv c s ∧ Direct s := by
  apply h.invariant (P := fun s => Inv c s ∧ Direct s) ⟨Inv.init c, Direct.init c⟩
  rintro s a s' ⟨hinv, hdirect⟩ hs
  rcases a with _ | _
  · exact ⟨hinv.parentStep hs, hdirect.parentStep hinv hc hs⟩
  · exact ⟨hinv.childStep hs, hdirect.childStep hinv hc hs⟩

/-- What goes out with its call is in the order of the calls. -/
theorem Direct.inOrder (h : Direct s) (hinv : Inv c s) : InOrder c s := by
  refine ⟨?_, fun hend => ?_⟩
  · rw [h.output_eq]
    exact hinv.calls_initial
  · have hexited := h.reaped (.inr hend)
    have hi := (hinv.of_parent_finished (.inr (.inr hend))).1
    have hj := (hinv.of_child_finished (.inr hexited)).1
    rw [h.output_eq, hinv.calls_eq, hend, hexited, hi, hj]
    exact exchanged_self c.rounds

/-- In full buffering the first ping is still in the parent's buffer when the first pong is written
out. -/
theorem exists_pong_first (hfull : c.buffering = .full) (hrounds : 1 ≤ c.rounds) :
    ∃ s, (system c).Reachable s ∧ s.output = [.pong 1] := by
  have hparent : parentTest c 0 = .wait := if_pos hrounds
  have hchild : childTest c 0 = .wait := if_pos hrounds
  have hrun : ∃ s, (system c).run (system c).init
      [.parent, .parent, .parent, .child, .child, .child] = some s ∧ s.output = [.pong 1] := by
    simp [TransitionSystem.run, system, init, parentStep, childStep, Semaphore.wait,
      Semaphore.post, Stdio.printf, hparent, hchild, hfull]
  obtain ⟨s, hs, houtput⟩ := hrun
  exact ⟨s, TransitionSystem.reachable_of_run hs, houtput⟩

/-- The lines are in order along all runs exactly when standard output is line buffered, or there
are no rounds and nothing is printed. -/
theorem output_in_order_iff (c : Config) :
    (∀ s, (system c).Reachable s → InOrder c s) ↔ c.buffering = .line ∨ c.rounds = 0 := by
  constructor
  · intro horder
    by_contra hnot
    rw [not_or] at hnot
    obtain ⟨hline, hrounds⟩ := hnot
    have hfull : c.buffering = .full := by
      rcases hmode : c.buffering with _ | _
      · exact absurd hmode hline
      · rfl
    obtain ⟨n, hn⟩ := Nat.exists_eq_succ_of_ne_zero hrounds
    obtain ⟨s, hs, houtput⟩ := exists_pong_first hfull (by omega)
    have hinitial := (horder s hs).1
    -- the sequence starts with a ping
    have hrally : rally 1 <+: rally c.rounds := rally_initial (by omega)
    rw [houtput] at hinitial
    obtain ⟨rest, hrest⟩ := hinitial
    obtain ⟨rest', hrest'⟩ := hrally
    rw [← hrest'] at hrest
    simp [rally] at hrest
  · intro hc s hs
    obtain ⟨hinv, hdirect⟩ := direct_of_reachable hc hs
    exact hdirect.inOrder hinv

/-- The three rounds of the source with standard output in a file: the first line is `pong 1`. -/
theorem pong_before_ping :
    ∃ s, (system ⟨3, .full⟩).Reachable s ∧ s.output = [.pong 1] ∧
      ¬s.output <+: rally 3 := by
  have hrun : ((system ⟨3, .full⟩).run (system ⟨3, .full⟩).init
      [.parent, .parent, .parent, .child, .child, .child]).map (fun s => s.output) =
      some [.pong 1] := by decide
  obtain ⟨s, hs, houtput⟩ := Option.map_eq_some_iff.mp hrun
  refine ⟨s, TransitionSystem.reachable_of_run hs, houtput, ?_⟩
  rw [houtput]
  decide

end Output

end PosixNamedSemPingpong
