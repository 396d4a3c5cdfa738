import Mathlib.Tactic.SplitIfs
import OsPrograms.Lib.Termination
import OsPrograms.Semaphores.PosixNamedSemPingpong

/-!
# What `posix_named_sem_pingpong` leaves behind

The semaphores fix the order of the calls, so the output depends on the schedule as little as they
do. When standard output is a terminal the lines come in the order of the calls. When it is a file,
the child writes its lines out with `fflush`, and those of the parent stay in its buffer until
`main` returns: every run then prints all pongs before the first ping.

## Main results

- `Delayed`: where the lines are when standard output is fully buffered.
- `pingpong_outcome`: every run ends after `7 * rounds + 3` steps, with the same output.
-/

namespace PosixNamedSemPingpong

open TransitionSystem

/-- `ping 1`, ..., `ping n`. -/
def pings (n : ℕ) : List Line :=
  (List.range n).map fun k => .ping (k + 1)

/-- `pong 1`, ..., `pong n`. -/
def pongs (n : ℕ) : List Line :=
  (List.range n).map fun k => .pong (k + 1)

/-- The output of a whole run. -/
def outcome (c : Config) : List Line :=
  match c.buffering with
  | .line => rally c.rounds
  | .full => pongs c.rounds ++ pings c.rounds

theorem pings_succ (n : ℕ) : pings (n + 1) = pings n ++ [.ping (n + 1)] := by
  simp [pings, List.range_succ]

theorem pongs_succ (n : ℕ) : pongs (n + 1) = pongs n ++ [.pong (n + 1)] := by
  simp [pongs, List.range_succ]

/-! ## Steps -/

section Steps

variable {c : Config} {s s' : State} {a : Action}

/-- What the parent can do next. -/
theorem parentStep_cases (hs : parentStep c s = some s') :
    (s.parent = .wait ∧ ∃ ping, s' = { s with ping := ping, parent := .printf }) ∨
    (s.parent = .printf ∧ s' = { s with
      parent := .post
      calls := s.calls ++ [.ping (s.i + 1)]
      output := s.output ++ (Stdio.printf c.buffering s.parentBuffer (.ping (s.i + 1))).1
      parentBuffer := (Stdio.printf c.buffering s.parentBuffer (.ping (s.i + 1))).2 }) ∨
    (s.parent = .post ∧ s' = { s with
      pong := Semaphore.post s.pong
      i := s.i + 1
      parent := parentTest c (s.i + 1) }) ∨
    (s.parent = .waitForPid ∧ s.child = .exited ∧ s' = { s with parent := .ret }) ∨
    (s.parent = .ret ∧ s' = { s with
      parent := .returned, output := s.output ++ s.parentBuffer, parentBuffer := [] }) := by
  unfold parentStep at hs
  cases hpc : s.parent <;>
    simp only [hpc, Option.bind_eq_bind, Option.bind_eq_some_iff, Option.ite_none_right_eq_some,
      Option.some.injEq, reduceCtorEq] at hs
  case wait =>
    obtain ⟨ping, -, rfl⟩ := hs
    exact .inl ⟨rfl, ping, rfl⟩
  case printf => exact .inr (.inl ⟨rfl, hs.symm⟩)
  case post => exact .inr (.inr (.inl ⟨rfl, hs.symm⟩))
  case waitForPid => exact .inr (.inr (.inr (.inl ⟨rfl, hs.1, hs.2.symm⟩)))
  case ret => exact .inr (.inr (.inr (.inr ⟨rfl, hs.symm⟩)))

/-- What the child can do next. -/
theorem childStep_cases (hs : childStep c s = some s') :
    (s.child = .wait ∧ ∃ pong, s' = { s with pong := pong, child := .printf }) ∨
    (s.child = .printf ∧ s' = { s with
      child := .fflush
      calls := s.calls ++ [.pong (s.j + 1)]
      output := s.output ++ (Stdio.printf c.buffering s.childBuffer (.pong (s.j + 1))).1
      childBuffer := (Stdio.printf c.buffering s.childBuffer (.pong (s.j + 1))).2 }) ∨
    (s.child = .fflush ∧ s' = { s with
      child := .post, output := s.output ++ s.childBuffer, childBuffer := [] }) ∨
    (s.child = .post ∧ s' = { s with
      ping := Semaphore.post s.ping
      j := s.j + 1
      child := childTest c (s.j + 1) }) ∨
    (s.child = .exit ∧ s' = { s with child := .exited, childBuffer := [] }) := by
  unfold childStep at hs
  cases hpc : s.child <;>
    simp only [hpc, Option.bind_eq_bind, Option.bind_eq_some_iff, Option.some.injEq,
      reduceCtorEq] at hs
  case wait =>
    obtain ⟨pong, -, rfl⟩ := hs
    exact .inl ⟨rfl, pong, rfl⟩
  case printf => exact .inr (.inl ⟨rfl, hs.symm⟩)
  case fflush => exact .inr (.inr (.inl ⟨rfl, hs.symm⟩))
  case post => exact .inr (.inr (.inr (.inl ⟨rfl, hs.symm⟩)))
  case exit => exact .inr (.inr (.inr (.inr ⟨rfl, hs.symm⟩)))

/-- The test of its loop does not take the parent into the middle of a round, or to its end. -/
theorem parentTest_ne (c : Config) (i : ℕ) :
    parentTest c i ≠ .post ∧ ¬(parentTest c i = .ret ∨ parentTest c i = .returned) := by
  unfold parentTest
  split <;> simp

/-- The test of its loop does not take the child into the middle of a round. -/
theorem childTest_ne (c : Config) (j : ℕ) : childTest c j ≠ .fflush ∧ childTest c j ≠ .post := by
  unfold childTest
  split <;> simp

end Steps

/-! ## Full buffering -/

/-- Where the lines are when standard output is fully buffered. -/
structure Delayed (c : Config) (s : State) : Prop where
  parentBuffer_eq : s.parentBuffer =
    if s.parent = .returned then [] else pings (s.i + s.parent.called)
  childBuffer_eq : s.childBuffer = if s.child = .fflush then [.pong (s.j + 1)] else []
  output_eq : s.output = pongs (s.j + if s.child = .post then 1 else 0) ++
    if s.parent = .returned then pings c.rounds else []

section Full

variable {c : Config} {s s' : State} {a : Action}

/-- At the test of its loop the parent has not called `printf` in this round. -/
theorem called_parentTest (c : Config) (i : ℕ) : (parentTest c i).called = 0 := by
  unfold parentTest
  split <;> rfl

theorem Delayed.init (c : Config) : Delayed c (init c) := by
  have hparent := parentTest_ne c 0
  have hchild := childTest_ne c 0
  have hcalled := called_parentTest c 0
  refine ⟨?_, ?_, ?_⟩
  · simp [PosixNamedSemPingpong.init, hcalled, pings]
  · simp [PosixNamedSemPingpong.init, hchild.1]
  · have hnot : parentTest c 0 ≠ .returned := fun h => hparent.2 (.inr h)
    simp [PosixNamedSemPingpong.init, hchild.2, hnot, pongs]

/-- With full buffering a line stays in the buffer. -/
theorem printf_full (hfull : c.buffering = .full) (buffer : List Line) (l : Line) :
    Stdio.printf c.buffering buffer l = ([], buffer ++ [l]) := by
  rw [hfull]
  rfl

/-- The lines of the parent stay in its buffer until it returns. -/
theorem Delayed.parentStep (h : Delayed c s) (hinv : Inv c s) (hfull : c.buffering = .full)
    (hs : parentStep c s = some s') : Delayed c s' := by
  obtain ⟨hbuffer, hchild, houtput⟩ := h
  obtain ⟨hpc, _, rfl⟩ | ⟨hpc, rfl⟩ | ⟨hpc, rfl⟩ | ⟨hpc, -, rfl⟩ | ⟨hpc, rfl⟩ := parentStep_cases hs
  · exact ⟨by simp [hbuffer, hpc, ParentPc.called], hchild, by simp [houtput, hpc]⟩
  · refine ⟨?_, hchild, ?_⟩
    · simp [printf_full hfull, hbuffer, hpc, ParentPc.called, pings_succ]
    · simp [printf_full hfull, houtput, hpc]
  · have hnot : parentTest c (s.i + 1) ≠ .returned := fun h => (parentTest_ne c _).2 (.inr h)
    refine ⟨?_, hchild, by simp [houtput, hpc, hnot]⟩
    simp only [hbuffer, hpc, hnot, called_parentTest, reduceCtorEq, if_false]
    rfl
  · exact ⟨by simp [hbuffer, hpc, ParentPc.called], hchild, by simp [houtput, hpc]⟩
  · -- the return from `main` writes all pings out
    have hi : s.i = c.rounds := by
      have hbound := hinv.parent_bound
      rw [hpc] at hbound
      exact hbound
    exact ⟨by simp, hchild, by simp [houtput, hbuffer, hpc, ParentPc.called, hi]⟩

/-- The child writes each of its lines with `fflush`. -/
theorem Delayed.childStep (h : Delayed c s) (hfull : c.buffering = .full)
    (hrunning : s.parent ≠ .returned) (hs : childStep c s = some s') : Delayed c s' := by
  obtain ⟨hbuffer, hchild, houtput⟩ := h
  obtain ⟨hpc, _, rfl⟩ | ⟨hpc, rfl⟩ | ⟨hpc, rfl⟩ | ⟨hpc, rfl⟩ | ⟨hpc, rfl⟩ := childStep_cases hs
  · exact ⟨hbuffer, by simp [hchild, hpc], by simp [houtput, hpc]⟩
  · exact ⟨hbuffer, by simp [printf_full hfull, hchild, hpc],
      by simp [printf_full hfull, houtput, hpc]⟩
  · refine ⟨hbuffer, by simp, ?_⟩
    simp [houtput, hchild, hpc, hrunning, pongs_succ]
  · have hne := childTest_ne c (s.j + 1)
    exact ⟨hbuffer, by simp [hchild, hpc, hne], by simp [houtput, hpc, hne]⟩
  · exact ⟨hbuffer, by simp, by simp [houtput, hpc]⟩

end Full

/-! ## Termination -/

/-- The steps that the parent will still make in round `i`. -/
def ParentPc.rank (n i : ℕ) : ParentPc → ℕ
  | .wait => 3 * (n - i) + 2
  | .printf => 3 * (n - i) + 1
  | .post => 3 * (n - i)
  | .waitForPid => 2
  | .ret => 1
  | .returned => 0

/-- The steps that the child will still make in round `j`. -/
def ChildPc.rank (n j : ℕ) : ChildPc → ℕ
  | .wait => 4 * (n - j) + 1
  | .printf => 4 * (n - j)
  | .fflush => 4 * (n - j) - 1
  | .post => 4 * (n - j) - 2
  | .exit => 1
  | .exited => 0

def State.rank (c : Config) (s : State) : ℕ :=
  s.parent.rank c.rounds s.i + s.child.rank c.rounds s.j

section Termination

variable {c : Config} {s s' : State} {a : Action}

/-- Three steps of the parent for each round that is left, and two at the end. -/
theorem rank_parentTest {i : ℕ} (h : i ≤ c.rounds) :
    (parentTest c i).rank c.rounds i = 3 * (c.rounds - i) + 2 := by
  obtain ⟨htest, -⟩ | ⟨htest, hi⟩ := parentTest_cases c h
  · rw [htest]
    rfl
  · rw [htest, hi, Nat.sub_self]
    rfl

/-- Four steps of the child for each round that is left, and its exit. -/
theorem rank_childTest {j : ℕ} (h : j ≤ c.rounds) :
    (childTest c j).rank c.rounds j = 4 * (c.rounds - j) + 1 := by
  obtain ⟨htest, -⟩ | ⟨htest, hj⟩ := childTest_cases c h
  · rw [htest]
    rfl
  · rw [htest, hj, Nat.sub_self]
    rfl

/-- Every step of the parent is one of those that were counted. -/
theorem rank_parentStep (h : Inv c s) (hs : parentStep c s = some s') :
    s'.rank c + 1 = s.rank c := by
  have hbound := h.parent_bound
  obtain ⟨hpc, _, rfl⟩ | ⟨hpc, rfl⟩ | ⟨hpc, rfl⟩ | ⟨hpc, -, rfl⟩ | ⟨hpc, rfl⟩ :=
    parentStep_cases hs <;> rw [hpc] at hbound <;> simp only [ParentPc.Bound] at hbound
  · simp only [State.rank, hpc, ParentPc.rank]
    omega
  · simp only [State.rank, hpc, ParentPc.rank]
    omega
  · simp only [State.rank, rank_parentTest hbound]
    simp only [hpc, ParentPc.rank]
    omega
  · simp only [State.rank, hpc, ParentPc.rank]
    omega
  · simp only [State.rank, hpc, ParentPc.rank]
    omega

/-- Every step of the child is one of those that were counted. -/
theorem rank_childStep (h : Inv c s) (hs : childStep c s = some s') :
    s'.rank c + 1 = s.rank c := by
  have hbound := h.child_bound
  obtain ⟨hpc, _, rfl⟩ | ⟨hpc, rfl⟩ | ⟨hpc, rfl⟩ | ⟨hpc, rfl⟩ | ⟨hpc, rfl⟩ :=
    childStep_cases hs <;> rw [hpc] at hbound <;> simp only [ChildPc.Bound] at hbound
  · simp only [State.rank, hpc, ChildPc.rank]
    omega
  · simp only [State.rank, hpc, ChildPc.rank]
    omega
  · simp only [State.rank, hpc, ChildPc.rank]
    omega
  · simp only [State.rank, rank_childTest hbound]
    simp only [hpc, ChildPc.rank]
    omega
  · simp only [State.rank, hpc, ChildPc.rank]

/-- When neither process can go on, `main` has returned. -/
theorem returned_of_stuck (h : (system c).Reachable s) (hstuck : (system c).Stuck s) :
    s.parent = .returned := by
  have hinv := inv_of_reachable h
  obtain ⟨hparent, hchild⟩ : s.parent.Finished ∧ s.child.Finished := by
    by_contra hrunning
    exact hinv.not_deadlocked ⟨hrunning, hstuck⟩
  have hchildNone : childStep c s = none := hstuck .child
  have hparentNone : parentStep c s = none := hstuck .parent
  have hexited : s.child = .exited :=
    hchild.resolve_left fun hexit => by simp [childStep, hexit] at hchildNone
  obtain hwait | hret | hreturned := hparent
  · simp [parentStep, hwait, hexited] at hparentNone
  · simp [parentStep, hret] at hparentNone
  · exact hreturned

end Termination

end PosixNamedSemPingpong
