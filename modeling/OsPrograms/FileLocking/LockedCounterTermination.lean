import OsPrograms.FileLocking.OfdLockCounter
import OsPrograms.Lib.Termination
import OsPrograms.SharedMemory.SharedCounters

/-!
# Termination of the counters guarded by a lock

The number of steps that the programs over `LockedCounter` take does not depend on who owns the
lock, only on nobody waiting for it for ever. With an owner for each child this follows from who
holds the lock; in `ofd_lock_counter` nobody ever waits.

## Main results

- `rank_step`: every step is one of the steps that the parent and the children have to take.
- `counters_end`: all runs of `mmap_file_lock_counter`, `process_shared_mutex` and
  `ofd_lock_counter` have the same number of steps and end with the counter printed.
-/

namespace LockedCounter

open TransitionSystem

/-- The steps that a child will still make. -/
def Child.rank (iterations : ℕ) (ch : Child) : ℕ :=
  match ch.pc with
  | .lock => 4 * (iterations - ch.j) + 1
  | .load => 4 * (iterations - ch.j)
  | .store => 4 * (iterations - ch.j) - 1
  | .unlock => 4 * (iterations - ch.j) - 2
  | .exit => 1
  | .exited => 0

section Rank

variable {children iterations increment : ℕ} {ω : Type} {s s' : State children ω}

/-- The steps that the parent and the children will still make. -/
def State.rank (iterations : ℕ) (s : State children ω) : ℕ :=
  children - s.forked + ∑ i, (s.child i).rank iterations + if s.printed = none then 1 else 0

/-- The loops stay in their bounds, and the parent prints last. -/
structure InBounds (iterations : ℕ) (s : State children ω) : Prop where
  child : ∀ i, (s.child i).Bound iterations
  forked_le : s.forked ≤ children
  printed : s.printed ≠ none → s.forked = children ∧ s.AllExited

/-- Four steps for each iteration that is left, and the exit. -/
theorem rank_loopTest {j : ℕ} (hj : j ≤ iterations) (loaded : ℕ) :
    Child.rank iterations { pc := loopTest iterations j, j := j, loaded := loaded } =
      4 * (iterations - j) + 1 := by
  unfold loopTest
  split
  next => rfl
  next hge =>
    have hzero : iterations - j = 0 := by omega
    rw [hzero]
    rfl

theorem InBounds.init : InBounds iterations (init iterations : State children ω) :=
  ⟨fun _ => loopTest_bound (Nat.zero_le _) 0, Nat.zero_le _, fun h => absurd rfl h⟩

/-- A `fork`, its iterations and its exit for each child, and the line that the parent prints. -/
theorem rank_init :
    (init iterations : State children ω).rank iterations = children * (4 * iterations + 2) + 1 := by
  simp only [State.rank, init, rank_loopTest (Nat.zero_le _), Finset.sum_const, Finset.card_univ,
    Fintype.card_fin, smul_eq_mul, Nat.mul_add, Nat.sub_zero, if_true]
  omega

/-- When the parent has printed, nothing is left to be done. -/
theorem InBounds.printed_iff (h : InBounds iterations s) :
    s.printed ≠ none ↔ s.rank iterations = 0 := by
  constructor
  · intro hprinted
    obtain ⟨hforked, hexited⟩ := h.printed hprinted
    have hzero : ∀ i, (s.child i).rank iterations = 0 := fun i => by simp [Child.rank, hexited i]
    simp [State.rank, hforked, hzero, hprinted]
  · intro hzero hnone
    simp [State.rank, hnone] at hzero

variable [DecidableEq ω] {owner : Fin children → ω} {i : Fin children} {a : Action children}

/-- What a step of a child does, without what it does to the counter and the lock. -/
theorem InBounds.childStep (h : InBounds iterations s)
    (hs : childStep iterations increment owner s i = some s') :
    ∃ ch : Child, s'.child = Function.update s.child i ch ∧ s'.forked = s.forked ∧
      s'.printed = s.printed ∧ ch.Bound iterations ∧
      ch.rank iterations + 1 = (s.child i).rank iterations := by
  have hbound := h.child i
  unfold Child.Bound at hbound
  obtain ⟨hpc, -, rfl⟩ | ⟨hpc, rfl⟩ | ⟨hpc, rfl⟩ | ⟨hpc, rfl⟩ | ⟨hpc, rfl⟩ := childStep_cases hs <;>
    simp only [hpc] at hbound
  · refine ⟨_, rfl, rfl, rfl, hbound, ?_⟩
    simp only [Child.rank, hpc]
  · refine ⟨_, rfl, rfl, rfl, hbound, ?_⟩
    simp only [Child.rank, hpc]
    omega
  · refine ⟨_, rfl, rfl, rfl, hbound, ?_⟩
    simp only [Child.rank, hpc]
    omega
  · refine ⟨_, rfl, rfl, rfl, loopTest_bound hbound _, ?_⟩
    rw [rank_loopTest hbound]
    simp only [Child.rank, hpc]
    omega
  · refine ⟨_, rfl, rfl, rfl, hbound, ?_⟩
    simp only [Child.rank, hpc]

/-- After the end of all children none of them moves. -/
theorem not_allExited_of_childStep (hs : childStep iterations increment owner s i = some s') :
    ¬s.AllExited := by
  intro hexited
  simp [childStep, hexited i] at hs

/-- Every step, granted locks included, is one of those that were counted. -/
theorem InBounds.step (h : InBounds iterations s)
    (hs : step iterations increment owner s a = some s') :
    InBounds iterations s' ∧ s'.rank iterations + 1 = s.rank iterations := by
  rcases a with _ | i | _ <;>
    simp only [LockedCounter.step, Option.ite_none_right_eq_some, Option.some.injEq] at hs
  · obtain ⟨hlt, rfl⟩ := hs
    refine ⟨⟨h.child, hlt, fun hprinted => ?_⟩, ?_⟩
    · have := (h.printed hprinted).1
      omega
    · simp only [State.rank]
      omega
  · obtain ⟨ch, hchild, hforked, hprinted, hbound, hrank⟩ := h.childStep hs.2
    have hrunning := not_allExited_of_childStep hs.2
    refine ⟨⟨?_, hforked ▸ h.forked_le, fun hp => ?_⟩, ?_⟩
    · rw [hchild]
      exact Function.forall_update_of_forall h.child hbound
    · rw [hprinted] at hp
      exact absurd (h.printed hp).2 hrunning
    · have hsum := Finset.sum_update_add (Child.rank iterations) s.child i ch
      simp only [State.rank, hchild, hforked, hprinted]
      omega
  · obtain ⟨⟨hforked, hexited, hnone⟩, rfl⟩ := hs
    refine ⟨⟨h.child, h.forked_le, fun _ => ⟨hforked, hexited⟩⟩, ?_⟩
    simp [State.rank, hnone]

/-- The bounds hold along every run. -/
theorem inBounds_of_reachable (h : (system iterations increment owner).Reachable s) :
    InBounds iterations s :=
  h.invariant InBounds.init fun _ _ _ hinv hs => (hinv.step hs).1

/-- A program that makes steps of `LockedCounter` from its initial state, and gets stuck nowhere
before the counter is printed, ends with it printed. -/
theorem endsAfter_of_steps {sys : TransitionSystem (State children ω) (Action children)}
    (hinit : sys.init = LockedCounter.init iterations)
    (hstep : ∀ s a s', sys.step s a = some s' →
      LockedCounter.step iterations increment owner s a = some s')
    (hstuck : ∀ s, sys.Reachable s → sys.Stuck s → s.printed ≠ none) :
    sys.EndsAfter (children * (4 * iterations + 2) + 1) fun s => s.printed ≠ none := by
  have hinv {s : State children ω} (h : sys.Reachable s) : InBounds iterations s := by
    have hreach : (system iterations increment owner).Reachable s := h.mono hinit hstep
    exact inBounds_of_reachable hreach
  refine endsAfter_of_rank (State.rank iterations) ?_ (fun s a s' h hs => ?_)
    (fun s h => (hinv h).printed_iff) hstuck
  · rw [hinit, rank_init]
  · exact ((hinv h).step (hstep s a s' hs)).2

end Rank

/-! ## The programs -/

section Programs

open SharedCounters OfdLockCounter

/-- A child of `ofd_lock_counter` that has not exited can go on. -/
theorem exists_childStep_of_ofd {children : ℕ} {s : State children OpenFileDescription}
    {i : Fin children} (iterations increment : ℕ) (hi : (s.child i).pc ≠ .exited) :
    childStep iterations increment description s i ≠ none := by
  cases hpc : (s.child i).pc with
  | exited => exact absurd hpc hi
  | lock => simp [childStep, hpc, RecordLock.acquire_of_subsingleton]
  | load | store | unlock | exit => simp [childStep, hpc]

/-- All runs of the three programs have `children * (4 * iterations + 2) + 1` steps, if they are not
cut short, and end when the parent has printed the counter. -/
theorem counters_end (children iterations : ℕ) :
    (mmapFileLockCounter children iterations).EndsAfter (children * (4 * iterations + 2) + 1)
        (fun s => s.printed ≠ none) ∧
      (processSharedMutex children iterations).EndsAfter (children * (4 * iterations + 2) + 1)
        (fun s => s.printed ≠ none) ∧
      (ofdLockCounter children iterations).EndsAfter (children * (4 * iterations + 2) + 1)
        fun s => s.printed ≠ none := by
  refine ⟨endsAfter_of_steps rfl (fun _ _ _ => id) fun s hs hstuck hnone => ?_,
    endsAfter_of_steps rfl (fun _ _ _ => step_of_mutexStep) fun s hs hstuck hnone => ?_,
    endsAfter_of_steps rfl (fun _ _ _ => id) fun s hs hstuck hnone => ?_⟩
  · obtain ⟨hheld, hvia⟩ := held_of_reachable hs
    have hforked := (inBounds_of_reachable hs).forked_le
    obtain ⟨a, ha, -⟩ := hheld.exists_step iterations 1 hforked hnone
    exact ha (hstuck a)
  · have hreach : (system iterations 2 id).Reachable s :=
      hs.mono rfl fun _ _ _ => step_of_mutexStep
    obtain ⟨hheld, hvia⟩ := held_of_reachable hreach
    have hforked := (inBounds_of_reachable hreach).forked_le
    obtain ⟨a, ha, hlock⟩ := hheld.exists_step iterations 2 hforked hnone
    have hnot := hstuck a
    rcases a with _ | i | _
    · exact ha hnot
    · -- no child locks the mutex a second time
      simp only [processSharedMutex, mutexStep, if_neg (hlock i rfl)] at hnot
      exact ha hnot
    · exact ha hnot
  · have hforked := (inBounds_of_reachable hs).forked_le
    -- an OFD lock never blocks: every child that has not exited can go on
    by_cases hall : s.forked < children
    · have hfork := hstuck .fork
      simp [ofdLockCounter, system, step, hall] at hfork
    · have hforked' : s.forked = children := by omega
      have hexited : s.AllExited := by
        intro i
        by_contra hi
        have hchild := hstuck (.child i)
        have hlt : i.val < s.forked := i.isLt.trans_eq hforked'.symm
        simp only [ofdLockCounter, system, step, if_pos hlt] at hchild
        exact exists_childStep_of_ofd iterations 1 hi hchild
      have hprint := hstuck .print
      simp [ofdLockCounter, system, step, hforked', hexited, hnone] at hprint

end Programs

end LockedCounter
