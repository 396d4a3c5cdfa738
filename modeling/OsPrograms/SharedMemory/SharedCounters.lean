import OsPrograms.FileLocking.LockedCounter

/-!
# The counters of `mmap_file_lock_counter` and `process_shared_mutex`

Both programs are `LockedCounter` with a lock that every child owns for itself. An `fcntl` lock
belongs to the process, and a mutex to the thread that has locked it. This is the difference to
`ofd_lock_counter`, whose children are one owner.

* `Held`: the lock is held by exactly the child that is between its lock and its unlock.
* `Held.locksAlone`: so a lock is granted only when no child is there, and the invariant of
  `LockedCounter` holds along all runs.
* `shared_counters_correct`: mutual exclusion, progress and the printed value of both programs.
-/

namespace SharedCounters

open LockedCounter

section Model

variable (children iterations : ℕ)

/-- `mmap_file_lock_counter`: the owner of an `fcntl` lock is the process. -/
def mmapFileLockCounter : TransitionSystem (State children (Fin children)) (Action children) :=
  system iterations 1 id

/-- One step of `process_shared_mutex`, which adds 2 to `balance`. Its mutex is of the default type,
so a child that locked it a second time would wait as well. -/
def mutexStep (s : State children (Fin children)) (a : Action children) :
    Option (State children (Fin children)) :=
  match a with
  | .child i =>
    if (s.child i).pc = .lock ∧ s.holder = some i then none else step iterations 2 id s (.child i)
  | .fork => step iterations 2 id s .fork
  | .print => step iterations 2 id s .print

/-- `process_shared_mutex`. -/
def processSharedMutex : TransitionSystem (State children (Fin children)) (Action children) where
  init := init iterations
  step := mutexStep children iterations

end Model

/-- The parent has not printed, and nobody can take a step. -/
def Deadlocked {children : ℕ}
    (sys : TransitionSystem (State children (Fin children)) (Action children))
    (s : State children (Fin children)) : Prop :=
  s.printed = none ∧ sys.Stuck s

/-- The lock is held by the child that is between its lock and its unlock. -/
def Held {children : ℕ} (s : State children (Fin children)) : Prop :=
  ∀ i, s.holder = some i ↔ (s.child i).InCritical

section Held

variable {children iterations increment : ℕ} {s s' : State children (Fin children)}
  {i : Fin children}

theorem Held.init : Held (init iterations : State children (Fin children)) := by
  intro i
  have hout := not_inCritical_loopTest iterations 0 0 0
  simpa [LockedCounter.init] using hout

/-- A child at its lock does not hold it. -/
theorem Held.holder_ne (h : Held s) (hpc : (s.child i).pc = .lock) : s.holder ≠ some i := by
  rw [ne_eq, h i]
  simp [Child.InCritical, hpc]

/-- Child `i` changes to `ch`, and the lock follows. -/
theorem Held.update {ch : Child} (h : Held s) (hchild : s'.child = Function.update s.child i ch)
    (hself : s'.holder = some i ↔ ch.InCritical)
    (hothers : ∀ k, k ≠ i → (s'.holder = some k ↔ s.holder = some k)) : Held s' := by
  unfold Held
  rw [hchild, Function.forall_update_iff s.child fun k ch => s'.holder = some k ↔ ch.InCritical]
  refine ⟨hself, fun k hk => ?_⟩
  rw [hothers k hk]
  exact h k

/-- The lock goes to the child that enters and is given up by the child that leaves. -/
theorem Held.childStep (h : Held s)
    (hs : LockedCounter.childStep iterations increment id s i = some s') :
    Held s' := by
  have hi := h i
  rcases childStep_cases hs with ⟨hpc, hfree, rfl⟩ | ⟨hpc, rfl⟩ | ⟨hpc, rfl⟩ | ⟨hpc, rfl⟩ |
    ⟨hpc, rfl⟩
  · -- the lock was free, because the child did not hold it itself
    have hnone : s.holder = none := hfree.resolve_right (h.holder_ne hpc)
    refine h.update rfl ?_ fun k hk => ?_
    · simp [Child.InCritical]
    · simp [hnone, Ne.symm hk]
  · refine h.update rfl ?_ fun _ _ => Iff.rfl
    rw [hi]
    simp [Child.InCritical, hpc]
  · refine h.update rfl ?_ fun _ _ => Iff.rfl
    rw [hi]
    simp [Child.InCritical, hpc]
  · -- the child gives up the lock that it holds, and nobody holds it then
    have hheld : s.holder = some i := hi.mpr (.inr (.inr hpc))
    have hout := not_inCritical_loopTest iterations ((s.child i).j + 1) ((s.child i).j + 1)
      (s.child i).loaded
    refine h.update rfl ?_ fun k hk => ?_
    · simp [hheld, hout]
    · simp [hheld, Ne.symm hk]
  · refine h.update rfl ?_ fun _ _ => Iff.rfl
    rw [hi]
    simp [Child.InCritical, hpc]

/-- The parent does not touch the lock. -/
theorem Held.step {a : Action children} (h : Held s)
    (hs : LockedCounter.step iterations increment id s a = some s') : Held s' := by
  rcases a with _ | i | _ <;>
    simp only [LockedCounter.step, Option.ite_none_right_eq_some, Option.some.injEq] at hs
  · obtain ⟨-, rfl⟩ := hs
    exact h
  · exact h.childStep hs.2
  · obtain ⟨-, rfl⟩ := hs
    exact h

/-- Every lock is granted while no child is between its lock and its unlock. -/
theorem Held.locksAlone {a : Action children} (h : Held s)
    (hs : LockedCounter.step iterations increment id s a = some s') : LocksAlone s a := by
  rintro i rfl hpc k hk
  simp only [LockedCounter.step, Option.ite_none_right_eq_some] at hs
  have hheld : s.holder = some k := (h k).mpr hk
  rcases childStep_cases hs.2 with ⟨-, hfree, -⟩ | ⟨hpc', -⟩ | ⟨hpc', -⟩ | ⟨hpc', -⟩ | ⟨hpc', -⟩
  · rcases hfree with hnone | hself
    · -- the lock was free, although child `k` is between its lock and its unlock
      rw [hheld] at hnone
      cases hnone
    · exact h.holder_ne hpc hself
  all_goals
    rw [hpc] at hpc'
    cases hpc'

/-- All runs are runs in which locks are granted alone. -/
theorem held_of_reachable
    (h : (system iterations increment (id : Fin children → Fin children)).Reachable s) :
    Held s ∧ (system iterations increment (id : Fin children → Fin children)).ReachableVia
      LocksAlone s := by
  apply h.invariant (P := fun s => Held s ∧
    (system iterations increment (id : Fin children → Fin children)).ReachableVia LocksAlone s)
  · exact ⟨Held.init, .init⟩
  · rintro s a s' ⟨hheld, hvia⟩ hs
    exact ⟨hheld.step hs, .step hvia (hheld.locksAlone hs) hs⟩

/-! ## Progress -/

/-- The children that can have no step are those that have exited and those that wait for the
lock. -/
theorem blocked_of_childStep_eq_none (h : childStep iterations increment id s i = none) :
    (s.child i).pc = .exited ∨ ((s.child i).pc = .lock ∧ s.holder ≠ none) := by
  unfold childStep at h
  rcases hpc : (s.child i).pc <;> simp only [hpc, reduceCtorEq] at h
  case lock =>
    refine .inr ⟨rfl, fun hnone => ?_⟩
    simp [hnone, RecordLock.acquire] at h
  case exited => exact .inl rfl

/-- As long as not all children have exited, one of them can take a step, and is not at a lock
that it holds. -/
theorem Held.exists_child_step (h : Held s) (iterations increment : ℕ)
    (hexited : ¬s.AllExited) :
    ∃ i, LockedCounter.childStep iterations increment id s i ≠ none ∧
      ¬((s.child i).pc = .lock ∧ s.holder = some i) := by
  obtain ⟨i, hi⟩ := not_forall.mp hexited
  have hnot : ∀ k, ¬((s.child k).pc = .lock ∧ s.holder = some k) :=
    fun k hk => h.holder_ne hk.1 hk.2
  by_cases hnone : s.holder = none
  · refine ⟨i, fun hblocked => ?_, hnot i⟩
    rcases blocked_of_childStep_eq_none hblocked with hpc | ⟨-, hheld⟩
    · exact hi hpc
    · exact hheld hnone
  · -- the child that holds the lock is on its way to its unlock
    obtain ⟨k, hk⟩ := Option.ne_none_iff_exists'.mp hnone
    have hcritical := (h k).mp hk
    refine ⟨k, fun hblocked => ?_, hnot k⟩
    rcases blocked_of_childStep_eq_none hblocked with hpc | ⟨hpc, -⟩ <;>
      simp [Child.InCritical, hpc] at hcritical

/-- Somebody can go on until the parent has printed. -/
theorem Held.exists_step (h : Held s) (iterations increment : ℕ) (hforked : s.forked ≤ children)
    (hprinted : s.printed = none) :
    ∃ a, LockedCounter.step iterations increment id s a ≠ none ∧
      ∀ i, a = .child i → ¬((s.child i).pc = .lock ∧ s.holder = some i) := by
  by_cases hall : s.forked < children
  · exact ⟨.fork, by simp [LockedCounter.step, hall], by simp⟩
  -- all children have been forked, so the parent waits for them
  have hforked' : s.forked = children := le_antisymm hforked (not_lt.mp hall)
  by_cases hexited : s.AllExited
  · exact ⟨.print, by simp [LockedCounter.step, hforked', hexited, hprinted], by simp⟩
  · obtain ⟨i, hstep, hnot⟩ := h.exists_child_step iterations increment hexited
    refine ⟨.child i, ?_, ?_⟩
    · simpa [LockedCounter.step, hforked', i.isLt] using hstep
    · rintro k hk
      obtain rfl := Action.child.inj hk
      exact hnot

end Held

/-! ## The printed value -/

section Printed

variable {children iterations increment : ℕ} {s s' : State children (Fin children)}

/-- The parent forks no more than `children` children, and prints what they have counted. -/
structure Printed (children iterations increment : ℕ) (s : State children (Fin children)) :
    Prop where
  forked_le : s.forked ≤ children
  printed_eq : ∀ v, s.printed = some v → v = increment * (children * iterations)

/-- The parent prints after all children have exited. -/
theorem Printed.step {a : Action children} (h : Printed children iterations increment s)
    (hinv : Inv iterations increment s)
    (hs : LockedCounter.step iterations increment id s a = some s') :
    Printed children iterations increment s' := by
  rcases a with _ | i | _ <;>
    simp only [LockedCounter.step, Option.ite_none_right_eq_some, Option.some.injEq] at hs
  · obtain ⟨hlt, rfl⟩ := hs
    exact ⟨hlt, h.printed_eq⟩
  · rcases childStep_cases hs.2 with ⟨-, -, rfl⟩ | ⟨-, rfl⟩ | ⟨-, rfl⟩ | ⟨-, rfl⟩ | ⟨-, rfl⟩ <;>
      exact ⟨h.forked_le, h.printed_eq⟩
  · obtain ⟨⟨-, hexited, -⟩, rfl⟩ := hs
    refine ⟨h.forked_le, fun v hv => ?_⟩
    rw [← Option.some.inj hv]
    exact hinv.counter_of_allExited hexited

/-- What is printed, along all runs in which locks are granted alone. -/
theorem printed_of_reachableVia
    (h : (system iterations increment (id : Fin children → Fin children)).ReachableVia
      LocksAlone s) : Printed children iterations increment s := by
  have hboth : Inv iterations increment s ∧ Printed children iterations increment s := by
    apply h.invariant
      (P := fun s => Inv iterations increment s ∧ Printed children iterations increment s)
    · exact ⟨Inv.init, Nat.zero_le _, nofun⟩
    · rintro s a s' ⟨hinv, hprinted⟩ halone hs
      exact ⟨hinv.step halone hs, hprinted.step hinv hs⟩
  exact hboth.2

/-- The steps of `process_shared_mutex` are steps of the counter over an `fcntl` lock. -/
theorem step_of_mutexStep {a : Action children} (hs : mutexStep children iterations s a = some s') :
    LockedCounter.step iterations 2 id s a = some s' := by
  rcases a with _ | i | _
  · exact hs
  · simp only [mutexStep] at hs
    split_ifs at hs
    exact hs
  · exact hs

end Printed

/-- In every interleaving of either program, at most one child is between its lock and its unlock,
somebody can go on until the parent has printed, and what it prints is the number of iterations of
all children, or twice that number. -/
theorem shared_counters_correct (children iterations : ℕ) :
    (∀ s, (mmapFileLockCounter children iterations).Reachable s →
        s.MutualExclusion ∧ ¬Deadlocked (mmapFileLockCounter children iterations) s ∧
        ∀ v, s.printed = some v → v = children * iterations) ∧
      ∀ s, (processSharedMutex children iterations).Reachable s →
        s.MutualExclusion ∧ ¬Deadlocked (processSharedMutex children iterations) s ∧
        ∀ v, s.printed = some v → v = 2 * children * iterations := by
  refine ⟨fun s hs => ?_, fun s hs => ?_⟩
  · obtain ⟨hheld, hvia⟩ := held_of_reachable hs
    have hprinted := printed_of_reachableVia hvia
    refine ⟨(inv_of_reachableVia hvia).exclusion, ?_, fun v hv => ?_⟩
    · rintro ⟨hnone, hstuck⟩
      obtain ⟨a, ha, -⟩ := hheld.exists_step iterations 1 hprinted.forked_le hnone
      exact ha (hstuck a)
    · rw [hprinted.printed_eq v hv, one_mul]
  · have hreach : (system iterations 2 id).Reachable s :=
      hs.mono rfl fun _ _ _ => step_of_mutexStep
    obtain ⟨hheld, hvia⟩ := held_of_reachable hreach
    have hprinted := printed_of_reachableVia hvia
    refine ⟨(inv_of_reachableVia hvia).exclusion, ?_, fun v hv => ?_⟩
    · rintro ⟨hnone, hstuck⟩
      obtain ⟨a, ha, hlock⟩ := hheld.exists_step iterations 2 hprinted.forked_le hnone
      apply ha
      have hnot := hstuck a
      -- the mutex makes no difference, because no child locks it twice
      rcases a with _ | i | _
      · exact hnot
      · simpa [processSharedMutex, mutexStep, hlock i rfl] using hnot
      · exact hnot
    · rw [hprinted.printed_eq v hv, mul_assoc]

/-- Two children that take turns with the lock, the first one before the second is forked, and the
parent that prints after their exits. -/
def twoChildren (i j : Fin 2) : List (Action 2) :=
  [.fork, .child i, .child i, .fork, .child i, .child i] ++ List.replicate 4 (.child j) ++
    List.replicate 5 (.child i) ++ List.replicate 5 (.child j) ++ [.print]

/-- A run that prints, for its reachable state and the printed value. -/
theorem exists_printed_of_run {sys : TransitionSystem (State 2 (Fin 2)) (Action 2)}
    (hrun : (sys.run sys.init (twoChildren 0 1)).map (fun s => s.printed.isSome) = some true) :
    ∃ s v, sys.Reachable s ∧ s.printed = some v := by
  obtain ⟨s, hs, hsome⟩ := Option.map_eq_some_iff.mp hrun
  obtain ⟨v, hv⟩ := Option.isSome_iff_exists.mp hsome
  exact ⟨s, v, TransitionSystem.reachable_of_run hs, hv⟩

/-- The parent of either program gets to print: 4 for two children with two iterations each, and 8
where each iteration adds 2. -/
theorem shared_counters_two_children :
    (∃ s, (mmapFileLockCounter 2 2).Reachable s ∧ s.printed = some 4) ∧
      ∃ s, (processSharedMutex 2 2).Reachable s ∧ s.printed = some 8 := by
  obtain ⟨hmmap, hmutex⟩ := shared_counters_correct 2 2
  constructor
  · obtain ⟨s, v, hs, hv⟩ := @exists_printed_of_run (mmapFileLockCounter 2 2) (by decide)
    exact ⟨s, hs, by rw [hv, (hmmap s hs).2.2 v hv]⟩
  · obtain ⟨s, v, hs, hv⟩ := @exists_printed_of_run (processSharedMutex 2 2) (by decide)
    exact ⟨s, hs, by rw [hv, (hmutex s hs).2.2 v hv]⟩

end SharedCounters
