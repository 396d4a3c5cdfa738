import OsPrograms.FileLocking.LockedCounter

/-!
# The counter of `ofd_lock_counter`

`ofd_lock_counter` opens its file once, in the parent, and guards the counter with OFD locks. An
OFD lock belongs to the open file description, and a descriptor inherited across `fork` refers to
the description of the parent. So all children are one owner for the kernel, their requests never
conflict, and the lock excludes nobody.

* `ofd_correct`: the counter is right along the runs in which the children happen not to overlap,
  and it is right along all runs exactly when there are no two children that increment it.
* `exists_lost_update`: with two children there is a complete run that loses an update.
-/

namespace OfdLockCounter

open LockedCounter

/-- The open file descriptions of the program: the one that `open` created in the parent. -/
inductive OpenFileDescription
  | file
  deriving DecidableEq, Repr

instance : Subsingleton OpenFileDescription :=
  ⟨fun | .file, .file => rfl⟩

/-- The description that the `fd` of a child refers to. -/
def description {children : ℕ} (_ : Fin children) : OpenFileDescription :=
  .file

/-- `ofd_lock_counter` with `children` children of `iterations` iterations. -/
def ofdLockCounter (children iterations : ℕ) :
    TransitionSystem (State children OpenFileDescription) (Action children) :=
  LockedCounter.system iterations 1 description

variable {children iterations : ℕ} {s : State children OpenFileDescription}

/-! ## Runs without overlap -/

/-- A child alone, and children that never lock, cannot overlap. -/
theorem reachableVia_of_reachable (hfew : children ≤ 1 ∨ iterations = 0)
    (h : (ofdLockCounter children iterations).Reachable s) :
    (ofdLockCounter children iterations).ReachableVia LocksAlone s := by
  induction h with
  | init => exact .init
  | step _ _ hs ih =>
    refine .step ih ?_ hs
    intro i _ hpc k hk
    rcases hfew with hone | hzero
    · -- there is no other child than `i`, which is at its lock
      have hki : k = i := by
        apply Fin.ext
        omega
      subst hki
      simp [Child.InCritical, hpc] at hk
    · -- with no iterations a child goes from its loop test to its exit, never to its lock
      have hbound := (inv_of_reachableVia ih).bound i
      unfold Child.Bound at hbound
      simp only [hpc, hzero] at hbound
      omega

/-! ## A run with a lost update -/

/-- The child is not inside an iteration. -/
def Idle (iterations : ℕ) (ch : Child) : Prop :=
  (ch.pc = .exited ∨ ch.pc = loopTest iterations ch.j) ∧ ch.Bound iterations

/-- All children have been forked and none is inside an iteration. -/
structure Quiet (iterations : ℕ) (s : State children OpenFileDescription) : Prop where
  forked : s.forked = children
  idle : ∀ i, Idle iterations (s.child i)

/-- What is left to do for a child outside its iterations: the iterations and the exit. -/
def remaining (iterations : ℕ) (ch : Child) : ℕ :=
  iterations - ch.j + if ch.pc = .exited then 0 else 1

/-- One undisturbed iteration of child `i`. -/
theorem run_iteration (iterations : ℕ) (i : Fin children) (hforked : s.forked = children)
    (hpc : (s.child i).pc = .lock) :
    (ofdLockCounter children iterations).run s [.child i, .child i, .child i, .child i] =
      some { s with
        counter := s.counter + 1
        holder := none
        child := Function.update s.child i
          { pc := loopTest iterations ((s.child i).j + 1)
            j := (s.child i).j + 1
            loaded := s.counter } } := by
  have hi := i.isLt
  simp [TransitionSystem.run, ofdLockCounter, system, step, childStep, hforked, hpc, hi,
    RecordLock.acquire_of_subsingleton]

/-- The exit of child `i`. -/
theorem run_exit (iterations : ℕ) (i : Fin children) (hforked : s.forked = children)
    (hpc : (s.child i).pc = .exit) :
    (ofdLockCounter children iterations).run s [.child i] =
      some { s with child := Function.update s.child i { s.child i with pc := .exited } } := by
  have hi := i.isLt
  simp [TransitionSystem.run, ofdLockCounter, system, step, childStep, hforked, hpc, hi]

/-- Children that have all exited have gone through all their iterations. -/
theorem Quiet.sum_j (h : Quiet iterations s) (hexited : s.AllExited) :
    ∑ i, (s.child i).j = children * iterations := by
  have hj : ∀ i, (s.child i).j = iterations := by
    intro i
    have hbound := (h.idle i).2
    unfold Child.Bound at hbound
    simpa only [hexited i] using hbound
  simp [hj]

/-- A child with an iteration left can perform it undisturbed, and one without can exit. Either
leaves the child with less to do, and every iteration counts. -/
theorem Quiet.exists_run_child (h : Quiet iterations s) {i : Fin children}
    (hi : (s.child i).pc ≠ .exited) :
    ∃ as s' ch, (ofdLockCounter children iterations).run s as = some s' ∧
      Quiet iterations s' ∧ s'.child = Function.update s.child i ch ∧
      remaining iterations ch < remaining iterations (s.child i) ∧
      s'.counter + (s.child i).j = s.counter + ch.j := by
  obtain ⟨hpc, hbound⟩ := h.idle i
  replace hpc := hpc.resolve_left hi
  by_cases hlt : (s.child i).j < iterations
  · have hlock : (s.child i).pc = .lock := by rw [hpc, loopTest, if_pos hlt]
    have hne : loopTest iterations ((s.child i).j + 1) ≠ .exited := by
      unfold loopTest
      split_ifs <;> simp
    refine ⟨_, _, _, run_iteration iterations i h.forked hlock, ⟨h.forked, ?_⟩, rfl, ?_, ?_⟩
    · exact Function.forall_update_of_forall h.idle ⟨.inr rfl, loopTest_bound hlt _⟩
    · simp only [remaining, if_neg hi, if_neg hne]
      omega
    · simp only
      omega
  · have hexit : (s.child i).pc = .exit := by rw [hpc, loopTest, if_neg hlt]
    refine ⟨_, _, _, run_exit iterations i h.forked hexit, ⟨h.forked, ?_⟩, rfl, ?_, rfl⟩
    · unfold Child.Bound at hbound
      simp only [hexit] at hbound
      exact Function.forall_update_of_forall h.idle ⟨.inl rfl, hbound⟩
    · simp [remaining, hexit]

/-- When no child is inside an iteration, the children can finish one after the other, and the
counter grows by the iterations that are left. -/
theorem Quiet.exists_run (h : Quiet iterations s) :
    ∃ as s', (ofdLockCounter children iterations).run s as = some s' ∧ s'.AllExited ∧
      s'.counter + ∑ i, (s.child i).j = s.counter + children * iterations := by
  induction hn : ∑ i, remaining iterations (s.child i) using Nat.strong_induction_on
    generalizing s with
  -- by induction on the iterations and exits that are left, one child's move at a time
  | _ n ih =>
    by_cases hexited : s.AllExited
    · exact ⟨[], s, rfl, hexited, by rw [h.sum_j hexited]⟩
    · obtain ⟨i, hi⟩ := not_forall.mp hexited
      obtain ⟨as, s', ch, hrun, hquiet, hchild, hless, hcounter⟩ := h.exists_run_child hi
      have hwork := Finset.sum_update_add (remaining iterations) s.child i ch
      have hj := Finset.sum_update_add Child.j s.child i ch
      rw [← hchild] at hwork hj
      obtain ⟨bs, s'', hrun', hexited', hcounter'⟩ := ih _ (by omega) hquiet rfl
      refine ⟨as ++ bs, s'', ?_, hexited', by omega⟩
      rw [TransitionSystem.run_append hrun, hrun']

/-- The state in which all children have been forked and none has moved. -/
def allForked (children iterations : ℕ) : State children OpenFileDescription :=
  { init iterations with forked := children }

/-- The parent can fork all children before any of them moves. -/
theorem reachable_allForked (children iterations : ℕ) :
    (ofdLockCounter children iterations).Reachable (allForked children iterations) := by
  have hforks : ∀ n ≤ children, (ofdLockCounter children iterations).Reachable
      ({ init iterations with forked := n } : State children OpenFileDescription) := by
    intro n hn
    induction n with
    | zero => exact .init
    | succ n ih =>
      refine (ih (Nat.le_of_lt hn)).next (a := .fork) ?_
      simp [ofdLockCounter, system, step, Nat.lt_of_succ_le hn]
  exact hforks children le_rfl

/-- Two children that lock one after the other are both granted the lock. -/
theorem run_two_locks (iterations : ℕ) {i₀ i₁ : Fin children} (hne : i₀ ≠ i₁)
    (hforked : s.forked = children) (hpc₀ : (s.child i₀).pc = .lock)
    (hpc₁ : (s.child i₁).pc = .lock) :
    (ofdLockCounter children iterations).run s [.child i₀, .child i₁] =
      some { s with
        holder := some .file
        child := Function.update (Function.update s.child i₀ { s.child i₀ with pc := .load }) i₁
          { s.child i₁ with pc := .load } } := by
  have hi₀ := i₀.isLt
  have hi₁ := i₁.isLt
  simp [TransitionSystem.run, ofdLockCounter, system, step, childStep, hforked, hpc₀, hpc₁, hi₀,
    hi₁, hne.symm, RecordLock.acquire_of_subsingleton, description]

/-- Two children whose iterations overlap load the same value, and store the same value. -/
theorem run_overlap (iterations : ℕ) {i₀ i₁ : Fin children} (hne : i₀ ≠ i₁)
    (hforked : s.forked = children) (hpc₀ : (s.child i₀).pc = .lock)
    (hpc₁ : (s.child i₁).pc = .lock) :
    (ofdLockCounter children iterations).run s
        [.child i₀, .child i₁, .child i₀, .child i₁, .child i₀, .child i₁, .child i₀, .child i₁] =
      some { s with
        counter := s.counter + 1
        holder := none
        child := Function.update
          (Function.update s.child i₀
            { pc := loopTest iterations ((s.child i₀).j + 1)
              j := (s.child i₀).j + 1
              loaded := s.counter })
          i₁
          { pc := loopTest iterations ((s.child i₁).j + 1)
            j := (s.child i₁).j + 1
            loaded := s.counter } } := by
  have hi₀ := i₀.isLt
  have hi₁ := i₁.isLt
  simp only [TransitionSystem.run, ofdLockCounter, system, step, childStep, hforked, hpc₀, hpc₁,
    hi₀, hi₁, RecordLock.acquire_of_subsingleton, Function.update_self, ne_eq, hne, hne.symm,
    not_false_eq_true, Function.update_of_ne, Option.bind_eq_bind, Option.bind_some, ↓reduceIte]
  -- the last entry of each child is what remains of its updates
  congr 2
  funext k
  by_cases hk₁ : k = i₁
  · simp [hk₁]
  · by_cases hk₀ : k = i₀
    · simp [hk₀, hne]
    · simp [hk₀, hk₁]

/-- Two children that increment can be inside their critical sections at once. -/
theorem exists_overlap (hchildren : 2 ≤ children) (hiterations : 1 ≤ iterations) :
    ∃ s, (ofdLockCounter children iterations).Reachable s ∧ ¬s.MutualExclusion := by
  let i₀ : Fin children := ⟨0, by omega⟩
  let i₁ : Fin children := ⟨1, by omega⟩
  have hne : i₀ ≠ i₁ := by simp [i₀, i₁]
  have hlock : loopTest iterations 0 = .lock := if_pos hiterations
  have hlocks := run_two_locks iterations (s := allForked children iterations) hne rfl hlock hlock
  refine ⟨_, (reachable_allForked children iterations).run hlocks, fun hexcl => hne ?_⟩
  apply hexcl i₀ i₁
  · simp [Child.InCritical, hne]
  · simp [Child.InCritical]

/-- With two children that increment there is a run to the end that loses an update. -/
theorem exists_lost_update (hchildren : 2 ≤ children) (hiterations : 1 ≤ iterations) :
    ∃ s, (ofdLockCounter children iterations).Reachable s ∧ s.AllExited ∧
      s.counter + 1 = children * iterations := by
  let i₀ : Fin children := ⟨0, by omega⟩
  let i₁ : Fin children := ⟨1, by omega⟩
  have hne : i₀ ≠ i₁ := by simp [i₀, i₁]
  have hlock : loopTest iterations 0 = .lock := if_pos hiterations
  -- the first iterations of two children overlap; from there everything runs undisturbed
  have hoverlap := run_overlap iterations (s := allForked children iterations) hne rfl hlock hlock
  have hreach := (reachable_allForked children iterations).run hoverlap
  let ch : Child := { pc := loopTest iterations 1, j := 1, loaded := 0 }
  have hidle : Idle iterations ch := ⟨.inr rfl, loopTest_bound hiterations 0⟩
  have hidle₀ : ∀ i, Idle iterations ((allForked children iterations).child i) :=
    fun _ => ⟨.inr rfl, loopTest_bound (Nat.zero_le _) 0⟩
  have hquiet : Quiet iterations
      { allForked children iterations with
        counter := 1
        holder := none
        child := Function.update
          (Function.update (allForked children iterations).child i₀ ch) i₁ ch } :=
    ⟨rfl, Function.forall_update_of_forall (Function.forall_update_of_forall hidle₀ hidle) hidle⟩
  obtain ⟨as, s', hrun, hexited, hcounter⟩ := hquiet.exists_run
  -- the two children have counted two iterations, the counter only one
  have hj : ∑ i, (Function.update
      (Function.update (allForked children iterations).child i₀ ch) i₁ ch i).j = 2 := by
    have hsum₀ := Finset.sum_update_add Child.j (allForked children iterations).child i₀ ch
    have hsum₁ := Finset.sum_update_add Child.j
      (Function.update (allForked children iterations).child i₀ ch) i₁ ch
    have hzero : ∀ i, ((allForked children iterations).child i).j = 0 := fun _ => rfl
    simp only [hzero, Function.update_of_ne hne.symm, Finset.sum_const_zero, ch] at hsum₀ hsum₁
    simp only [ch]
    omega
  refine ⟨s', TransitionSystem.Reachable.run hreach hrun, hexited, ?_⟩
  simp only [hj] at hcounter
  omega

/-! ## When the program is correct -/

/-- In every run in which the children's critical sections happen not to overlap, at most one
child is in its critical section and the final counter is right. Over all interleavings, each of
the two holds exactly when there is at most one child or nothing to count. -/
theorem ofd_correct (children iterations : ℕ) :
    (∀ s, (ofdLockCounter children iterations).ReachableVia LocksAlone s →
        s.MutualExclusion ∧ (s.AllExited → s.counter = children * iterations)) ∧
      ((∀ s, (ofdLockCounter children iterations).Reachable s → s.MutualExclusion) ↔
        children ≤ 1 ∨ iterations = 0) ∧
      ((∀ s, (ofdLockCounter children iterations).Reachable s → s.AllExited →
          s.counter = children * iterations) ↔
        children ≤ 1 ∨ iterations = 0) := by
  have halone : ∀ s, (ofdLockCounter children iterations).ReachableVia LocksAlone s →
      s.MutualExclusion ∧ (s.AllExited → s.counter = children * iterations) := by
    intro s hs
    have hinv := inv_of_reachableVia hs
    refine ⟨hinv.exclusion, fun hexited => ?_⟩
    rw [hinv.counter_of_allExited hexited, one_mul]
  -- two children that have something to count can overlap, and lose an update by that
  refine ⟨halone, ⟨?_, ?_⟩, ⟨?_, ?_⟩⟩
  · intro hexcl
    by_contra hmany
    rw [not_or, not_le, ← ne_eq, ← Nat.one_le_iff_ne_zero] at hmany
    obtain ⟨s, hreach, hoverlap⟩ := exists_overlap hmany.1 hmany.2
    exact hoverlap (hexcl s hreach)
  · intro hfew s hs
    exact (halone s (reachableVia_of_reachable hfew hs)).1
  · intro hcount
    by_contra hmany
    rw [not_or, not_le, ← ne_eq, ← Nat.one_le_iff_ne_zero] at hmany
    obtain ⟨s, hreach, hexited, hlost⟩ := exists_lost_update hmany.1 hmany.2
    have hcounter := hcount s hreach hexited
    omega
  · intro hfew s hs
    exact (halone s (reachableVia_of_reachable hfew hs)).2

/-- Two children with one iteration each: both load 0 and both store 1. -/
theorem ofd_two_children_count_one :
    ∃ s, (ofdLockCounter 2 1).Reachable s ∧ s.AllExited ∧ s.counter ≠ 2 * 1 := by
  have hrun : ((ofdLockCounter 2 1).run (ofdLockCounter 2 1).init
      [.fork, .fork, .child 0, .child 1, .child 0, .child 1, .child 0, .child 1, .child 0,
        .child 1, .child 0, .child 1]).map (fun s => (s.counter, decide s.AllExited)) =
      some (1, true) := by decide
  obtain ⟨s, hs, hend⟩ := Option.map_eq_some_iff.mp hrun
  rw [Prod.mk.injEq, decide_eq_true_eq] at hend
  exact ⟨s, TransitionSystem.reachable_of_run hs, hend.2, by rw [hend.1]; decide⟩

end OfdLockCounter
