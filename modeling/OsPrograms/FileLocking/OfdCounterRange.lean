import Mathlib.Data.Finsupp.Weight
import OsPrograms.FileLocking.OfdLockCounter

/-!
# What `ofd_lock_counter` can print

The lock of `ofd_lock_counter` excludes nobody, so updates are lost. How many? A child that has
loaded the counter may store it after all others have finished, and undo all that they have counted.
But each child loads again after its own stores, and so the last store of the run, if its child has
made one before, is of 2 at least.

## Main results

- `Loose.of_reachable`: the invariant of all runs.
- `exists_run_overwrite`: the step in which updates are lost.
- `ofd_printed_iff`: with two children or more, the values that can be printed are exactly those
  from 2 (or `iterations`, if that is less) to the right one. In `main`: from 2 to 1500.
-/

namespace OfdLockCounter

open LockedCounter

variable {children iterations : ℕ} {s s' : State children OpenFileDescription}
  {i : Fin children}

/-! ## The bounds -/

/-- What is left of the invariant of `LockedCounter` when the lock excludes nobody. -/
structure Loose (iterations : ℕ) (s : State children OpenFileDescription) : Prop where
  bound : ∀ i, (s.child i).Bound iterations
  counter_le : s.counter ≤ ∑ i, (s.child i).stores
  loaded_le : ∀ i, (s.child i).pc = .store → (s.child i).loaded ≤ ∑ k, (s.child k).stores
  /-- After a store the counter is never zero. -/
  counter_pos : ∀ i, 1 ≤ (s.child i).stores → 1 ≤ s.counter
  /-- A child loads no zero after its first store. -/
  loaded_pos : ∀ i, (s.child i).pc = .store → 1 ≤ (s.child i).j → 1 ≤ (s.child i).loaded
  /-- The last of the second and later stores leaves 2 at least. -/
  two_le : 1 ≤ children → (∀ i, 2 ≤ (s.child i).stores) → 2 ≤ s.counter
  printed : ∀ v, s.printed = some v → s.AllExited ∧ v = s.counter

/-- At the test of its loop a child has made `j` stores. -/
theorem stores_loopTest (iterations j loaded : ℕ) :
    Child.stores { pc := loopTest iterations j, j := j, loaded := loaded } = j := by
  have hne := (loopTest_ne iterations j).2.2
  simp [Child.stores, hne]

theorem Loose.init : Loose iterations (init iterations : State children OpenFileDescription) := by
  have hstores (i : Fin children) :
      ((LockedCounter.init iterations : State children OpenFileDescription).child i).stores = 0 :=
    stores_loopTest iterations 0 0
  refine ⟨fun i => loopTest_bound (Nat.zero_le _) 0, Nat.zero_le _, fun i hi => Nat.zero_le _,
    fun i hi => ?_, fun i hi => ?_, fun hpos hall => ?_, fun v hv => ?_⟩
  · rw [hstores i] at hi
    cases hi
  · exact absurd hi (loopTest_ne iterations 0).2.1
  · have hfirst := hall ⟨0, hpos⟩
    rw [hstores] at hfirst
    cases hfirst
  · cases hv

/-- A step of child `i` that leaves the counter and the number of its stores. -/
theorem Loose.update {ch : Child} (h : Loose iterations s)
    (hrunning : (s.child i).pc ≠ .exited)
    (hs' : s'.counter = s.counter ∧ s'.printed = s.printed ∧
      s'.child = Function.update s.child i ch)
    (hstores : ch.stores = (s.child i).stores) (hbound : ch.Bound iterations)
    (hloaded : ch.pc = .store → ch.loaded = s.counter)
    (hj : ch.j = (s.child i).j ∨ ch.pc ≠ .store) :
    Loose iterations s' := by
  obtain ⟨hcounter, hprinted, hchild⟩ := hs'
  have hsame : ∀ k, (s'.child k).stores = (s.child k).stores := by
    rw [hchild]
    exact (Function.forall_update_iff s.child fun k ch => ch.stores = (s.child k).stores).mpr
      ⟨hstores, fun _ _ => rfl⟩
  refine ⟨?_, ?_, ?_, fun k => ?_, ?_, fun hpos hall => ?_, fun v hv => ?_⟩
  · rw [hchild]
    exact Function.forall_update_of_forall h.bound hbound
  · simp only [hcounter, hsame]
    exact h.counter_le
  · simp only [hsame]
    rw [hchild]
    refine (Function.forall_update_iff s.child fun _ ch =>
      ch.pc = .store → ch.loaded ≤ ∑ k, (s.child k).stores).mpr
      ⟨fun hpc => ?_, fun k _ => h.loaded_le k⟩
    rw [hloaded hpc]
    exact h.counter_le
  · rw [hcounter, hsame]
    exact h.counter_pos k
  · rw [hchild]
    refine (Function.forall_update_iff s.child fun _ ch =>
      ch.pc = .store → 1 ≤ ch.j → 1 ≤ ch.loaded).mpr
      ⟨fun hpc hone => ?_, fun k _ => h.loaded_pos k⟩
    -- the child has stored before, in an earlier iteration
    rw [hloaded hpc]
    refine h.counter_pos i ?_
    rw [hj.resolve_right (not_not.mpr hpc)] at hone
    exact hone.trans (Nat.le_add_right _ _)
  · rw [hcounter]
    exact h.two_le hpos fun k => hsame k ▸ hall k
  · rw [hprinted] at hv
    exact absurd ((h.printed v hv).1 i) hrunning

/-- The store. -/
theorem Loose.store (h : Loose iterations s) (hpc : (s.child i).pc = .store) :
    Loose iterations { s with
      child := Function.update s.child i { s.child i with pc := .unlock }
      counter := (s.child i).loaded + 1 } := by
  let ch : Child := { s.child i with pc := .unlock }
  have hstores : (s.child i).stores = (s.child i).j := by simp [Child.stores, hpc]
  have hstores' : ch.stores = (s.child i).j + 1 := by simp [Child.stores, ch]
  -- the store counts, even if it overwrites others
  have hsum : ∑ k, (Function.update s.child i ch k).stores = ∑ k, (s.child k).stores + 1 := by
    have hupdate := Finset.sum_update_add Child.stores s.child i ch
    rw [hstores, hstores'] at hupdate
    omega
  refine ⟨?_, ?_, ?_, fun k _ => ?_, ?_, fun hpos hall => ?_, fun v hv => ?_⟩
  · refine Function.forall_update_of_forall h.bound ?_
    have hbound := h.bound i
    simpa only [Child.Bound, hpc] using hbound
  · have hle := h.loaded_le i hpc
    change (s.child i).loaded + 1 ≤ ∑ k, (Function.update s.child i ch k).stores
    omega
  · refine (Function.forall_update_iff s.child fun _ ch' => ch'.pc = .store →
      ch'.loaded ≤ ∑ k, (Function.update s.child i ch k).stores).mpr
        ⟨by simp, fun k _ hk => ?_⟩
    have hle := h.loaded_le k hk
    omega
  · exact Nat.le_add_left 1 _
  · exact (Function.forall_update_iff s.child fun _ ch => ch.pc = .store → 1 ≤ ch.j →
      1 ≤ ch.loaded).mpr ⟨by simp, fun k _ => h.loaded_pos k⟩
  · -- the child has stored before, so it has not loaded zero
    have hi : 2 ≤ ch.stores := by simpa [ch] using hall i
    have hone := h.loaded_pos i hpc (by omega)
    exact Nat.succ_le_succ hone
  · have hexited := (h.printed v hv).1 i
    rw [hpc] at hexited
    cases hexited

/-- The lock excludes nobody, so a store may take the counter back, but not below what the invariant
allows. -/
theorem Loose.childStep (h : Loose iterations s)
    (hs : childStep iterations 1 description s i = some s') : Loose iterations s' := by
  have hbound := h.bound i
  unfold Child.Bound at hbound
  obtain ⟨hpc, -, rfl⟩ | ⟨hpc, rfl⟩ | ⟨hpc, rfl⟩ | ⟨hpc, rfl⟩ | ⟨hpc, rfl⟩ := childStep_cases hs <;>
    simp only [hpc] at hbound
  · exact h.update (by simp [hpc]) ⟨rfl, rfl, rfl⟩ (by simp [Child.stores, hpc]) hbound (by simp)
      (.inl rfl)
  · exact h.update (by simp [hpc]) ⟨rfl, rfl, rfl⟩ (by simp [Child.stores, hpc]) hbound
      (fun _ => rfl) (.inl rfl)
  · exact h.store hpc
  · have hne := loopTest_ne iterations ((s.child i).j + 1)
    refine h.update (by simp [hpc]) ⟨rfl, rfl, rfl⟩ ?_ (loopTest_bound hbound _)
      (fun hstore => absurd hstore hne.2.1) (.inr hne.2.1)
    rw [stores_loopTest]
    simp [Child.stores, hpc]
  · exact h.update (by simp [hpc]) ⟨rfl, rfl, rfl⟩ (by simp [Child.stores, hpc]) hbound (by simp)
      (.inl rfl)

/-- The invariant holds along every run, lost updates included. -/
theorem Loose.of_reachable (h : (ofdLockCounter children iterations).Reachable s) :
    Loose iterations s := by
  refine h.invariant Loose.init fun s a s' hinv hs => ?_
  rcases a with _ | i | _ <;>
    simp only [ofdLockCounter, system, step, Option.ite_none_right_eq_some,
      Option.some.injEq] at hs
  · obtain ⟨-, rfl⟩ := hs
    exact { hinv with }
  · exact hinv.childStep hs.2
  · obtain ⟨⟨-, hexited, -⟩, rfl⟩ := hs
    exact { hinv with printed := fun v hv => ⟨hexited, (Option.some.inj hv).symm⟩ }

/-- What is printed lies between the bounds. -/
theorem Loose.printed_bounds {v : ℕ} (h : Loose iterations s) (hchildren : 1 ≤ children)
    (hv : s.printed = some v) : min 2 iterations ≤ v ∧ v ≤ children * iterations := by
  obtain ⟨hexited, rfl⟩ := h.printed v hv
  have hstores : ∀ i, (s.child i).stores = iterations := by
    intro i
    have hbound := h.bound i
    unfold Child.Bound at hbound
    simp only [hexited i] at hbound
    simp [Child.stores, hexited i, hbound]
  have hle := h.counter_le
  simp only [hstores, Finset.sum_const, Finset.card_univ, Fintype.card_fin, smul_eq_mul] at hle
  refine ⟨?_, hle⟩
  have hpos := h.counter_pos ⟨0, hchildren⟩
  have htwo := h.two_le hchildren
  simp only [hstores] at hpos htwo
  obtain hzero | hone | hmany : iterations = 0 ∨ iterations = 1 ∨ 2 ≤ iterations := by omega
  · omega
  · have := hpos hone.ge
    omega
  · have := htwo fun _ => hmany
    omega

/-! ## Lost updates -/

/-- The child is at the test of its loop. -/
def AtTest (iterations : ℕ) (ch : Child) : Prop :=
  ch.pc = loopTest iterations ch.j ∧ ch.j ≤ iterations

/-- A child at the test of its loop is not between a load and a store. -/
theorem AtTest.idle {ch : Child} (h : AtTest iterations ch) : Idle iterations ch := by
  refine ⟨.inr h.1, ?_⟩
  have hbound := loopTest_bound h.2 ch.loaded
  rw [← h.1] at hbound
  exact hbound

/-- Children at the tests of their loops can go on one by one, each to the iteration `target` says;
each of these iterations counts. The others need not move. -/
theorem exists_run_to (iterations : ℕ) (target : Fin children → ℕ) (hforked : s.forked = children)
    (htarget : ∀ i, target i = (s.child i).j ∨
      AtTest iterations (s.child i) ∧ (s.child i).j ≤ target i ∧ target i ≤ iterations) :
    ∃ as s', (ofdLockCounter children iterations).run s as = some s' ∧ s'.forked = children ∧
      s'.counter + ∑ i, (s.child i).j = s.counter + ∑ i, target i ∧
      ∀ i, (s'.child i).j = target i ∧
        (AtTest iterations (s.child i) → AtTest iterations (s'.child i)) ∧
        (target i = (s.child i).j → s'.child i = s.child i) := by
  -- by induction on the number of iterations to go
  induction hn : ∑ i, (target i - (s.child i).j) using Nat.strong_induction_on generalizing s with
  | _ n ih =>
    by_cases hdone : ∀ i, target i = (s.child i).j
    · refine ⟨[], s, rfl, hforked, ?_, fun i => ⟨(hdone i).symm, id, fun _ => rfl⟩⟩
      simp only [hdone]
    · obtain ⟨i, hi⟩ := not_forall.mp hdone
      obtain ⟨htest, hle, hle'⟩ := (htarget i).resolve_left hi
      have hlt : (s.child i).j < iterations := by omega
      have hlock : (s.child i).pc = .lock := by rw [htest.1, loopTest, if_pos hlt]
      have hrun := run_iteration iterations i hforked hlock
      let ch : Child := ⟨loopTest iterations ((s.child i).j + 1), (s.child i).j + 1, s.counter⟩
      have hch : AtTest iterations ch := ⟨rfl, hlt⟩
      have hsum := Finset.sum_update_add Child.j s.child i ch
      have hrest : ∑ k, (target k - (Function.update s.child i ch k).j) < n := by
        rw [← hn]
        refine Finset.sum_lt_sum (fun k _ => ?_) ⟨i, Finset.mem_univ i, ?_⟩
        · rw [Function.update_apply]
          split
          next hk => rw [hk]; exact Nat.sub_le_sub_left (Nat.le_succ _) _
          next => exact le_rfl
        · rw [Function.update_self]
          simp only [ch]
          omega
      obtain ⟨as, s', hrun', hforked', hcounter, hchild⟩ := ih _ hrest
        (s := { s with
          counter := s.counter + 1, holder := none, child := Function.update s.child i ch })
        hforked (fun k => by
          simp only [Function.update_apply]
          split
          next hk => rw [hk]; exact .inr ⟨hch, by simp only [ch]; omega, hle'⟩
          next => exact htarget k) rfl
      refine ⟨_, s', (TransitionSystem.run_append hrun).trans hrun', hforked', ?_, fun k => ?_⟩
      · simp only [ch] at hcounter hsum
        omega
      · obtain ⟨hj, htest', hsame⟩ := hchild k
        simp only [Function.update_apply] at htest' hsame
        split at htest'
        next hk =>
          exact ⟨hj, fun _ => htest' hch, fun hk' => absurd (hk ▸ hk') hi⟩
        next hk =>
          rw [if_neg hk] at hsame
          exact ⟨hj, htest', hsame⟩

/-- A child goes from its lock to its store. -/
theorem run_load (iterations : ℕ) (i : Fin children) (hforked : s.forked = children)
    (hpc : (s.child i).pc = .lock) :
    (ofdLockCounter children iterations).run s [.child i, .child i] =
      some { s with
        holder := some .file
        child := Function.update s.child i
          { pc := .store, j := (s.child i).j, loaded := s.counter } } := by
  have hi := i.isLt
  simp [TransitionSystem.run, ofdLockCounter, system, step, childStep, hforked, hpc, hi,
    RecordLock.acquire_of_subsingleton, description]

/-- A child goes from its store to the test of its loop. -/
theorem run_store (iterations : ℕ) (i : Fin children) (hforked : s.forked = children)
    (hpc : (s.child i).pc = .store) :
    (ofdLockCounter children iterations).run s [.child i, .child i] =
      some { s with
        counter := (s.child i).loaded + 1
        holder := RecordLock.release s.holder .file
        child := Function.update s.child i
          { pc := loopTest iterations ((s.child i).j + 1)
            j := (s.child i).j + 1
            loaded := (s.child i).loaded } } := by
  have hi := i.isLt
  simp [TransitionSystem.run, ofdLockCounter, system, step, childStep, hforked, hpc, hi,
    description]

/-- While child `i` is between its load and its store, the others may go on. All that they count is
lost when it stores. -/
theorem exists_run_overwrite (i : Fin children) (target : Fin children → ℕ)
    (hforked : s.forked = children) (htest : ∀ k, AtTest iterations (s.child k))
    (hi : (s.child i).j < iterations) (htarget : target i = (s.child i).j)
    (hothers : ∀ k, k ≠ i → (s.child k).j ≤ target k ∧ target k ≤ iterations) :
    ∃ as s', (ofdLockCounter children iterations).run s as = some s' ∧ s'.forked = children ∧
      s'.counter = s.counter + 1 ∧
      ∀ k, AtTest iterations (s'.child k) ∧
        (s'.child k).j = Function.update target i ((s.child i).j + 1) k := by
  have hlock : (s.child i).pc = .lock := by rw [(htest i).1, loopTest, if_pos hi]
  -- `i` loads, the others go on to their targets, and `i` stores
  have hload := run_load iterations i hforked hlock
  let loaded : Child := { pc := .store, j := (s.child i).j, loaded := s.counter }
  obtain ⟨as, t, hrun, hforked', -, hchild⟩ := exists_run_to iterations
    (s := { s with holder := some .file, child := Function.update s.child i loaded }) target hforked
    fun k => by
      simp only [Function.update_apply]
      split
      next hk => exact .inl (hk ▸ htarget)
      next hk => exact .inr ⟨htest k, hothers k hk⟩
  have hti : t.child i = loaded := by
    have hsame := (hchild i).2.2
    simp only [Function.update_self] at hsame
    exact hsame htarget
  have hstore := run_store (s := t) iterations i hforked' (by rw [hti])
  refine ⟨_, _, ((TransitionSystem.run_append hload).trans
    ((TransitionSystem.run_append hrun).trans hstore)), hforked', ?_, fun k => ?_⟩
  · simp only [hti, loaded]
  · simp only [hti, loaded, Function.update_apply]
    split
    next => exact ⟨⟨rfl, hi⟩, rfl⟩
    next hk =>
      obtain ⟨hj, htest', -⟩ := hchild k
      simp only [Function.update_of_ne hk] at htest'
      exact ⟨htest' (htest k), hj⟩

/-- After the last `fork` there is no other. -/
theorem forked_of_run {as : List (Action children)} (hforked : s.forked = children)
    (hrun : (ofdLockCounter children iterations).run s as = some s') : s'.forked = children := by
  induction as generalizing s with
  | nil =>
    obtain rfl := Option.some.inj hrun
    exact hforked
  | cons a as ih =>
    obtain ⟨t, hstep, hrun⟩ := TransitionSystem.exists_of_run_cons hrun
    refine ih ?_ hrun
    rcases a with _ | i | _ <;>
      simp only [ofdLockCounter, system, step, Option.ite_none_right_eq_some,
        Option.some.injEq] at hstep
    · omega
    · obtain ⟨-, -, rfl⟩ | ⟨-, rfl⟩ | ⟨-, rfl⟩ | ⟨-, rfl⟩ | ⟨-, rfl⟩ := childStep_cases hstep.2 <;>
        exact hforked
    · obtain ⟨-, rfl⟩ := hstep
      exact hforked

/-- From the tests of their loops the children can finish one after the other, and the parent prints
what has been counted and what was still to be counted. -/
theorem exists_printed_of_atTest {v : ℕ}
    (h : (ofdLockCounter children iterations).Reachable s) (hforked : s.forked = children)
    (htest : ∀ i, AtTest iterations (s.child i))
    (hv : v + ∑ i, (s.child i).j = s.counter + children * iterations) :
    ∃ s', (ofdLockCounter children iterations).Reachable s' ∧ s'.printed = some v := by
  have hquiet : Quiet iterations s := ⟨hforked, fun i => (htest i).idle⟩
  obtain ⟨as, s', hrun, hexited, hcounter⟩ := hquiet.exists_run
  have hreach := h.run hrun
  obtain rfl : v = s'.counter := by omega
  cases hprinted : s'.printed with
  | some v' =>
    have hv' := ((Loose.of_reachable hreach).printed v' hprinted).2
    exact ⟨s', hreach, by rw [hprinted, hv']⟩
  | none =>
    have hforked' := forked_of_run hforked hrun
    have hprint : (ofdLockCounter children iterations).step s' .print =
        some { s' with printed := some s'.counter } := if_pos ⟨hforked', hexited, hprinted⟩
    exact ⟨_, hreach.next hprint, rfl⟩

theorem atTest_allForked (children iterations : ℕ) (i : Fin children) :
    AtTest iterations ((allForked children iterations).child i) :=
  ⟨rfl, Nat.zero_le _⟩

/-- Numbers within bounds have any sum up to that of the bounds. -/
theorem exists_le_sum_eq {ι : Type*} [Fintype ι] (f : ι → ℕ) {n : ℕ} (hn : n ≤ ∑ i, f i) :
    ∃ g : ι → ℕ, (∀ i, g i ≤ f i) ∧ ∑ i, g i = n := by
  obtain ⟨g, hle, hsum⟩ := Finsupp.exists_le_degree_eq (Finsupp.equivFunOnFinite.symm f) n
    (by rwa [Finsupp.degree_eq_sum])
  exact ⟨g, hle, by rwa [Finsupp.degree_eq_sum] at hsum⟩

/-- One child loads before any other moves, and stores after the others have made the iterations
that are to be lost. -/
theorem exists_printed_of_le {v : ℕ} (hiterations : 1 ≤ iterations) (hle : iterations ≤ v)
    (hv : v ≤ children * iterations) :
    ∃ s, (ofdLockCounter children iterations).Reachable s ∧ s.printed = some v := by
  have hpos : 0 < children := by
    by_contra hzero
    obtain rfl : children = 0 := by omega
    omega
  let first : Fin children := ⟨0, hpos⟩
  have hsum := Finset.sum_update_add id (fun _ : Fin children => iterations) first 0
  simp only [id, Finset.sum_const, Finset.card_univ, Fintype.card_fin, smul_eq_mul] at hsum
  -- the iterations that are to be lost, distributed over the other children
  obtain ⟨target, htarget, hlost⟩ := exists_le_sum_eq
    (Function.update (fun _ : Fin children => iterations) first 0)
    (show children * iterations - v ≤ _ by omega)
  have hfirst : target first = 0 := by simpa using htarget first
  obtain ⟨as, s, hrun, hforked, hcounter, hchild⟩ :=
    exists_run_overwrite (s := allForked children iterations) first target rfl
      (atTest_allForked children iterations) hiterations hfirst fun k hk => by
        have hk' := htarget k
        rw [Function.update_of_ne hk] at hk'
        exact ⟨Nat.zero_le _, hk'⟩
  have hj := Finset.sum_update_add id target first 1
  simp only [id, hfirst] at hj
  have hreach := (reachable_allForked children iterations).run hrun
  refine exists_printed_of_atTest hreach hforked (fun k => (hchild k).1) ?_
  have hjs : ∑ k, (s.child k).j = ∑ k, Function.update target first 1 k :=
    Finset.sum_congr rfl fun k _ => (hchild k).2
  rw [hjs, hcounter]
  change v + _ = 0 + 1 + _
  omega

/-- The first child loads 0 and stores 1 after all the others have finished, but for one iteration
of the second child. This one loads 1, and stores 2 after some of the other iterations of the
first. -/
theorem exists_printed_of_two_le {v : ℕ} (hchildren : 2 ≤ children) (htwo : 2 ≤ v)
    (hle : v ≤ iterations) :
    ∃ s, (ofdLockCounter children iterations).Reachable s ∧ s.printed = some v := by
  let first : Fin children := ⟨0, by omega⟩
  let second : Fin children := ⟨1, by omega⟩
  have hne : second ≠ first := by simp [first, second]
  -- the store of the first child sets the counter back to 1
  obtain ⟨as, s, hrun, hforked, hcounter, hchild⟩ :=
    exists_run_overwrite (s := allForked children iterations) first
      (Function.update (Function.update (fun _ => iterations) second (iterations - 1)) first 0) rfl
      (atTest_allForked children iterations) (by change 0 < iterations; omega)
      (Function.update_self ..) fun k hk => by
        rw [Function.update_of_ne hk, Function.update_apply]
        refine ⟨Nat.zero_le _, ?_⟩
        split <;> omega
  have hj : ∀ k, (s.child k).j =
      if k = first then 1 else if k = second then iterations - 1 else iterations := fun k => by
    rw [(hchild k).2, Function.update_apply, Function.update_apply, Function.update_apply]
    split <;> rfl
  have hfirst : (s.child first).j = 1 := by simp [hj]
  have hsecond : (s.child second).j = iterations - 1 := by simp [hj, hne]
  -- and that of the second child, which has loaded this 1, to 2
  obtain ⟨bs, t, hrun', hforked', hcounter', hchild'⟩ :=
    exists_run_overwrite (s := s) second
      (Function.update (fun k => (s.child k).j) first (iterations + 2 - v)) hforked
      (fun k => (hchild k).1) (by omega) (Function.update_of_ne hne ..) fun k hk => by
        rw [Function.update_apply]
        split
        next hk' => rw [hk', hfirst]; omega
        next => exact ⟨le_rfl, ((hchild k).1).2⟩
  have hreach := ((reachable_allForked children iterations).run hrun).run hrun'
  have hj' : ∀ k, (t.child k).j =
      Function.update (fun _ => iterations) first (iterations + 2 - v) k := fun k => by
    rw [(hchild' k).2, hsecond]
    simp only [Function.update_apply, hj]
    split_ifs <;> omega
  refine exists_printed_of_atTest hreach hforked' (fun k => (hchild' k).1) ?_
  have hsum := Finset.sum_update_add id (fun _ : Fin children => iterations) first
    (iterations + 2 - v)
  simp only [id, Finset.sum_const, Finset.card_univ, Fintype.card_fin, smul_eq_mul] at hsum
  simp only [hj', hcounter', hcounter]
  change v + _ = 0 + 1 + 1 + _
  omega

/-! ## The values that can be printed -/

/-- One child, or none, counts right. With two or more, what can be printed is everything from 2, or
from `iterations` if that is less, up to the right value. -/
theorem ofd_printed_iff (children iterations v : ℕ) :
    (∃ s, (ofdLockCounter children iterations).Reachable s ∧ s.printed = some v) ↔
      if children ≤ 1 then v = children * iterations
      else min 2 iterations ≤ v ∧ v ≤ children * iterations := by
  constructor
  · rintro ⟨s, hs, hv⟩
    have hloose := Loose.of_reachable hs
    split
    next hfew =>
      obtain ⟨hexited, rfl⟩ := hloose.printed v hv
      have hinv := inv_of_reachableVia (reachableVia_of_reachable (.inl hfew) hs)
      rw [hinv.counter_of_allExited hexited, one_mul]
    next hmany => exact hloose.printed_bounds (by omega) hv
  · intro hv
    by_cases hall : v = children * iterations
    · -- nobody is disturbed
      refine exists_printed_of_atTest (reachable_allForked children iterations) rfl
        (atTest_allForked children iterations) ?_
      have hzero : ∀ i, ((allForked children iterations).child i).j = 0 := fun _ => rfl
      simp only [hzero, Finset.sum_const_zero, hall]
      exact Nat.add_comm ..
    · have hmany : ¬children ≤ 1 := fun hfew => hall (by rwa [if_pos hfew] at hv)
      rw [if_neg hmany] at hv
      obtain ⟨hmin, hmax⟩ := hv
      have hiterations : iterations ≠ 0 := by
        rintro rfl
        omega
      -- one late store is enough down to `iterations`, and below that it takes two
      by_cases hle : iterations ≤ v
      · exact exists_printed_of_le (by omega) hle hmax
      · exact exists_printed_of_two_le (by omega) (by omega) (by omega)

end OfdLockCounter
