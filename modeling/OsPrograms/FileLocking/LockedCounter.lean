import OsPrograms.Lib.ProcessTable
import OsPrograms.Lib.RecordLock
import OsPrograms.Lib.TransitionSystem

/-!
# Counters guarded by a lock

`ofd_lock_counter`, `mmap_file_lock_counter` and `process_shared_mutex` are the same program over
different locks. The parent forks children that each run

```
for (j = 0; j < iterations; j++) { lock; counter += increment; unlock; }
```

and prints the counter after `reap_all_children`. `counter += increment` is a load and a store.

The lock is exclusive between owners, and `owner` says which owner a child is for the kernel. The
program is correct as long as no child is granted the lock while another one is between its lock
and its unlock: `Inv` holds along every run whose lock steps are granted alone (`Inv.step`).
Whether the kernel guarantees this depends on `owner` alone.
-/

namespace LockedCounter

/-- The next statement of a child. -/
inductive ChildPc
  | lock
  | load
  | store
  | unlock
  /-- `_exit(0)` -/
  | exit
  | exited
  deriving DecidableEq, Repr

/-- A child process. -/
structure Child where
  pc : ChildPc
  /-- The loop variable. -/
  j : ℕ
  /-- The value of the counter that was loaded last. -/
  loaded : ℕ
  deriving DecidableEq, Repr

/-- The state of the program with `children` children and lock owners in `ω`. -/
structure State (children : ℕ) (ω : Type) where
  /-- The shared counter, an `int` of the source. Its overflow is left out: it counts without a
  bound. -/
  counter : ℕ
  /-- Who holds the lock. -/
  holder : Option ω
  /-- The number of children the parent has forked. -/
  forked : ℕ
  child : Fin children → Child
  /-- What the parent has printed. -/
  printed : Option ℕ

/-- A scheduling choice. -/
inductive Action (children : ℕ)
  /-- The parent forks the next child. -/
  | fork
  /-- A child performs its next statement. -/
  | child (i : Fin children)
  /-- `reap_all_children` returns in the parent, which prints the counter. -/
  | print
  deriving DecidableEq, Repr

namespace Child

/-- The child is between its lock and its unlock. -/
def InCritical (ch : Child) : Prop :=
  ch.pc = .load ∨ ch.pc = .store ∨ ch.pc = .unlock

instance (ch : Child) : Decidable ch.InCritical :=
  inferInstanceAs (Decidable (_ ∨ _))

/-- The number of stores the child has executed. -/
def stores (ch : Child) : ℕ :=
  ch.j + if ch.pc = .unlock then 1 else 0

end Child

namespace State

variable {children : ℕ} {ω : Type}

/-- All children have exited. -/
def AllExited (s : State children ω) : Prop :=
  ∀ i, (s.child i).pc = .exited

instance (s : State children ω) : Decidable s.AllExited :=
  inferInstanceAs (Decidable (∀ _, _))

/-- At most one child is between its lock and its unlock. -/
def MutualExclusion (s : State children ω) : Prop :=
  ∀ i k, (s.child i).InCritical → (s.child k).InCritical → i = k

instance (s : State children ω) : Decidable s.MutualExclusion :=
  inferInstanceAs (Decidable (∀ _ _, _))

end State

section Model

variable {children : ℕ} (iterations increment : ℕ) {ω : Type} [DecidableEq ω]
  (owner : Fin children → ω)

/-- A child at the test of its loop. -/
def loopTest (j : ℕ) : ChildPc :=
  if j < iterations then .lock else .exit

/-- The state before the first `fork`, when the counter has been zeroed. -/
def init : State children ω where
  counter := 0
  holder := none
  forked := 0
  child := fun _ => { pc := loopTest iterations 0, j := 0, loaded := 0 }
  printed := none

/-- The next step of child `i`, `none` while it waits for the lock and after its exit. -/
def childStep (s : State children ω) (i : Fin children) : Option (State children ω) :=
  let ch := s.child i
  match ch.pc with
  | .lock => do
    let holder ← RecordLock.acquire s.holder (owner i)
    some { s with
      child := Function.update s.child i { ch with pc := .load }
      holder := holder }
  | .load =>
    some { s with
      child := Function.update s.child i { ch with pc := .store, loaded := s.counter } }
  | .store =>
    some { s with
      child := Function.update s.child i { ch with pc := .unlock }
      counter := ch.loaded + increment }
  | .unlock =>
    some { s with
      child := Function.update s.child i
        { ch with pc := loopTest iterations (ch.j + 1), j := ch.j + 1 }
      holder := RecordLock.release s.holder (owner i) }
  | .exit => some { s with child := Function.update s.child i { ch with pc := .exited } }
  | .exited => none

/-- One step of the program. -/
def step (s : State children ω) : Action children → Option (State children ω)
  | .fork => if s.forked < children then some { s with forked := s.forked + 1 } else none
  | .child i => if i.val < s.forked then childStep iterations increment owner s i else none
  | .print =>
    -- `reap_all_children` returns when there is no child left to wait for
    if s.forked = children ∧ s.AllExited ∧ s.printed = none then
      some { s with printed := some s.counter }
    else
      none

/-- The parent and its children, interleaved. -/
def system : TransitionSystem (State children ω) (Action children) where
  init := init iterations
  step := step iterations increment owner

end Model

/-- The step, if it is a child's lock, is taken while no child is between its lock and its
unlock. -/
def LocksAlone {children : ℕ} {ω : Type} (s : State children ω) (a : Action children) : Prop :=
  ∀ i, a = .child i → (s.child i).pc = .lock → ∀ k, ¬(s.child k).InCritical

/-! ## The invariant -/

/-- The range of a child's loop variable. -/
def Child.Bound (iterations : ℕ) (ch : Child) : Prop :=
  match ch.pc with
  | .exit | .exited => ch.j = iterations
  | _ => ch.j < iterations

/-- The invariant of the runs in which every lock is granted alone. -/
structure Inv {children : ℕ} (iterations increment : ℕ) {ω : Type} (s : State children ω) :
    Prop where
  exclusion : s.MutualExclusion
  counter_eq : s.counter = increment * ∑ i, (s.child i).stores
  loaded_eq : ∀ i, (s.child i).pc = .store → (s.child i).loaded = s.counter
  bound : ∀ i, (s.child i).Bound iterations

section Inv

variable {children iterations increment : ℕ} {ω : Type} [DecidableEq ω]
  {owner : Fin children → ω} {s s' : State children ω}

/-- At the test of its loop a child is within the bounds of the loop. -/
theorem loopTest_bound {j : ℕ} (h : j ≤ iterations) (loaded : ℕ) :
    Child.Bound iterations { pc := loopTest iterations j, j := j, loaded := loaded } := by
  unfold Child.Bound loopTest
  split_ifs with hj
  · exact hj
  · exact le_antisymm h (not_lt.mp hj)

/-- At the test of its loop a child is outside its critical section. -/
theorem loopTest_ne (iterations j : ℕ) :
    loopTest iterations j ≠ .load ∧ loopTest iterations j ≠ .store ∧
      loopTest iterations j ≠ .unlock := by
  unfold loopTest
  split_ifs <;> simp

/-- At the test of its loop a child is outside of its critical section. -/
theorem not_inCritical_loopTest (iterations j j' loaded : ℕ) :
    ¬Child.InCritical { pc := loopTest iterations j, j := j', loaded := loaded } := by
  obtain ⟨hload, hstore, hunlock⟩ := loopTest_ne iterations j
  rintro (h | h | h)
  · exact hload h
  · exact hstore h
  · exact hunlock h

omit [DecidableEq ω] in
theorem Inv.init : Inv iterations increment (init iterations : State children ω) where
  exclusion i k hi := absurd hi (not_inCritical_loopTest iterations 0 0 0)
  counter_eq := by
    have hunlock := (loopTest_ne iterations 0).2.2
    simp [LockedCounter.init, Child.stores, hunlock]
  loaded_eq i hi := absurd hi (loopTest_ne iterations 0).2.1
  bound _ := loopTest_bound (Nat.zero_le _) 0

omit [DecidableEq ω] in
/-- A child may enter its critical section when no other child is in its own. -/
theorem State.MutualExclusion.update {i : Fin children} {ch : Child} (h : s.MutualExclusion)
    (hch : ch.InCritical → ∀ k, (s.child k).InCritical → k = i)
    (hs : s'.child = Function.update s.child i ch) : s'.MutualExclusion := by
  intro j k
  rw [hs]
  by_cases hji : j = i <;> by_cases hki : k = i
  · intro _ _
    rw [hji, hki]
  · rw [hji, Function.update_self, Function.update_of_ne hki]
    intro hj hk
    exact (hch hj k hk).symm
  · rw [hki, Function.update_self, Function.update_of_ne hji]
    intro hj hk
    exact hch hk j hj
  · rw [Function.update_of_ne hji, Function.update_of_ne hki]
    exact h j k

/-- Everything a step of child `i` can do. -/
theorem childStep_cases {i : Fin children}
    (hs : childStep iterations increment owner s i = some s') :
    ((s.child i).pc = .lock ∧ (s.holder = none ∨ s.holder = some (owner i)) ∧
      s' = { s with
        child := Function.update s.child i { s.child i with pc := .load }
        holder := some (owner i) }) ∨
    ((s.child i).pc = .load ∧
      s' = { s with
        child := Function.update s.child i
          { s.child i with pc := .store, loaded := s.counter } }) ∨
    ((s.child i).pc = .store ∧
      s' = { s with
        child := Function.update s.child i { s.child i with pc := .unlock }
        counter := (s.child i).loaded + increment }) ∨
    ((s.child i).pc = .unlock ∧
      s' = { s with
        child := Function.update s.child i
          { s.child i with
            pc := loopTest iterations ((s.child i).j + 1), j := (s.child i).j + 1 }
        holder := RecordLock.release s.holder (owner i) }) ∨
    ((s.child i).pc = .exit ∧
      s' = { s with child := Function.update s.child i { s.child i with pc := .exited } }) := by
  unfold childStep at hs
  cases hpc : (s.child i).pc <;>
    simp only [hpc, Option.bind_eq_bind, Option.bind_eq_some_iff, Option.some.injEq,
      RecordLock.acquire_eq_some_iff, reduceCtorEq] at hs
  case lock =>
    obtain ⟨holder, ⟨hfree, rfl⟩, rfl⟩ := hs
    exact .inl ⟨rfl, hfree, rfl⟩
  case load => exact .inr (.inl ⟨rfl, hs.symm⟩)
  case store => exact .inr (.inr (.inl ⟨rfl, hs.symm⟩))
  case unlock => exact .inr (.inr (.inr (.inl ⟨rfl, hs.symm⟩)))
  case exit => exact .inr (.inr (.inr (.inr ⟨rfl, hs.symm⟩)))

omit [DecidableEq ω] in
/-- Changing the entry of child `i` and the counter keeps the invariant when the child accounts
for the change of the counter, and no other child has loaded the old value. -/
theorem Inv.update {i : Fin children} {ch : Child} (h : Inv iterations increment s)
    (hchild : s'.child = Function.update s.child i ch)
    (hcounter : s'.counter + increment * (s.child i).stores = s.counter + increment * ch.stores)
    (hcritical : ch.InCritical → ∀ k, (s.child k).InCritical → k = i)
    (hothers : s'.counter = s.counter ∨ (s.child i).InCritical)
    (hloaded : ch.pc = .store → ch.loaded = s'.counter)
    (hbound : ch.Bound iterations) : Inv iterations increment s' where
  exclusion := h.exclusion.update hcritical hchild
  counter_eq := by
    have hsum := congrArg (increment * ·) (Finset.sum_update_add Child.stores s.child i ch)
    simp only [mul_add, ← h.counter_eq, ← hchild] at hsum
    omega
  loaded_eq := by
    rw [hchild, Function.forall_update_iff s.child fun _ ch => ch.pc = .store → ch.loaded = _]
    refine ⟨hloaded, fun k hk hstore => ?_⟩
    rcases hothers with hsame | hin
    · rw [hsame]
      exact h.loaded_eq k hstore
    · -- only the child in its critical section changes the counter, so no other has loaded it
      exact absurd (h.exclusion k i (.inr (.inl hstore)) hin) hk
  bound := by
    rw [hchild]
    exact Function.forall_update_of_forall h.bound hbound

/-- The step of a child keeps the invariant when a lock is granted alone. -/
theorem Inv.childStep {i : Fin children} (h : Inv iterations increment s)
    (halone : (s.child i).pc = .lock → ∀ k, ¬(s.child k).InCritical)
    (hs : childStep iterations increment owner s i = some s') : Inv iterations increment s' := by
  have hbound := h.bound i
  unfold Child.Bound at hbound
  rcases childStep_cases hs with ⟨hpc, -, rfl⟩ | ⟨hpc, rfl⟩ | ⟨hpc, rfl⟩ | ⟨hpc, rfl⟩ | ⟨hpc, rfl⟩
    <;> simp only [hpc] at hbound
  · -- the lock: by assumption no other child is in its critical section
    refine h.update rfl ?_ (fun _ k hk => absurd hk (halone hpc k)) (.inl rfl) nofun hbound
    simp [Child.stores, hpc]
  · -- the load: what is loaded is the counter
    have hin : (s.child i).InCritical := .inl hpc
    refine h.update rfl ?_ (fun _ k hk => h.exclusion k i hk hin) (.inl rfl) (fun _ => rfl) hbound
    simp [Child.stores, hpc]
  · -- the loaded value is current, so the store adds the increment to the counter
    have hin : (s.child i).InCritical := .inr (.inl hpc)
    refine h.update rfl ?_ (fun _ k hk => h.exclusion k i hk hin) (.inr hin) nofun hbound
    simp only [h.loaded_eq i hpc, Child.stores, hpc, reduceCtorEq, ↓reduceIte, mul_add, mul_one]
    omega
  · -- the unlock: the iteration is over, and its store moves from `pc` into `j`
    have hout := not_inCritical_loopTest iterations ((s.child i).j + 1) ((s.child i).j + 1)
      (s.child i).loaded
    have hne := loopTest_ne iterations ((s.child i).j + 1)
    refine h.update rfl ?_ (fun hin => absurd hin hout) (.inl rfl)
      (fun hstore => absurd hstore hne.2.1) (loopTest_bound hbound _)
    simp [Child.stores, hpc, hne]
  · refine h.update rfl ?_ (fun hin => ?_) (.inl rfl) nofun hbound
    · simp [Child.stores, hpc]
    · simp [Child.InCritical] at hin

/-- A step of the program keeps the invariant when a lock is granted alone. -/
theorem Inv.step {a : Action children} (h : Inv iterations increment s) (halone : LocksAlone s a)
    (hs : step iterations increment owner s a = some s') : Inv iterations increment s' := by
  cases a with
  | fork =>
    simp only [LockedCounter.step, Option.ite_none_right_eq_some, Option.some.injEq] at hs
    obtain ⟨-, rfl⟩ := hs
    exact { h with }
  | child i =>
    simp only [LockedCounter.step, Option.ite_none_right_eq_some] at hs
    exact h.childStep (halone i rfl) hs.2
  | print =>
    simp only [LockedCounter.step, Option.ite_none_right_eq_some, Option.some.injEq] at hs
    obtain ⟨-, rfl⟩ := hs
    exact { h with }

/-- The invariant holds along every run in which all locks are granted alone. -/
theorem inv_of_reachableVia
    (h : (system iterations increment owner).ReachableVia LocksAlone s) :
    Inv iterations increment s :=
  h.invariant Inv.init fun _ _ _ hinv halone hs => hinv.step halone hs

omit [DecidableEq ω] in
/-- When all children have exited, no update has been lost. -/
theorem Inv.counter_of_allExited (h : Inv iterations increment s) (hexited : s.AllExited) :
    s.counter = increment * (children * iterations) := by
  have hstores : ∀ i, (s.child i).stores = iterations := by
    intro i
    have hbound := h.bound i
    unfold Child.Bound at hbound
    simp only [hexited i] at hbound
    -- a child that has exited has made all its stores
    simp [Child.stores, hexited i, hbound]
  rw [h.counter_eq]
  simp [hstores]

end Inv

end LockedCounter
