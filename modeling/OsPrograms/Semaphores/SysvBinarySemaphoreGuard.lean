import OsPrograms.Lib.ProcessTable
import OsPrograms.Lib.SysvSemaphore
import OsPrograms.Lib.TransitionSystem

/-!
# `sysv_binary_semaphore_guard`

The parent sets a System V semaphore to 1 and forks children that each run

```
for (j = 0; j < iterations; j++) { sem_op(semid, -1); (*counter)++; sem_op(semid, 1); }
```

on a counter in shared memory. All operations carry `SEM_UNDO`, so that a child may be killed at any
point: the kernel gives back the semaphore for it.

* `Inv`: the value of the semaphore and the undo adjustments, the critical sections and the stores,
  in every state that can be reached, kills included.
* `Inv.exists_holder`: a child waits for the semaphore only while a live child can go on to give it
  back.
* `guarded_counter_correct`: the guarantees of the program.
-/

namespace SysvBinarySemaphoreGuard

/-- How a child has ended. -/
inductive Ending
  | exited (status : ℕ)
  /-- By a signal. -/
  | killed
  deriving DecidableEq, Repr

/-- The next statement of a child. -/
inductive ChildPc
  /-- `sem_op(semid, -1)` -/
  | semWait
  /-- The load of `(*counter)++`. -/
  | load
  /-- The store of `(*counter)++`. -/
  | store
  /-- `sem_op(semid, 1)` -/
  | semPost
  /-- `_exit`, or the `exit` in `die_errno`. -/
  | exit (status : ℕ)
  | terminated (ending : Ending)
  deriving DecidableEq, Repr

/-- A child process. -/
structure Child where
  pc : ChildPc
  /-- The loop variable. -/
  j : ℕ
  /-- The value of the counter that was loaded last. -/
  loaded : ℕ
  /-- The number of stores the child has executed. -/
  stores : ℕ
  /-- The kernel's undo adjustment of the child. -/
  adj : ℤ
  deriving DecidableEq, Repr

/-- The state of the program with `children` children. -/
structure State (children : ℕ) where
  /-- The value of the semaphore. -/
  semval : ℕ
  /-- The shared counter, an `int` of the source. Its overflow is left out: it counts without a
  bound. -/
  counter : ℕ
  /-- The number of children the parent has forked. -/
  forked : ℕ
  child : Fin children → Child
  /-- What the parent has printed. -/
  printed : Option ℕ

/-- A scheduling choice. -/
inductive Action (children : ℕ)
  /-- The parent forks the next child. -/
  | fork
  /-- A child performs its next statement. -/
  | child (i : Fin children)
  /-- A child is killed. -/
  | kill (i : Fin children)
  /-- `reap_all_children` returns in the parent, which prints the counter. -/
  | print
  deriving DecidableEq, Repr

namespace Child

/-- The child is between its two calls of `sem_op`. -/
def InCritical (ch : Child) : Prop :=
  ch.pc = .load ∨ ch.pc = .store ∨ ch.pc = .semPost

instance (ch : Child) : Decidable ch.InCritical :=
  inferInstanceAs (Decidable (_ ∨ _))

/-- The child has terminated. -/
def Terminated (ch : Child) : Prop :=
  ∃ ending, ch.pc = .terminated ending

instance (ch : Child) : Decidable ch.Terminated :=
  match hpc : ch.pc with
  | .terminated ending => isTrue ⟨ending, hpc⟩
  | .semWait | .load | .store | .semPost | .exit _ =>
    isFalse fun ⟨_, h⟩ => by rw [hpc] at h; cases h

end Child

namespace State

variable {children : ℕ}

/-- The children that have been forked and have not terminated. -/
def live (s : State children) : Finset (Fin children) :=
  {i | i.val < s.forked ∧ ¬(s.child i).Terminated}

/-- All children have terminated. -/
def AllTerminated (s : State children) : Prop :=
  ∀ i, (s.child i).Terminated

instance (s : State children) : Decidable s.AllTerminated :=
  inferInstanceAs (Decidable (∀ _, _))

/-- At most one live child is between its two calls of `sem_op`. -/
def MutualExclusion (s : State children) : Prop :=
  ∀ i ∈ s.live, ∀ k ∈ s.live, (s.child i).InCritical → (s.child k).InCritical → i = k

/-- No child has been killed. -/
def NoneKilled (s : State children) : Prop :=
  ∀ i, (s.child i).pc ≠ .terminated .killed

end State

section Model

variable {children : ℕ} (iterations : ℕ)

/-- A child at the test of its loop. -/
def loopTest (j : ℕ) : ChildPc :=
  if j < iterations then .semWait else .exit 0

/-- The state before the first `fork`: the semaphore is 1 and the counter 0. -/
def init : State children where
  semval := 1
  counter := 0
  forked := 0
  child := fun _ => { pc := loopTest iterations 0, j := 0, loaded := 0, stores := 0, adj := 0 }
  printed := none

/-- `sem_op` in child `i`, which is `next` when the call returns. -/
def semOp (s : State children) (i : Fin children) (op : ℤ) (next : Child) :
    Option (State children) :=
  match SysvSemaphore.semopUndo s.semval (s.child i).adj op with
  | .blocks => none
  | .erange => some { s with child := Function.update s.child i { s.child i with pc := .exit 1 } }
  | .returns (semval, adj) =>
    some { s with
      semval := semval
      child := Function.update s.child i { next with adj := adj } }

/-- Child `i` ends, and the kernel applies its adjustment. -/
def terminate (s : State children) (i : Fin children) (ending : Ending) : State children :=
  { s with
    semval := SysvSemaphore.undo s.semval (s.child i).adj
    child := Function.update s.child i { s.child i with pc := .terminated ending, adj := 0 } }

/-- The next step of child `i`, `none` while it waits for the semaphore and after its end. -/
def childStep (s : State children) (i : Fin children) : Option (State children) :=
  let ch := s.child i
  match ch.pc with
  | .semWait => semOp s i (-1) { ch with pc := .load }
  | .load =>
    some { s with
      child := Function.update s.child i { ch with pc := .store, loaded := s.counter } }
  | .store =>
    some { s with
      child := Function.update s.child i { ch with pc := .semPost, stores := ch.stores + 1 }
      counter := ch.loaded + 1 }
  | .semPost => semOp s i 1 { ch with pc := loopTest iterations (ch.j + 1), j := ch.j + 1 }
  | .exit status => some (terminate s i (.exited status))
  | .terminated _ => none

/-- One step of the program. -/
def step (s : State children) : Action children → Option (State children)
  | .fork => if s.forked < children then some { s with forked := s.forked + 1 } else none
  | .child i => if i.val < s.forked then childStep iterations s i else none
  | .kill i =>
    if i.val < s.forked ∧ ¬(s.child i).Terminated then some (terminate s i .killed) else none
  | .print =>
    -- `reap_all_children` returns when there is no child left to wait for
    if s.forked = children ∧ s.AllTerminated ∧ s.printed = none then
      some { s with printed := some s.counter }
    else
      none

/-- The parent, its children and whoever kills them, interleaved. -/
def system : TransitionSystem (State children) (Action children) where
  init := init iterations
  step := step iterations

/-- Child `i` waits for the semaphore. -/
def Waits (s : State children) (i : Fin children) : Prop :=
  i ∈ s.live ∧ (s.child i).pc = .semWait ∧ childStep iterations s i = none

/-- The parent has not printed, and unless somebody is killed nobody can take a step. -/
def Deadlocked (s : State children) : Prop :=
  s.printed = none ∧ ∀ a, (∀ i, a ≠ .kill i) → step iterations s a = none

end Model

/-! ## The invariant -/

namespace Child

/-- What the child counts for in the semaphore: 1 while it holds it. -/
def held (ch : Child) : ℕ :=
  if ch.InCritical then 1 else 0

/-- What is true of a single child. -/
structure Ok (iterations : ℕ) (ch : Child) : Prop where
  /-- The kernel will give back what the child holds. -/
  adj_eq : ch.adj = ch.held
  /-- The loop and the stores that have been made in it. -/
  stores_eq :
    match ch.pc with
    | .semWait | .load | .store => ch.j < iterations ∧ ch.stores = ch.j
    | .semPost => ch.j < iterations ∧ ch.stores = ch.j + 1
    | .exit status | .terminated (.exited status) => status = 0 ∧ ch.stores = iterations
    | .terminated .killed => True

end Child

/-- The invariant of the program. -/
structure Inv {children : ℕ} (iterations : ℕ) (s : State children) : Prop where
  semval_add : s.semval + ∑ i, (s.child i).held = 1
  counter_eq : s.counter = ∑ i, (s.child i).stores
  loaded_eq : ∀ i, (s.child i).pc = .store → (s.child i).loaded = s.counter
  ok : ∀ i, (s.child i).Ok iterations
  forked_le : s.forked ≤ children
  /-- A child that has not been forked has not started. -/
  unborn : ∀ i, s.forked ≤ i.val → (s.child i).pc = loopTest iterations 0
  printed_eq : ∀ v, s.printed = some v → s.AllTerminated ∧ v = s.counter

section Inv

variable {children iterations : ℕ} {s s' : State children} {i k : Fin children}

/-- At the test of its loop a child is outside its critical section. -/
theorem held_loopTest (iterations j j' loaded stores : ℕ) (adj : ℤ) :
    Child.held { pc := loopTest iterations j, j := j', loaded, stores, adj } = 0 := by
  unfold loopTest
  split_ifs <;> simp [Child.held, Child.InCritical]

/-- At the test of its loop a child has nothing to undo. -/
theorem loopTest_ok {j stores : ℕ} (h : j ≤ iterations) (hstores : stores = j) (loaded : ℕ) :
    Child.Ok iterations { pc := loopTest iterations j, j, loaded, stores, adj := 0 } where
  adj_eq := by rw [held_loopTest, Nat.cast_zero]
  stores_eq := by
    unfold loopTest
    split_ifs with hj
    · exact ⟨hj, hstores⟩
    · exact ⟨rfl, hstores.trans (le_antisymm h (not_lt.mp hj))⟩

theorem Inv.init : Inv iterations (init iterations : State children) where
  semval_add := by simp [SysvBinarySemaphoreGuard.init, held_loopTest]
  counter_eq := by simp [SysvBinarySemaphoreGuard.init]
  loaded_eq i hi := by
    simp only [SysvBinarySemaphoreGuard.init, loopTest] at hi
    split_ifs at hi
  ok _ := loopTest_ok (Nat.zero_le _) rfl 0
  forked_le := Nat.zero_le _
  unborn _ _ := rfl
  printed_eq := nofun

/-- Two children cannot both be between their calls of `sem_op`. -/
theorem Inv.eq_of_inCritical (h : Inv iterations s) (hi : (s.child i).InCritical)
    (hk : (s.child k).InCritical) : i = k := by
  have hsum := h.semval_add
  -- every child in its critical section counts for 1 in a sum that is at most 1
  have hcard : (Finset.univ.filter fun i => (s.child i).InCritical).card ≤ 1 := by
    rw [Finset.card_filter]
    exact (Nat.le_add_left _ _).trans hsum.le
  exact Finset.card_le_one.mp hcard i (by simpa using hi) k (by simpa using hk)

/-- A child in its critical section has taken the semaphore. -/
theorem Inv.semval_eq_zero (h : Inv iterations s) (hi : (s.child i).InCritical) :
    s.semval = 0 := by
  have hsplit := Finset.add_sum_erase Finset.univ (fun i => (s.child i).held) (Finset.mem_univ i)
  have hheld : (s.child i).held = 1 := if_pos hi
  have hsum := h.semval_add
  omega

/-- The semaphore is binary. -/
theorem Inv.semval_le (h : Inv iterations s) : s.semval ≤ SysvSemaphore.semvmx := by
  have hsum := h.semval_add
  have hmax : SysvSemaphore.semvmx = 32767 := rfl
  omega

/-- In its critical section a child has one increment to be made for it. -/
theorem Inv.adj_eq_one (h : Inv iterations s) (hi : (s.child i).InCritical) :
    (s.child i).adj = 1 := by
  rw [(h.ok i).adj_eq, Child.held, if_pos hi, Nat.cast_one]

/-- Outside of it there is nothing to undo. -/
theorem Inv.adj_eq_zero (h : Inv iterations s) (hi : ¬(s.child i).InCritical) :
    (s.child i).adj = 0 := by
  rw [(h.ok i).adj_eq, Child.held, if_neg hi, Nat.cast_zero]

/-- The termination of a child moves what it holds back to the semaphore. -/
theorem Inv.undo_eq (h : Inv iterations s) (i : Fin children) :
    SysvSemaphore.undo s.semval (s.child i).adj = s.semval + (s.child i).held := by
  by_cases hi : (s.child i).InCritical
  · rw [h.adj_eq_one hi, h.semval_eq_zero hi, SysvSemaphore.undo_take, Child.held, if_pos hi]
  · rw [h.adj_eq_zero hi, SysvSemaphore.undo_zero h.semval_le, Child.held, if_neg hi, add_zero]

/-- Everything a step of child `i` can do. The calls of `sem_op` do not fail. -/
theorem Inv.childStep_cases (h : Inv iterations s) (hs : childStep iterations s i = some s') :
    ((s.child i).pc = .semWait ∧ s.semval = 1 ∧
      s' = { s with
        semval := 0
        child := Function.update s.child i { s.child i with pc := .load, adj := 1 } }) ∨
    ((s.child i).pc = .load ∧
      s' = { s with
        child := Function.update s.child i
          { s.child i with pc := .store, loaded := s.counter } }) ∨
    ((s.child i).pc = .store ∧
      s' = { s with
        child := Function.update s.child i
          { s.child i with pc := .semPost, stores := (s.child i).stores + 1 }
        counter := (s.child i).loaded + 1 }) ∨
    ((s.child i).pc = .semPost ∧
      s' = { s with
        semval := 1
        child := Function.update s.child i
          { s.child i with
            pc := loopTest iterations ((s.child i).j + 1), j := (s.child i).j + 1, adj := 0 } }) ∨
    ∃ status, (s.child i).pc = .exit status ∧ s' = terminate s i (.exited status) := by
  unfold childStep at hs
  rcases hpc : (s.child i).pc <;> simp only [hpc, semOp, Option.some.injEq, reduceCtorEq] at hs
  case semWait =>
    -- a child that waits holds nothing, so its adjustment is 0 and the semaphore is 0 or 1
    have hadj : (s.child i).adj = 0 := h.adj_eq_zero (by simp [Child.InCritical, hpc])
    have hsum := h.semval_add
    rcases hval : s.semval with _ | n
    · rw [hval, SysvSemaphore.semopUndo_blocks] at hs
      cases hs
    · obtain rfl : n = 0 := by omega
      rw [hval, hadj, zero_add, SysvSemaphore.semopUndo_take] at hs
      exact .inl ⟨rfl, rfl, (Option.some.inj hs).symm⟩
  case load => exact .inr (.inl ⟨rfl, hs.symm⟩)
  case store => exact .inr (.inr (.inl ⟨rfl, hs.symm⟩))
  case semPost =>
    -- the semaphore is 0, so that the `ERANGE` of `semop` cannot occur
    have hin : (s.child i).InCritical := .inr (.inr hpc)
    rw [h.semval_eq_zero hin, h.adj_eq_one hin, SysvSemaphore.semopUndo_give] at hs
    exact .inr (.inr (.inr (.inl ⟨rfl, (Option.some.inj hs).symm⟩)))
  case exit status => exact .inr (.inr (.inr (.inr ⟨status, rfl, hs.symm⟩)))

/-- Changing the entry of a child that is live, the semaphore and the counter keeps the invariant
when the child accounts for the changes, and no other child has loaded the old counter. -/
theorem Inv.update {ch : Child} (h : Inv iterations s) (hi : i.val < s.forked)
    (hlive : ¬(s.child i).Terminated) (hchild : s'.child = Function.update s.child i ch)
    (hsemval : s'.semval + ch.held = s.semval + (s.child i).held)
    (hcounter : s'.counter + (s.child i).stores = s.counter + ch.stores)
    (hothers : s'.counter = s.counter ∨ (s.child i).InCritical)
    (hloaded : ch.pc = .store → ch.loaded = s'.counter) (hok : ch.Ok iterations)
    (hforked : s'.forked = s.forked) (hprinted : s'.printed = s.printed) :
    Inv iterations s' where
  semval_add := by
    have hsum := Finset.sum_update_add Child.held s.child i ch
    have hadd := h.semval_add
    rw [← hchild] at hsum
    omega
  counter_eq := by
    have hsum := Finset.sum_update_add Child.stores s.child i ch
    have hcount := h.counter_eq
    rw [← hchild] at hsum
    omega
  loaded_eq := by
    rw [hchild, Function.forall_update_iff s.child fun _ ch => ch.pc = .store → ch.loaded = _]
    refine ⟨hloaded, fun k hk hstore => ?_⟩
    rcases hothers with hsame | hin
    · rw [hsame]
      exact h.loaded_eq k hstore
    · -- only the child in its critical section changes the counter, so no other has loaded it
      exact absurd (h.eq_of_inCritical (.inr (.inl hstore)) hin) hk
  ok := by
    rw [hchild]
    exact Function.forall_update_of_forall h.ok hok
  forked_le := by
    rw [hforked]
    exact h.forked_le
  unborn k hk := by
    rw [hforked] at hk
    -- only a child that has been forked takes steps
    have hne : k ≠ i := by
      rintro rfl
      exact absurd hi (not_lt.mpr hk)
    rw [hchild, Function.update_of_ne hne]
    exact h.unborn k hk
  printed_eq v hv := by
    -- the parent prints only when no child is left that could change
    rw [hprinted] at hv
    exact absurd ((h.printed_eq v hv).1 i) hlive

/-- The end of child `i` keeps the invariant. -/
theorem Inv.terminate {ending : Ending} (h : Inv iterations s) (hi : i.val < s.forked)
    (hlive : ¬(s.child i).Terminated)
    (hok : ∀ status, ending = .exited status → status = 0 ∧ (s.child i).stores = iterations) :
    Inv iterations (terminate s i ending) := by
  have hout : Child.held { s.child i with pc := .terminated ending, adj := 0 } = 0 := by
    simp [Child.held, Child.InCritical]
  refine h.update hi hlive rfl ?_ rfl (.inl rfl) nofun ⟨?_, ?_⟩ rfl rfl
  · rw [hout]
    exact h.undo_eq i
  · rw [hout, Nat.cast_zero]
  · -- a child that is killed may have any number of iterations behind it
    rcases ending with status | _
    · exact hok status rfl
    · trivial

/-- A child that enters has found the semaphore at 1, so that no other child is inside. -/
theorem Inv.childStep (h : Inv iterations s) (hi : i.val < s.forked)
    (hs : childStep iterations s i = some s') : Inv iterations s' := by
  have hok := h.ok i
  have hstores := hok.stores_eq
  rcases h.childStep_cases hs with ⟨hpc, hval, rfl⟩ | ⟨hpc, rfl⟩ | ⟨hpc, rfl⟩ | ⟨hpc, rfl⟩ |
    ⟨status, hpc, rfl⟩ <;>
    have hlive : ¬(s.child i).Terminated := by (rintro ⟨_, h⟩; rw [hpc] at h; cases h)
  all_goals simp only [hpc] at hstores
  · -- the semaphore goes from 1 to 0, and the child holds it
    refine h.update hi hlive rfl ?_ rfl (.inl rfl) nofun ⟨?_, hstores⟩ rfl rfl
    · simp [hval, Child.held, Child.InCritical, hpc]
    · simp [Child.held, Child.InCritical]
  · refine h.update hi hlive rfl ?_ rfl (.inl rfl) (fun _ => rfl) ⟨?_, hstores⟩ rfl rfl
    · simp [Child.held, Child.InCritical, hpc]
    · rw [hok.adj_eq]
      simp [Child.held, Child.InCritical, hpc]
  · -- the loaded value is current, so the store adds 1 to the counter
    have hin : (s.child i).InCritical := .inr (.inl hpc)
    refine h.update hi hlive rfl ?_ ?_ (.inr hin) nofun ⟨?_, hstores.1, ?_⟩ rfl rfl
    · simp [Child.held, Child.InCritical, hpc]
    · simp only [h.loaded_eq i hpc]
      omega
    · rw [hok.adj_eq]
      simp [Child.held, Child.InCritical, hpc]
    · rw [hstores.2]
  · -- the semaphore goes from 0 to 1, and the child does not hold it any more
    have hin : (s.child i).InCritical := .inr (.inr hpc)
    have hout := held_loopTest iterations ((s.child i).j + 1) ((s.child i).j + 1)
      (s.child i).loaded (s.child i).stores 0
    refine h.update hi hlive rfl ?_ rfl (.inl rfl) ?_ ?_ rfl rfl
    · rw [h.semval_eq_zero hin, hout, Child.held, if_pos hin]
    · simp only [loopTest]
      split_ifs <;> simp
    · exact loopTest_ok hstores.1 hstores.2 _
  · refine h.terminate hi hlive ?_
    rintro _ ⟨rfl⟩
    exact hstores

/-- A child that is killed inside gives the semaphore back through its undo adjustment. -/
theorem Inv.step {a : Action children} (h : Inv iterations s)
    (hs : step iterations s a = some s') : Inv iterations s' := by
  rcases a with _ | i | i | _ <;>
    simp only [SysvBinarySemaphoreGuard.step, Option.ite_none_right_eq_some,
      Option.some.injEq] at hs
  · obtain ⟨hlt, rfl⟩ := hs
    exact { h with forked_le := hlt, unborn := fun k hk => h.unborn k (Nat.le_of_succ_le hk) }
  · exact h.childStep hs.1 hs.2
  · obtain ⟨⟨hi, hlive⟩, rfl⟩ := hs
    exact h.terminate hi hlive nofun
  · obtain ⟨⟨-, hall, -⟩, rfl⟩ := hs
    refine { h with printed_eq := fun v hv => ⟨hall, ?_⟩ }
    exact (Option.some.inj hv).symm

/-- The invariant holds along every run, kills included. -/
theorem inv_of_reachable (h : (system iterations).Reachable s) : Inv iterations s :=
  h.invariant Inv.init fun _ _ _ hinv hs => hinv.step hs

/-! ## What follows from the invariant -/

/-- A child that has not been forked does not hold the semaphore. -/
theorem Inv.mem_live_of_inCritical (h : Inv iterations s) (hi : (s.child i).InCritical) :
    i ∈ s.live := by
  rw [State.live, Finset.mem_filter_univ]
  constructor
  · by_contra hlt
    have hpc := h.unborn i (not_lt.mp hlt)
    simp only [Child.InCritical, hpc, loopTest] at hi
    split_ifs at hi <;> simp at hi
  · rintro ⟨ending, hpc⟩
    simp [Child.InCritical, hpc] at hi

/-- The value of the semaphore and the adjustments of the live children make 1. -/
theorem Inv.semval_add_adj (h : Inv iterations s) :
    (s.semval : ℤ) + ∑ i ∈ s.live, (s.child i).adj = 1 := by
  have hlive : ∑ i ∈ s.live, (s.child i).adj = ∑ i, ((s.child i).held : ℤ) := by
    rw [Finset.sum_congr rfl fun i _ => (h.ok i).adj_eq]
    apply Finset.sum_subset (Finset.subset_univ _)
    intro i _ hi
    -- the other children hold nothing, so they may be added to the sum
    have hout : ¬(s.child i).InCritical := fun hin => hi (h.mem_live_of_inCritical hin)
    rw [Child.held, if_neg hout, Nat.cast_zero]
  rw [hlive]
  exact_mod_cast h.semval_add

/-- The children that have no step are those that have terminated and those that wait for the
semaphore. -/
theorem Inv.blocked_of_childStep_eq_none (h : Inv iterations s)
    (hs : SysvBinarySemaphoreGuard.childStep iterations s i = none) :
    (s.child i).Terminated ∨ ((s.child i).pc = .semWait ∧ s.semval = 0) := by
  unfold SysvBinarySemaphoreGuard.childStep at hs
  rcases hpc : (s.child i).pc with _ | _ | _ | _ | _ | ending <;>
    simp only [hpc, semOp, reduceCtorEq] at hs
  · have hadj : (s.child i).adj = 0 := h.adj_eq_zero (by simp [Child.InCritical, hpc])
    have hsum := h.semval_add
    refine .inr ⟨rfl, ?_⟩
    by_contra hne
    obtain hval : s.semval = 1 := by omega
    rw [hval, hadj, SysvSemaphore.semopUndo_take] at hs
    cases hs
  · have hin : (s.child i).InCritical := .inr (.inr hpc)
    rw [h.semval_eq_zero hin, h.adj_eq_one hin, SysvSemaphore.semopUndo_give] at hs
    cases hs
  · exact .inl ⟨ending, hpc⟩

/-- The semaphore is 0 only while a live child holds it, and this child can go on. -/
theorem Inv.exists_holder (h : Inv iterations s) (hval : s.semval = 0) :
    ∃ k ∈ s.live, (s.child k).InCritical ∧
      SysvBinarySemaphoreGuard.childStep iterations s k ≠ none := by
  have hsum := h.semval_add
  -- what the semaphore lacks is held by some child
  obtain ⟨k, -, hk⟩ := Finset.exists_ne_zero_of_sum_ne_zero
    (show ∑ i, (s.child i).held ≠ 0 by omega)
  have hin : (s.child k).InCritical := by
    by_contra hout
    exact hk (if_neg hout)
  refine ⟨k, h.mem_live_of_inCritical hin, hin, fun hblocked => ?_⟩
  rcases h.blocked_of_childStep_eq_none hblocked with ⟨ending, hpc⟩ | ⟨hpc, -⟩ <;>
    simp [Child.InCritical, hpc] at hin

/-- Somebody can go on until the parent has printed. -/
theorem Inv.not_deadlocked (h : Inv iterations s) : ¬Deadlocked iterations s := by
  rintro ⟨hprinted, hstuck⟩
  have hfork := hstuck .fork nofun
  have hprint := hstuck .print nofun
  simp only [SysvBinarySemaphoreGuard.step, ite_eq_right_iff, reduceCtorEq, imp_false, not_lt]
    at hfork hprint
  have hforked : s.forked = children := le_antisymm h.forked_le hfork
  have hchild : ∀ k, SysvBinarySemaphoreGuard.childStep iterations s k = none := by
    intro k
    have hk := hstuck (.child k) nofun
    rw [SysvBinarySemaphoreGuard.step, if_pos (lt_of_lt_of_eq k.isLt hforked.symm)] at hk
    exact hk
  apply hprint
  refine ⟨hforked, fun i => ?_, hprinted⟩
  rcases h.blocked_of_childStep_eq_none (hchild i) with hdone | ⟨-, hval⟩
  · exact hdone
  · obtain ⟨k, -, -, hk⟩ := h.exists_holder hval
    exact absurd (hchild k) hk

/-- When all children have exited, they have made all their stores. -/
theorem Inv.counter_of_noneKilled (h : Inv iterations s) (hall : s.AllTerminated)
    (hnone : s.NoneKilled) : s.counter = children * iterations := by
  have hstores : ∀ i, (s.child i).stores = iterations := by
    intro i
    obtain ⟨ending, hpc⟩ := hall i
    have hok := (h.ok i).stores_eq
    rcases ending with status | _
    · simp only [hpc] at hok
      exact hok.2
    · exact absurd hpc (hnone i)
  rw [h.counter_eq]
  simp [hstores]

end Inv

/-- In every interleaving, with any kills: the semaphore and the adjustments of the live children
make 1, at most one live child is between its calls of `sem_op`, no store is lost, a child waits
for the semaphore only while a live child holds it and can go on, and somebody can go on until the
parent has printed. Without kills the parent prints the number of iterations of all children. -/
theorem guarded_counter_correct (children iterations : ℕ) (s : State children)
    (h : (system iterations).Reachable s) :
    (s.semval : ℤ) + ∑ i ∈ s.live, (s.child i).adj = 1 ∧
      s.MutualExclusion ∧
      s.counter = ∑ i, (s.child i).stores ∧
      (∀ i, Waits iterations s i →
        ∃ k ∈ s.live, (s.child k).InCritical ∧ childStep iterations s k ≠ none) ∧
      ¬Deadlocked iterations s ∧
      ∀ v, s.printed = some v → s.NoneKilled → v = children * iterations := by
  have hinv := inv_of_reachable h
  refine ⟨hinv.semval_add_adj, fun i _ k _ hi hk => hinv.eq_of_inCritical hi hk,
    hinv.counter_eq, ?_, hinv.not_deadlocked, ?_⟩
  · rintro i ⟨-, hpc, hblocked⟩
    rcases hinv.blocked_of_childStep_eq_none hblocked with ⟨ending, hdone⟩ | ⟨-, hval⟩
    · rw [hpc] at hdone
      cases hdone
    · exact hinv.exists_holder hval
  · intro v hv hnone
    obtain ⟨hall, rfl⟩ := hinv.printed_eq v hv
    exact hinv.counter_of_noneKilled hall hnone

/-- Of two children the first is killed between its load and its store, and the second one still
gets the semaphore. -/
theorem guarded_counter_one_kill :
    ∃ s : State 2, (system 1).Reachable s ∧ (s.child 0).pc = .terminated .killed ∧
      s.printed = some 1 ∧ s.counter = ∑ i, (s.child i).stores ∧
      (s.semval : ℤ) + ∑ i ∈ s.live, (s.child i).adj = 1 := by
  have hrun : ((system 1).run ((system 1).init : State 2) [.fork, .fork, .child 0, .child 0,
      .kill 0, .child 1, .child 1, .child 1, .child 1, .child 1, .print]).map
        (fun s => ((s.child 0).pc, s.printed)) = some (.terminated .killed, some 1) := by decide
  obtain ⟨s, hs, hend⟩ := Option.map_eq_some_iff.mp hrun
  rw [Prod.mk.injEq] at hend
  have hreach := TransitionSystem.reachable_of_run hs
  obtain ⟨hsemval, -, hcounter, -⟩ := guarded_counter_correct 2 1 s hreach
  exact ⟨s, hreach, hend.1, hend.2, hcounter, hsemval⟩

end SysvBinarySemaphoreGuard
