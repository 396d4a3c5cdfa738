import Mathlib.Data.Fin.Basic
import OsPrograms.Lib.ProcessTable
import OsPrograms.Lib.RecordLock
import OsPrograms.Lib.TransitionSystem
import OsPrograms.Lib.WaitFor

/-!
# `deadlock_avoidance_ordering`

The parent forks processes that each lock the bytes of a file one after the other, in the same
order, and exit with the locks held:

```
lock_byte(fd, 0);
lock_byte(fd, 1);
printf("process %ld acquired locks in global order\n", (long)getpid());
fflush(stdout);
_exit(0);
```

The model has any number `n` of processes and `k` of bytes. `F_SETLKW` takes a free lock, and
otherwise waits, unless the process that holds the lock waits for the caller, directly or through
others: then it fails with `EDEADLK`, and `lock_byte` ends the process. Locks belong to the process
and go with it.

## Main results

- `Inv`: a process holds only bytes before the one it locks next.
- `ordered_locks`: in every reachable state the processes do not wait in a cycle, no request fails
  with `EDEADLK`, and some process can move until all have exited.
-/

namespace DeadlockAvoidanceOrdering

/-- The next statement of a child. -/
inductive Pc
  /-- Not yet forked. -/
  | unborn
  /-- `lock_byte(fd, byte)`. -/
  | lock (byte : ℕ)
  /-- Blocked in the `fcntl` of `lock_byte(fd, byte)`. -/
  | waiting (byte : ℕ)
  | printf
  | fflush
  | exit
  | exited
  /-- After `die_errno("lock byte")`. -/
  | died
  deriving DecidableEq, Repr

/-- The next statement of the parent. -/
inductive Parent
  /-- The loop, before its iteration `i`. -/
  | fork (i : ℕ)
  | reap
  | unlink
  | returned
  deriving DecidableEq, Repr

/-- The locks and the processes. -/
structure State (n : ℕ) where
  /-- The process that holds the lock on a byte. -/
  holder : ℕ → Option (Fin n)
  child : Fin n → Pc
  parent : Parent
  /-- The lines written to the standard output, as the processes that wrote them. -/
  output : List (Fin n)

/-- Who executes its next statement. -/
inductive Action (n : ℕ)
  | parent
  | child (p : Fin n)
  deriving DecidableEq, Repr

/-- What a child executes when it has locked the bytes before `byte`. -/
def Pc.lockFrom (k byte : ℕ) : Pc :=
  if byte < k then .lock byte else .printf

section

variable {n : ℕ}

/-- The process that `p` waits for. -/
def waits (s : State n) (p : Fin n) : Option (Fin n) :=
  match s.child p with
  | .waiting byte => s.holder byte
  | _ => none

/-- The kernel refuses to let `p` wait for `q`, because `q` waits for `p`. -/
def edeadlk (s : State n) (p q : Fin n) : Bool :=
  WaitFor.reaches (waits s) p n q

/-- The end of process `p`, by `_exit` or by `exit`: its locks are released. -/
def endProcess (s : State n) (p : Fin n) (pc : Pc) : State n :=
  { s with
    holder := fun byte => RecordLock.release (s.holder byte) p
    child := Function.update s.child p pc }

/-- `p` has locked `byte`. -/
def grant (k : ℕ) (s : State n) (p : Fin n) (byte : ℕ) (holder : Option (Fin n)) : State n :=
  { s with
    holder := Function.update s.holder byte holder
    child := Function.update s.child p (.lockFrom k (byte + 1)) }

/-- The next statement of child `p`. -/
def childStep (k : ℕ) (s : State n) (p : Fin n) : Option (State n) :=
  match s.child p with
  | .lock byte =>
    match RecordLock.acquire (s.holder byte) p with
    | some holder => some (grant k s p byte holder)
    | none =>
      match s.holder byte with
      | some q =>
        if edeadlk s p q then
          some (endProcess s p .died)
        else
          some { s with child := Function.update s.child p (.waiting byte) }
      | none => none
  | .waiting byte => (RecordLock.acquire (s.holder byte) p).map (grant k s p byte)
  | .printf => some { s with child := Function.update s.child p .fflush }
  | .fflush => some { s with
      child := Function.update s.child p .exit
      output := s.output ++ [p] }
  | .exit => some (endProcess s p .exited)
  | .unborn | .exited | .died => none

/-- The next statement of the parent. `reap_all_children` returns when all children have ended. -/
def parentStep (k : ℕ) (s : State n) : Option (State n) :=
  match s.parent with
  | .fork i =>
    if h : i < n then
      some { s with
        child := Function.update s.child ⟨i, h⟩ (.lockFrom k 0)
        parent := .fork (i + 1) }
    else
      some { s with parent := .reap }
  | .reap =>
    if ∀ p, s.child p = .exited ∨ s.child p = .died then
      some { s with parent := .unlink }
    else
      none
  | .unlink => some { s with parent := .returned }
  | .returned => none

/-- The program with `n` children that lock `k` bytes. -/
def system (n k : ℕ) : TransitionSystem (State n) (Action n) where
  init :=
    { holder := fun _ => none
      child := fun _ => .unborn
      parent := .fork 0
      output := [] }
  step s
    | .parent => parentStep k s
    | .child p => childStep k s p

/-! ## The invariant -/

/-- The number of bytes that a child at `pc` has locked. -/
def Pc.locked (k : ℕ) : Pc → ℕ
  | .lock byte | .waiting byte => byte
  | .printf | .fflush | .exit => k
  | .unborn | .exited | .died => 0

/-- A child may be at `pc`. -/
structure Pc.Ok (k : ℕ) (pc : Pc) : Prop where
  lock_lt : ∀ byte, pc = .lock byte ∨ pc = .waiting byte → byte < k
  not_died : pc ≠ .died

/-- A child holds only bytes before the one it locks next; those not forked yet are the ones ahead
of the parent's loop. -/
structure Inv (k : ℕ) (s : State n) : Prop where
  holder : ∀ byte p, s.holder byte = some p → byte < (s.child p).locked k
  ok : ∀ p, (s.child p).Ok k
  unborn : ∀ p, s.child p = .unborn ↔ ∃ i, s.parent = .fork i ∧ i ≤ p

variable {k : ℕ} {s s' : State n} {p : Fin n}

/-- At the test of its loop a child is within the bounds of the loop. -/
theorem Pc.ok_lockFrom (k byte : ℕ) : (Pc.lockFrom k byte).Ok k := by
  rw [Pc.lockFrom]
  split_ifs with h
  · exact ⟨by simp [h], by simp⟩
  · exact ⟨by simp, by simp⟩

theorem Pc.lockFrom_ne_unborn (k byte : ℕ) : Pc.lockFrom k byte ≠ .unborn := by
  rw [Pc.lockFrom]
  split_ifs <;> simp

/-- A child that is about to lock `byte` holds the bytes before it. -/
theorem Pc.locked_lockFrom {byte : ℕ} (h : byte ≤ k) : (Pc.lockFrom k byte).locked k = byte := by
  rw [Pc.lockFrom]
  split_ifs with hlt
  · rfl
  · exact Nat.le_antisymm (Nat.le_of_not_lt hlt) h

/-- A child holds no more than the `k` bytes of the loop. -/
theorem Pc.Ok.locked_le {pc : Pc} (h : pc.Ok k) : pc.locked k ≤ k := by
  cases pc with
  | lock byte => exact (h.lock_lt byte (.inl rfl)).le
  | waiting byte => exact (h.lock_lt byte (.inr rfl)).le
  | printf | fflush | exit => exact Nat.le_refl k
  | unborn | exited | died => exact Nat.zero_le k

/-- Who waits has locked less than the process it waits for. -/
theorem Inv.locked_lt_of_waits (h : Inv k s) (p q : Fin n) (hw : waits s p = some q) :
    (s.child p).locked k < (s.child q).locked k := by
  rw [waits] at hw
  cases hpc : s.child p with
  | waiting byte =>
    rw [hpc] at hw
    exact h.holder byte q hw
  | _ => simp [hpc] at hw

/-- The process that holds the next byte does not wait for the one that requests it. -/
theorem Inv.not_edeadlk (h : Inv k s) {byte : ℕ} {q : Fin n}
    (hlocked : (s.child p).locked k = byte) (hholder : s.holder byte = some q) :
    edeadlk s p q = false := by
  rw [Bool.eq_false_iff]
  intro hreaches
  have hle := WaitFor.rank_le_of_reaches h.locked_lt_of_waits hreaches
  have hlt := h.holder byte q hholder
  omega

theorem inv_init : Inv k (system n k).init where
  holder _ _ h := by cases h
  ok _ := ⟨by simp [system], by simp [system]⟩
  unborn _ := ⟨fun _ => ⟨0, rfl, Nat.zero_le _⟩, fun _ => rfl⟩

/-- A child moves on: its new place and the bytes it then holds must fit. -/
theorem Inv.move (h : Inv k s) {pc : Pc} {holder : ℕ → Option (Fin n)} {output : List (Fin n)}
    (hpc : pc.Ok k) (hborn : s.child p ≠ .unborn ∧ pc ≠ .unborn)
    (hself : ∀ byte, holder byte = some p → byte < pc.locked k)
    (hother : ∀ byte q, q ≠ p → holder byte = some q → s.holder byte = some q) :
    Inv k { s with
      holder := holder, child := Function.update s.child p pc, output := output } where
  holder byte := by
    rw [Function.forall_update_iff s.child fun q pc => holder byte = some q → byte < pc.locked k]
    exact ⟨hself byte, fun q hqp hq => h.holder byte q (hother byte q hqp hq)⟩
  ok := Function.forall_update_of_forall h.ok hpc
  unborn := by
    rw [Function.forall_update_iff s.child fun q pc =>
      pc = .unborn ↔ ∃ i, s.parent = .fork i ∧ i ≤ q]
    refine ⟨?_, fun q _ => h.unborn q⟩
    rw [← h.unborn p]
    exact iff_of_false hborn.2 hborn.1

/-- A child moves on and keeps its locks. -/
theorem Inv.move_of_locked_le (h : Inv k s) {pc : Pc} {output : List (Fin n)} (hpc : pc.Ok k)
    (hborn : s.child p ≠ .unborn ∧ pc ≠ .unborn) (hle : (s.child p).locked k ≤ pc.locked k) :
    Inv k { s with child := Function.update s.child p pc, output := output } :=
  h.move hpc hborn (fun byte hp => (h.holder byte p hp).trans_le hle) fun _ _ _ hq => hq

/-- A granted lock is the next in the order. -/
theorem Inv.grant (h : Inv k s) {byte : ℕ} {holder : Option (Fin n)}
    (hpc : s.child p = .lock byte ∨ s.child p = .waiting byte)
    (hholder : RecordLock.acquire (s.holder byte) p = some holder) :
    Inv k (grant k s p byte holder) := by
  obtain ⟨-, rfl⟩ := RecordLock.acquire_eq_some_iff.mp hholder
  have hlt : byte < k := (h.ok p).lock_lt byte hpc
  have hlocked : (s.child p).locked k = byte ∧ s.child p ≠ .unborn := by
    rcases hpc with hpc | hpc <;> rw [hpc] <;> exact ⟨rfl, by simp⟩
  refine h.move (Pc.ok_lockFrom k _) ⟨hlocked.2, Pc.lockFrom_ne_unborn k _⟩ ?_ ?_
  · intro byte' hp
    rw [Pc.locked_lockFrom hlt]
    by_cases hbyte : byte' = byte
    · omega
    · rw [Function.update_of_ne hbyte] at hp
      have := h.holder byte' p hp
      omega
  · intro byte' q hqp hq
    by_cases hbyte : byte' = byte
    · rw [hbyte, Function.update_self] at hq
      exact absurd (Option.some.inj hq).symm hqp
    · rwa [Function.update_of_ne hbyte] at hq

/-- A child that ends takes its locks with it. -/
theorem Inv.endProcess (h : Inv k s) (hborn : s.child p ≠ .unborn) :
    Inv k (endProcess s p .exited) := by
  refine h.move ⟨by simp, by simp⟩ ⟨hborn, by simp⟩ ?_ ?_
  · intro byte hp
    exact absurd rfl (RecordLock.release_eq_some_iff.mp hp).2
  · intro byte q _ hq
    exact (RecordLock.release_eq_some_iff.mp hq).1

/-- A child whose next byte is held by another one waits for it. -/
theorem Inv.wait (h : Inv k s) {byte : ℕ} (hpc : s.child p = .lock byte) :
    Inv k { s with child := Function.update s.child p (.waiting byte) } := by
  have hlt : byte < k := (h.ok p).lock_lt byte (.inl hpc)
  refine h.move_of_locked_le ⟨?_, by simp⟩ ⟨by simp [hpc], by simp⟩ (by rw [hpc]; rfl)
  rintro byte' (hbyte | hbyte)
  · cases hbyte
  · cases hbyte
    exact hlt

/-- A child that moves holds no byte from the next one on that it will ask for. -/
theorem Inv.childStep (h : Inv k s) (hstep : childStep k s p = some s') : Inv k s' := by
  rcases hpc : s.child p <;>
    simp only [DeadlockAvoidanceOrdering.childStep, hpc, reduceCtorEq] at hstep
  case lock byte =>
    cases hacq : RecordLock.acquire (s.holder byte) p with
    | some holder =>
      rw [hacq] at hstep
      obtain rfl := Option.some.inj hstep
      exact h.grant (.inl hpc) hacq
    | none =>
      rw [hacq] at hstep
      cases hq : s.holder byte with
      | none => simp [hq] at hstep
      | some q =>
        -- the kernel finds no cycle
        simp only [hq, h.not_edeadlk (by rw [hpc]; rfl) hq] at hstep
        obtain rfl := Option.some.inj hstep
        exact h.wait hpc
  case waiting byte =>
    rw [Option.map_eq_some_iff] at hstep
    obtain ⟨holder, hacq, rfl⟩ := hstep
    exact h.grant (.inr hpc) hacq
  case printf | fflush =>
    obtain rfl := Option.some.inj hstep
    exact h.move_of_locked_le ⟨by simp, by simp⟩ ⟨by simp [hpc], by simp⟩ (by rw [hpc]; rfl)
  case exit =>
    obtain rfl := Option.some.inj hstep
    exact h.endProcess (by simp [hpc])

/-- The parent goes on after its loop. -/
theorem Inv.parent_next (h : Inv k s) {parent : Parent} (hborn : ∀ p, s.child p ≠ .unborn)
    (hparent : ∀ i, parent ≠ .fork i) : Inv k { s with parent := parent } where
  holder := h.holder
  ok := h.ok
  unborn p := by
    refine iff_of_false (hborn p) ?_
    rintro ⟨i, hi, -⟩
    exact hparent i hi

/-- A child that is forked holds nothing yet. -/
theorem Inv.parentStep (h : Inv k s) (hstep : parentStep k s = some s') : Inv k s' := by
  rcases hpc : s.parent <;>
    simp only [DeadlockAvoidanceOrdering.parentStep, hpc, reduceCtorEq] at hstep
  case fork i =>
    split_ifs at hstep with hi
    · obtain rfl := Option.some.inj hstep
      have hunborn : s.child ⟨i, hi⟩ = .unborn := (h.unborn _).mpr ⟨i, hpc, Nat.le_refl i⟩
      refine ⟨fun byte => ?_, Function.forall_update_of_forall h.ok (Pc.ok_lockFrom k 0), ?_⟩
      · rw [Function.forall_update_iff s.child fun q pc =>
          s.holder byte = some q → byte < pc.locked k]
        refine ⟨fun hp => ?_, fun q _ => h.holder byte q⟩
        -- a process that was not there yet holds nothing
        have hlt := h.holder byte _ hp
        rw [hunborn] at hlt
        exact absurd hlt (Nat.not_lt_zero byte)
      · rw [Function.forall_update_iff s.child fun q pc =>
          pc = .unborn ↔ ∃ j, Parent.fork (i + 1) = .fork j ∧ j ≤ q]
        refine ⟨iff_of_false (Pc.lockFrom_ne_unborn k 0) ?_, fun q hq => ?_⟩
        · rintro ⟨j, hj, hle⟩
          cases hj
          exact Nat.not_succ_le_self i hle
        · have hne : (q : ℕ) ≠ i := fun h => hq (Fin.ext h)
          simp only [h.unborn q, hpc, Parent.fork.injEq, exists_eq_left']
          omega
    · obtain rfl := Option.some.inj hstep
      refine h.parent_next (fun p hp => ?_) (by simp)
      obtain ⟨j, hj, hle⟩ := (h.unborn p).mp hp
      rw [hpc] at hj
      cases hj
      omega
  case reap =>
    split_ifs at hstep
    obtain rfl := Option.some.inj hstep
    refine h.parent_next (fun p hp => ?_) (by simp)
    obtain ⟨j, hj, -⟩ := (h.unborn p).mp hp
    simp [hpc] at hj
  case unlink =>
    obtain rfl := Option.some.inj hstep
    refine h.parent_next (fun p hp => ?_) (by simp)
    obtain ⟨j, hj, -⟩ := (h.unborn p).mp hp
    simp [hpc] at hj

/-- The invariant holds along every run. -/
theorem inv_of_reachable (h : (system n k).Reachable s) : Inv k s := by
  refine h.invariant inv_init ?_
  intro s a s' hs hstep
  cases a with
  | parent => exact hs.parentStep hstep
  | child p => exact hs.childStep hstep

/-! ## Progress -/

/-- A child that cannot move has exited or waits for another one. -/
theorem Inv.blocked_of_childStep_eq_none (h : Inv k s) (hborn : s.child p ≠ .unborn)
    (hstep : DeadlockAvoidanceOrdering.childStep k s p = none) :
    s.child p = .exited ∨ waits s p ≠ none := by
  rcases hpc : s.child p <;>
    simp only [DeadlockAvoidanceOrdering.childStep, hpc, reduceCtorEq] at hstep
  case unborn => exact absurd hpc hborn
  case exited => exact .inl rfl
  case died => exact absurd hpc (h.ok p).not_died
  case waiting byte =>
    refine .inr ?_
    rw [Option.map_eq_none_iff] at hstep
    intro hw
    simp only [waits, hpc] at hw
    simp [RecordLock.acquire, hw] at hstep
  case lock byte =>
    cases hq : s.holder byte with
    | none => simp [RecordLock.acquire, hq] at hstep
    | some q =>
      simp only [RecordLock.acquire, hq] at hstep
      split_ifs at hstep

/-- When nobody can move, everybody has ended. -/
theorem Inv.ended_of_stuck (h : Inv k s) (hstuck : (system n k).Stuck s) :
    (∀ p, s.child p = .exited) ∧ s.parent = .returned := by
  have hparent : DeadlockAvoidanceOrdering.parentStep k s = none := hstuck .parent
  have hborn : ∀ p, s.child p ≠ .unborn := by
    intro p hp
    obtain ⟨i, hi, -⟩ := (h.unborn p).mp hp
    simp only [DeadlockAvoidanceOrdering.parentStep, hi] at hparent
    split_ifs at hparent
  have hexited : ∀ p, s.child p = .exited := by
    intro p
    -- `q` is at the end of the chain of processes that wait for one another from `p` on
    obtain ⟨q, hpq, hq⟩ :=
      WaitFor.exists_end h.locked_lt_of_waits (fun p => (h.ok p).locked_le) p
    have hqexited : s.child q = .exited :=
      (h.blocked_of_childStep_eq_none (hborn q) (hstuck (.child q))).resolve_right (not_not.mpr hq)
    rcases hpq.cases_tail with rfl | ⟨r, -, hrq⟩
    · exact hqexited
    · -- `q` would hold a lock, which one that has exited does not
      have hlt := h.locked_lt_of_waits r q hrq
      rw [hqexited] at hlt
      exact absurd hlt (Nat.not_lt_zero _)
  refine ⟨hexited, ?_⟩
  rcases hpc : s.parent <;>
    simp only [DeadlockAvoidanceOrdering.parentStep, hpc, reduceCtorEq] at hparent
  case fork i => split_ifs at hparent
  case reap => simp [hexited] at hparent
  case returned => rfl

/-- What the global order of the locks is for. -/
structure DeadlockFree (s : State n) (k : ℕ) : Prop where
  /-- The processes do not wait in a cycle. -/
  acyclic : WaitFor.Acyclic (waits s)
  /-- A request that has to wait, new or repeated after a wakeup, is not refused. -/
  not_edeadlk : ∀ p byte q, s.child p = .lock byte ∨ s.child p = .waiting byte →
    s.holder byte = some q → edeadlk s p q = false
  /-- No `lock_byte` has ended its process. -/
  not_died : ∀ p, s.child p ≠ .died
  /-- Somebody can move until all have ended. -/
  progress : ((∀ p, s.child p = .exited) ∧ s.parent = .returned) ∨
    ∃ a, (system n k).step s a ≠ none

end

/-- For any number of processes that lock any number of bytes in increasing order, in every
interleaving. -/
theorem ordered_locks (n k : ℕ) (s : State n) (hs : (system n k).Reachable s) :
    DeadlockFree s k := by
  have h := inv_of_reachable hs
  refine ⟨WaitFor.acyclic_of_rank h.locked_lt_of_waits, ?_, fun p => (h.ok p).not_died, ?_⟩
  · intro p byte q hpc hholder
    refine h.not_edeadlk ?_ hholder
    rcases hpc with hpc | hpc <;> rw [hpc] <;> rfl
  · by_cases hstuck : (system n k).Stuck s
    · exact .inl (h.ended_of_stuck hstuck)
    · exact .inr (not_forall.mp hstuck)

/-- The program itself, with two children and two bytes, when the second child waits for the
first. -/
theorem ordered_locks_two :
    ∃ s, (system 2 2).Reachable s ∧ waits s 1 = some 0 ∧ DeadlockFree s 2 := by
  have hwaits : ((system 2 2).run (system 2 2).init
      [.parent, .parent, .child 0, .child 1]).map (waits · 1) = some (some 0) := by
    decide
  obtain ⟨s, hrun, hwaits⟩ := Option.map_eq_some_iff.mp hwaits
  have hs := TransitionSystem.reachable_of_run hrun
  exact ⟨s, hs, hwaits, ordered_locks 2 2 s hs⟩

end DeadlockAvoidanceOrdering
