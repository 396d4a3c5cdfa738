import OsPrograms.Lib.ProcessTable
import OsPrograms.Lib.Termination
import OsPrograms.Semaphores.SysvSemaphoreSetBarrier

/-!
# Whole runs of `sysv_semaphore_set_barrier`

`SETALL` takes the number of workers as an `unsigned short` and refuses what is above `SEMVMX`, and
its result is not looked at. So with too many workers the semaphore starts with less than their
number, and some of them block in `change` for ever.

## Main results

- `Counted`: what holds for any number of workers.
- `barrier_completes_iff`: all runs are finite, and all of them get to the end of `main` exactly
  when there are at most 32767 workers.
- `barrier_outcome`: the output of such a run is a line `reached` of each worker, then a line
  `released` of each worker.
-/

namespace SysvSemaphoreSetBarrier

open TransitionSystem

/-! ## Any number of workers -/

/-- The invariant for any number of workers. -/
structure Counted {n : ℕ} (s : State n) : Prop where
  semval_add : s.semval + ∑ i, (if (s.worker i).Arrived then 1 else 0) = setall n
  alive : ∀ i, (s.worker i).pc ≠ .dieErrno
  forked_le : s.forked ≤ n
  removed : s.removed = true → s.forked = n ∧ s.AllExited

/-- The steps that the parent and the workers will still make. -/
def State.rank {n : ℕ} (s : State n) : ℕ :=
  n - s.forked + ∑ i, (7 - (s.worker i).pc.phase) + if s.removed then 0 else 1

section Counted

variable {n : ℕ} {buffering : Buffering} {s s' : State n} {i : Fin n} {a : Action n}

/-- No value of a semaphore is greater than `SEMVMX`. -/
theorem setall_le (n : ℕ) : setall n ≤ SysvSemaphore.semvmx := by
  unfold setall
  split
  · assumption
  · exact Nat.zero_le _

/-- The initial value is too small exactly when `SETALL` has failed. -/
theorem setall_lt_iff (n : ℕ) : setall n < n ↔ SysvSemaphore.semvmx < n := by
  constructor
  · intro hlt
    by_contra hle
    rw [setall_eq (not_lt.mp hle)] at hlt
    exact lt_irrefl n hlt
  · exact (setall_le n).trans_lt

theorem Counted.init : Counted (init : State n) where
  semval_add := by simp [SysvSemaphoreSetBarrier.init, Worker.Arrived, WorkerPc.phase]
  alive i := by simp [SysvSemaphoreSetBarrier.init]
  forked_le := Nat.zero_le _
  removed := by simp [SysvSemaphoreSetBarrier.init]

/-- The decrement of a worker stays in range. -/
theorem Counted.semval_le (h : Counted s) : s.semval ≤ SysvSemaphore.semvmx :=
  (le_of_le_of_eq (Nat.le_add_right _ _) h.semval_add).trans (setall_le n)

/-- A worker that takes a step gets one phase further, and takes its unit from the semaphore when it
arrives. -/
theorem Counted.workerStep (h : Counted s) (hs : workerStep buffering s i = some s') :
    ∃ w : Worker, s'.worker = Function.update s.worker i w ∧ s'.forked = s.forked ∧
      s'.removed = s.removed ∧ w.pc ≠ .dieErrno ∧
      w.pc.phase = (s.worker i).pc.phase + 1 ∧ w.pc.phase ≤ 7 ∧
      s'.semval + (if w.Arrived then 1 else 0) =
        s.semval + if (s.worker i).Arrived then 1 else 0 := by
  unfold SysvSemaphoreSetBarrier.workerStep at hs
  cases hpc : (s.worker i).pc <;>
    simp only [hpc, semop_waitZero, Option.ite_none_right_eq_some, Option.some.injEq,
      reduceCtorEq] at hs
  case change =>
    simp only [semop, SysvSemaphore.semop_neg_one h.semval_le] at hs
    split_ifs at hs with hzero
    -- the worker takes its unit from the semaphore, which is not zero
    obtain rfl := Option.some.inj hs
    refine ⟨_, rfl, rfl, rfl, ?_⟩
    simp [hpc, WorkerPc.phase, Worker.Arrived, Nat.sub_add_cancel (Nat.pos_of_ne_zero hzero)]
  case dieErrno => exact absurd hpc (h.alive i)
  case waitZero =>
    obtain ⟨-, rfl⟩ := hs
    refine ⟨_, rfl, rfl, rfl, ?_⟩
    simp [hpc, WorkerPc.phase, Worker.Arrived]
  all_goals
    obtain rfl := hs
    refine ⟨_, rfl, rfl, rfl, ?_⟩
    simp [hpc, WorkerPc.phase, Worker.Arrived, printf, fflush]

/-- A step keeps the invariant, and is one of those that were to be made. -/
theorem Counted.step (h : Counted s) (hs : step buffering s a = some s') :
    Counted s' ∧ s'.rank + 1 = s.rank := by
  rcases a with _ | i | _ <;>
    simp only [SysvSemaphoreSetBarrier.step, Option.ite_none_right_eq_some,
      Option.some.injEq] at hs
  · obtain ⟨hlt, rfl⟩ := hs
    refine ⟨⟨h.semval_add, h.alive, hlt, fun hremoved => ?_⟩, ?_⟩
    · -- the parent does not fork after it has removed the semaphores
      exact absurd (h.removed hremoved).1 hlt.ne
    · simp only [State.rank]
      omega
  · obtain ⟨-, hs⟩ := hs
    obtain ⟨w, hworker, hforked, hremoved, halive, hphase, hle, hsemval⟩ := h.workerStep hs
    -- one worker more has arrived exactly when the semaphore has gone down
    have harrived := Finset.sum_update_add (fun w => if w.Arrived then 1 else 0) s.worker i w
    have hrest := Finset.sum_update_add (fun w : Worker => 7 - w.pc.phase) s.worker i w
    rw [← hworker] at harrived hrest
    refine ⟨⟨?_, ?_, hforked ▸ h.forked_le, fun htrue => ?_⟩, ?_⟩
    · have hadd := h.semval_add
      omega
    · rw [hworker]
      exact Function.forall_update_of_forall (P := fun w : Worker => w.pc ≠ .dieErrno)
        h.alive halive
    · -- the worker has not exited, so the semaphores are still there
      have hlast : (s.worker i).pc.phase = 7 := by
        rw [(h.removed (hremoved ▸ htrue)).2 i]
        rfl
      omega
    · simp only [State.rank, hforked, hremoved]
      omega
  · obtain ⟨⟨hforked, hexited, hremoved⟩, rfl⟩ := hs
    refine ⟨⟨h.semval_add, h.alive, h.forked_le, fun _ => ⟨hforked, hexited⟩⟩, ?_⟩
    simp [State.rank, hremoved]

/-- The count is kept along every run. -/
theorem counted_of_reachable (h : (system buffering).Reachable s) : Counted s :=
  h.invariant .init fun _ _ _ hcounted hs => (hcounted.step hs).1

/-- A `fork` and seven statements for each worker, and the removal of the semaphores. -/
theorem rank_init : (init : State n).rank = 8 * n + 1 := by
  simp only [State.rank, init, WorkerPc.phase, Finset.sum_const, Finset.card_univ,
    Fintype.card_fin, smul_eq_mul, Bool.false_eq_true, if_false]
  omega

/-- Nothing is left to be done exactly when the parent has removed the semaphores. -/
theorem Counted.removed_iff (h : Counted s) : s.removed = true ↔ s.rank = 0 := by
  refine ⟨fun hremoved => ?_, fun hrank => ?_⟩
  · obtain ⟨hforked, hexited⟩ := h.removed hremoved
    have hdone : ∀ i, 7 - (s.worker i).pc.phase = 0 := fun i => by simp [hexited i, WorkerPc.phase]
    simp [State.rank, hforked, hdone, hremoved]
  · by_contra hremoved
    simp [State.rank, hremoved] at hrank

/-- All workers can only arrive when each has its unit of the semaphore. -/
theorem Counted.le_setall (h : Counted s) (hexited : s.AllExited) : n ≤ setall n := by
  have harrived : ∀ i, (s.worker i).Arrived := by
    intro i
    simp [Worker.Arrived, hexited i, WorkerPc.phase]
  have hadd := h.semval_add
  simp only [harrived, if_true, Finset.sum_const, Finset.card_univ, Fintype.card_fin, smul_eq_mul,
    mul_one] at hadd
  omega

/-- With at most 32767 workers nothing stops before the end of `main`. -/
theorem removed_of_stuck (hn : n ≤ SysvSemaphore.semvmx) (h : (system buffering).Reachable s)
    (hstuck : (system buffering).Stuck s) : s.removed = true := by
  have hexited : s.AllExited := by
    by_contra hexited
    exact (inv_of_reachable hn h).not_deadlocked hn ⟨hexited, hstuck⟩
  have hfork := hstuck .fork
  have hremove := hstuck .remove
  simp only [system, step, ite_eq_right_iff, reduceCtorEq, imp_false, not_lt] at hfork hremove
  have hforked := le_antisymm (counted_of_reachable h).forked_le hfork
  by_contra hremoved
  exact hremove ⟨hforked, hexited, eq_false_of_ne_true hremoved⟩

end Counted

/-- For any number of workers no run takes more than eight steps for each worker, and one more. All
runs get to the end of `main` exactly when there are at most 32767 workers: with more of them
`values[0]` does not hold their number or `SETALL` fails, and some worker blocks in `change` for
ever. -/
theorem barrier_completes_iff (n : ℕ) (buffering : Buffering) :
    (∀ as s, (system buffering).run (system buffering : TransitionSystem (State n) _).init as =
      some s → as.length ≤ 8 * n + 1) ∧
    ((∀ s : State n, (system buffering).Reachable s → (system buffering).Stuck s →
      s.removed = true) ↔ n ≤ 32767) := by
  have hstep (s : State n) (a : Action n) (s' : State n) (h : (system buffering).Reachable s)
      (hs : (system buffering).step s a = some s') : s'.rank + 1 = s.rank :=
    ((counted_of_reachable h).step hs).2
  refine ⟨fun as s hrun => ?_, fun hends => ?_, fun hn s => removed_of_stuck hn⟩
  · have hlen : as.length + s.rank ≤ (init : State n).rank :=
      Reachable.length_run_le (fun s a s' h hs => (hstep s a s' h hs).le) .init hrun
    rw [rank_init] at hlen
    omega
  · -- a run that ends has all its workers exited, and for that the semaphore is too small
    by_contra hgt
    obtain ⟨s, h, hstuck⟩ :
        ∃ s : State n, (system buffering).Reachable s ∧ (system buffering).Stuck s :=
      Reachable.exists_stuck State.rank (fun s a s' h hs => (hstep s a s' h hs).le) .init
    have hcounted := counted_of_reachable h
    have hle := hcounted.le_setall (hcounted.removed (hends s h hstuck)).2
    exact absurd hle (not_le.mpr ((setall_lt_iff n).mpr (not_le.mp hgt)))

/-! ## The output -/

/-- The line `reached` of the worker has been written. -/
def Worker.WroteReached (w : Worker) : Prop :=
  1 ≤ w.pc.phase ∧ (w.pc = .fflushReached → w.buffer = [])

/-- The line `released` of the worker has been written. -/
def Worker.WroteReleased (w : Worker) : Prop :=
  5 ≤ w.pc.phase ∧ (w.pc = .fflushReleased → w.buffer = [])

/-- The lines `reached` of the workers `before`, then the lines `released` of the workers
`after`. -/
def linesOf {n : ℕ} (before after : List (Fin n)) : List Line :=
  before.map (fun i => .reached (i + 1)) ++ after.map (fun i => .released (i + 1))

/-- A worker has nothing in its buffer but the line it is about to flush. -/
def Worker.Buffered {n : ℕ} (i : Fin n) (w : Worker) : Prop :=
  w.buffer = [] ∨ (w.pc = .fflushReached ∧ w.buffer = [.reached (i + 1)]) ∨
    (w.pc = .fflushReleased ∧ w.buffer = [.released (i + 1)])

/-- Who has written what, in the output of which the lines `reached` are a first part. -/
structure Written {n : ℕ} (s : State n) (before after : List (Fin n)) : Prop where
  output_eq : s.output = linesOf before after
  nodup_before : before.Nodup
  nodup_after : after.Nodup
  mem_before : ∀ i, i ∈ before ↔ (s.worker i).WroteReached
  mem_after : ∀ i, i ∈ after ↔ (s.worker i).WroteReleased
  buffered : ∀ i, (s.worker i).Buffered i

section Written

variable {n : ℕ} {buffering : Buffering} {s s' : State n} {i : Fin n} {w : Worker}
  {before after : List (Fin n)}

theorem Written.init : Written (init : State n) [] [] := by
  constructor <;>
    simp [SysvSemaphoreSetBarrier.init, linesOf, Worker.WroteReached, Worker.WroteReleased,
      Worker.Buffered, WorkerPc.phase]

/-- A step of worker `i` to `w`, with which only this worker can have written a line. -/
theorem Written.update {before' after' : List (Fin n)} (h : Written s before after)
    (hworker : s'.worker = Function.update s.worker i w)
    (houtput : s'.output = linesOf before' after') (hbuffered : w.Buffered i)
    (hnodup : before'.Nodup ∧ after'.Nodup)
    (hothers : ∀ k ≠ i, (k ∈ before' ↔ k ∈ before) ∧ (k ∈ after' ↔ k ∈ after))
    (hi : (i ∈ before' ↔ w.WroteReached) ∧ (i ∈ after' ↔ w.WroteReleased)) :
    Written s' before' after' where
  output_eq := houtput
  nodup_before := hnodup.1
  nodup_after := hnodup.2
  mem_before := by
    rw [hworker, Function.forall_update_iff s.worker fun k w => k ∈ before' ↔ w.WroteReached]
    exact ⟨hi.1, fun k hk => (hothers k hk).1.trans (h.mem_before k)⟩
  mem_after := by
    rw [hworker, Function.forall_update_iff s.worker fun k w => k ∈ after' ↔ w.WroteReleased]
    exact ⟨hi.2, fun k hk => (hothers k hk).2.trans (h.mem_after k)⟩
  buffered := by
    rw [hworker, Function.forall_update_iff s.worker fun k w => w.Buffered k]
    exact ⟨hbuffered, fun k _ => h.buffered k⟩

/-- A step of worker `i` that writes nothing. -/
theorem Written.silent (h : Written s before after)
    (hworker : s'.worker = Function.update s.worker i w) (houtput : s'.output = s.output)
    (hbuffered : w.Buffered i) (hreached : w.WroteReached ↔ (s.worker i).WroteReached)
    (hreleased : w.WroteReleased ↔ (s.worker i).WroteReleased) : Written s' before after :=
  h.update hworker (houtput.trans h.output_eq) hbuffered ⟨h.nodup_before, h.nodup_after⟩
    (fun _ _ => ⟨.rfl, .rfl⟩)
    ⟨(h.mem_before i).trans hreached.symm, (h.mem_after i).trans hreleased.symm⟩

/-- A step of worker `i` that writes its line `reached`, while nobody has written a line
`released`. -/
theorem Written.reached (h : Written s before [])
    (hworker : s'.worker = Function.update s.worker i w)
    (houtput : s'.output = s.output ++ [.reached (i + 1)]) (hbuffered : w.Buffered i)
    (hbefore : ¬(s.worker i).WroteReached) (hreached : w.WroteReached)
    (hreleased : ¬w.WroteReleased) : Written s' (before ++ [i]) [] := by
  have hmem : i ∉ before := fun hi => hbefore ((h.mem_before i).mp hi)
  refine h.update hworker ?_ hbuffered ⟨h.nodup_before.append_singleton hmem, List.nodup_nil⟩
    (fun k hk => ?_) ?_
  · simp [houtput, h.output_eq, linesOf]
  · simp [hk]
  · simp [hreached, hreleased]

/-- A step of worker `i` that writes its line `released`. -/
theorem Written.released (h : Written s before after)
    (hworker : s'.worker = Function.update s.worker i w)
    (houtput : s'.output = s.output ++ [.released (i + 1)]) (hbuffered : w.Buffered i)
    (hreached : w.WroteReached ↔ (s.worker i).WroteReached)
    (hbefore : ¬(s.worker i).WroteReleased) (hreleased : w.WroteReleased) :
    Written s' before (after ++ [i]) := by
  have hmem : i ∉ after := fun hi => hbefore ((h.mem_after i).mp hi)
  refine h.update hworker ?_ hbuffered ⟨h.nodup_before, h.nodup_after.append_singleton hmem⟩
    (fun k hk => ?_) ⟨(h.mem_before i).trans hreached.symm, ?_⟩
  · simp [houtput, h.output_eq, linesOf]
  · simp [hk]
  · simp [hreleased]

/-- While a worker is before the barrier, nobody has written that it is released. -/
theorem Written.after_eq_nil (h : Written s before after) (hinv : Inv s)
    (hearly : ¬(s.worker i).Arrived) : after = [] := by
  rw [List.eq_nil_iff_forall_not_mem]
  intro k hk
  have hlate := ((h.mem_after k).mp hk).1
  have hzero := (hinv.ok k).opened (by omega)
  exact hearly (hinv.arrived_of_semval_eq_zero hzero i)

/-- A worker writes its line `released` after all have written `reached`. -/
theorem Written.workerStep (h : Written s before after) (hinv : Inv s)
    (hn : n ≤ SysvSemaphore.semvmx) (hs : workerStep buffering s i = some s') :
    ∃ before' after', Written s' before' after' := by
  have hbuffer := h.buffered i
  unfold SysvSemaphoreSetBarrier.workerStep at hs
  cases hpc : (s.worker i).pc <;>
    simp only [hpc, hinv.semop_change hn, semop_waitZero, Option.ite_none_right_eq_some,
      Option.some.injEq, reduceCtorEq] at hs
  case printfReached =>
    obtain rfl := hs
    have hempty : (s.worker i).buffer = [] := by simpa [Worker.Buffered, hpc] using hbuffer
    -- this worker has not arrived, so no line `released` has been written yet
    obtain rfl := h.after_eq_nil hinv (i := i) (by simp [Worker.Arrived, hpc, WorkerPc.phase])
    cases buffering with
    | line =>
      refine ⟨_, _, h.reached rfl ?_ ?_ ?_ ?_ ?_⟩ <;>
        simp [printf, Stdio.printf, hempty, hpc, Worker.WroteReached, Worker.WroteReleased,
          Worker.Buffered, WorkerPc.phase]
    -- the line stays in the buffer until `fflush`
    | full =>
      refine ⟨_, _, h.silent rfl ?_ ?_ ?_ ?_⟩ <;>
        simp [printf, Stdio.printf, hempty, hpc, Worker.WroteReached, Worker.WroteReleased,
          Worker.Buffered, WorkerPc.phase]
  case fflushReached =>
    obtain rfl := hs
    obtain rfl := h.after_eq_nil hinv (i := i) (by simp [Worker.Arrived, hpc, WorkerPc.phase])
    simp only [Worker.Buffered, hpc, true_and, reduceCtorEq, false_and, or_false] at hbuffer
    rcases hbuffer with hbuffer | hbuffer
    · -- line buffered: the line was written before
      refine ⟨_, _, h.silent rfl ?_ ?_ ?_ ?_⟩ <;>
        simp [fflush, hbuffer, hpc, Worker.WroteReached, Worker.WroteReleased, Worker.Buffered,
          WorkerPc.phase]
    · refine ⟨_, _, h.reached rfl ?_ ?_ ?_ ?_ ?_⟩ <;>
        simp [fflush, hbuffer, hpc, Worker.WroteReached, Worker.WroteReleased, Worker.Buffered,
          WorkerPc.phase]
  case printfReleased =>
    obtain rfl := hs
    have hempty : (s.worker i).buffer = [] := by simpa [Worker.Buffered, hpc] using hbuffer
    cases buffering with
    | line =>
      refine ⟨_, _, h.released rfl ?_ ?_ ?_ ?_ ?_⟩ <;>
        simp [printf, Stdio.printf, hempty, hpc, Worker.WroteReached, Worker.WroteReleased,
          Worker.Buffered, WorkerPc.phase]
    | full =>
      refine ⟨_, _, h.silent rfl ?_ ?_ ?_ ?_⟩ <;>
        simp [printf, Stdio.printf, hempty, hpc, Worker.WroteReached, Worker.WroteReleased,
          Worker.Buffered, WorkerPc.phase]
  case fflushReleased =>
    obtain rfl := hs
    simp only [Worker.Buffered, hpc, true_and, reduceCtorEq, false_and, false_or] at hbuffer
    rcases hbuffer with hbuffer | hbuffer
    · refine ⟨_, _, h.silent rfl ?_ ?_ ?_ ?_⟩ <;>
        simp [fflush, hbuffer, hpc, Worker.WroteReached, Worker.WroteReleased, Worker.Buffered,
          WorkerPc.phase]
    · refine ⟨_, _, h.released rfl ?_ ?_ ?_ ?_ ?_⟩ <;>
        simp [fflush, hbuffer, hpc, Worker.WroteReached, Worker.WroteReleased, Worker.Buffered,
          WorkerPc.phase]
  case waitZero =>
    obtain ⟨-, rfl⟩ := hs
    have hempty : (s.worker i).buffer = [] := by simpa [Worker.Buffered, hpc] using hbuffer
    refine ⟨_, _, h.silent rfl rfl ?_ ?_ ?_⟩ <;>
      simp [hempty, hpc, Worker.WroteReached, Worker.WroteReleased, Worker.Buffered, WorkerPc.phase]
  case dieErrno => exact absurd hpc (hinv.ok i).alive
  all_goals
    obtain rfl := hs
    have hempty : (s.worker i).buffer = [] := by simpa [Worker.Buffered, hpc] using hbuffer
    refine ⟨_, _, h.silent rfl rfl ?_ ?_ ?_⟩ <;>
      simp [hempty, hpc, Worker.WroteReached, Worker.WroteReleased, Worker.Buffered, WorkerPc.phase]

/-- Only the workers write. -/
theorem Written.step {a : Action n} (h : Written s before after) (hinv : Inv s)
    (hn : n ≤ SysvSemaphore.semvmx) (hs : step buffering s a = some s') :
    ∃ before' after', Written s' before' after' := by
  rcases a with _ | i | _ <;>
    simp only [SysvSemaphoreSetBarrier.step, Option.ite_none_right_eq_some,
      Option.some.injEq] at hs
  · obtain ⟨-, rfl⟩ := hs
    exact ⟨before, after, { h with }⟩
  · exact h.workerStep hinv hn hs.2
  · obtain ⟨-, rfl⟩ := hs
    exact ⟨before, after, { h with }⟩

/-- The output has this form along every run. -/
theorem written_of_reachable (hn : n ≤ SysvSemaphore.semvmx)
    (h : (system buffering).Reachable s) : ∃ before after, Written s before after := by
  refine h.invariant' (P := fun s => ∃ before after, Written s before after) ⟨[], [], .init⟩ ?_
  rintro s a s' hs ⟨before, after, hwritten⟩ hs'
  exact hwritten.step (inv_of_reachable hn hs) hn hs'

/-- When all workers have exited, each has written its two lines. -/
theorem Written.perm_finRange (h : Written s before after) (hexited : s.AllExited) :
    before.Perm (List.finRange n) ∧ after.Perm (List.finRange n) := by
  constructor
  · refine h.nodup_before.perm_finRange fun i => ?_
    simp [h.mem_before, Worker.WroteReached, hexited _, WorkerPc.phase]
  · refine h.nodup_after.perm_finRange fun i => ?_
    simp [h.mem_after, Worker.WroteReleased, hexited _, WorkerPc.phase]

end Written

/-- With at most 32767 workers all runs end after eight steps for each worker and one more, with the
semaphores removed. The output is then a line `reached` of each worker, in some order, and after
them a line `released` of each worker, for either way of buffering. -/
theorem barrier_outcome {n : ℕ} (hn : n ≤ 32767) (buffering : Buffering) :
    (system buffering).EndsAfter (8 * n + 1) fun s : State n =>
      s.removed = true ∧ ∃ before after, before.Perm (List.finRange n) ∧
        after.Perm (List.finRange n) ∧ s.output = linesOf before after := by
  have hend (s : State n) (h : (system buffering).Reachable s) (hremoved : s.removed = true) :
      ∃ before after, before.Perm (List.finRange n) ∧ after.Perm (List.finRange n) ∧
        s.output = linesOf before after := by
    obtain ⟨before, after, hwritten⟩ := written_of_reachable hn h
    have hexited := ((counted_of_reachable h).removed hremoved).2
    obtain ⟨hbefore, hafter⟩ := hwritten.perm_finRange hexited
    exact ⟨before, after, hbefore, hafter, hwritten.output_eq⟩
  apply endsAfter_of_rank State.rank rank_init
  · exact fun s a s' h hs => ((counted_of_reachable h).step hs).2
  · intro s h
    rw [← (counted_of_reachable h).removed_iff]
    exact ⟨And.left, fun hremoved => ⟨hremoved, hend s h hremoved⟩⟩
  · intro s h hstuck
    have hremoved := removed_of_stuck hn h hstuck
    exact ⟨hremoved, hend s h hremoved⟩

/-- The three workers of the program. -/
theorem barrier_outcome_three_workers :
    (system .full).EndsAfter 25 fun s : State 3 =>
      s.removed = true ∧ ∃ before after : List (Fin 3), before.Perm [0, 1, 2] ∧
        after.Perm [0, 1, 2] ∧ s.output = linesOf before after :=
  barrier_outcome (by decide) .full

end SysvSemaphoreSetBarrier
