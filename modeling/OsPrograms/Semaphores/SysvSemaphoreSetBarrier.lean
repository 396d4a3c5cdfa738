import OsPrograms.Lib.ProcessTable
import OsPrograms.Lib.Stdio
import OsPrograms.Lib.SysvSemaphore
import OsPrograms.Lib.TransitionSystem

/-!
# A barrier of processes (`sysv_semaphore_set_barrier`)

The parent sets a System V semaphore to the number of workers `n` and forks the workers. Each worker
prints that it has reached the barrier, decrements the semaphore, waits until it is zero, and prints
that it has been released. The decrement and the wait are two calls, so that the other workers can
take any number of steps between them.

* `Inv`: the semaphore is the number of workers that have not decremented it, and who has passed the
  wait has found it at zero.
* `Inv.arrived_of_semval_eq_zero`: at zero all workers have decremented the semaphore, and their
  lines are in the output.
* `barrier_correct`: the order of the lines, and progress.
-/

namespace SysvSemaphoreSetBarrier

/-- A printed line. -/
inductive Line
  /-- `worker %d reached barrier` -/
  | reached (k : ℕ)
  /-- `worker %d released` -/
  | released (k : ℕ)
  deriving DecidableEq, Repr

/-- The next statement of a worker. -/
inductive WorkerPc
  | printfReached
  | fflushReached
  /-- `change(semid, 0, -1)` -/
  | change
  /-- `wait_zero(semid, 0)` -/
  | waitZero
  | printfReleased
  | fflushReleased
  /-- `_exit(0)` -/
  | exit
  | exited
  /-- The `exit` in `die_errno`. -/
  | dieErrno
  deriving DecidableEq, Repr

/-- A worker process. -/
structure Worker where
  pc : WorkerPc
  /-- The buffer of its standard output. -/
  buffer : List Line
  deriving DecidableEq, Repr

/-- The state of the program with `n` workers. -/
structure State (n : ℕ) where
  /-- The value of semaphore 0, the only one of the set that is used. -/
  semval : ℕ
  /-- The number of workers the parent has forked. -/
  forked : ℕ
  worker : Fin n → Worker
  /-- The executed calls of `printf`, in order. -/
  calls : List Line
  /-- What has reached standard output. -/
  output : List Line
  /-- The parent has removed the semaphores. -/
  removed : Bool

/-- A scheduling choice. -/
inductive Action (n : ℕ)
  /-- The parent forks the next worker. -/
  | fork
  /-- A worker performs its next statement. -/
  | worker (i : Fin n)
  /-- `reap_all_children` returns in the parent, which removes the semaphores. -/
  | remove
  deriving DecidableEq, Repr

/-- All workers have exited. -/
def State.AllExited {n : ℕ} (s : State n) : Prop :=
  ∀ i, (s.worker i).pc = .exited

instance {n : ℕ} (s : State n) : Decidable s.AllExited :=
  inferInstanceAs (Decidable (∀ _, _))

section Model

variable {n : ℕ} (buffering : Buffering)

/-- The value after `SETALL` with `values[0] = WORKERS`, an `unsigned short`. The call fails, and
leaves the new semaphore at 0, when the value is too large. -/
def setall (workers : ℕ) : ℕ :=
  if workers % 2 ^ 16 ≤ SysvSemaphore.semvmx then workers % 2 ^ 16 else 0

/-- The state before the first `fork`. -/
def init : State n where
  semval := setall n
  forked := 0
  worker := fun _ => { pc := .printfReached, buffer := [] }
  calls := []
  output := []
  removed := false

/-- `printf` of the line `l` in worker `i`, which goes on at `next`. -/
def printf (s : State n) (i : Fin n) (l : Line) (next : WorkerPc) : State n :=
  let printed := Stdio.printf buffering (s.worker i).buffer l
  { s with
    worker := Function.update s.worker i { pc := next, buffer := printed.2 }
    calls := s.calls ++ [l]
    output := s.output ++ printed.1 }

/-- `fflush(stdout)` in worker `i`, which goes on at `next`. -/
def fflush (s : State n) (i : Fin n) (next : WorkerPc) : State n :=
  { s with
    worker := Function.update s.worker i { pc := next, buffer := [] }
    output := s.output ++ (s.worker i).buffer }

/-- `semop` in worker `i`, which goes on at `next` when the call returns. -/
def semop (s : State n) (i : Fin n) (op : ℤ) (next : WorkerPc) : Option (State n) :=
  match SysvSemaphore.semop s.semval op with
  | .blocks => none
  | .erange =>
    some { s with worker := Function.update s.worker i { s.worker i with pc := .dieErrno } }
  | .returns semval =>
    some { s with
      semval := semval
      worker := Function.update s.worker i { s.worker i with pc := next } }

/-- The next step of worker `i`, `none` while it blocks and after its exit. -/
def workerStep (s : State n) (i : Fin n) : Option (State n) :=
  match (s.worker i).pc with
  | .printfReached => some (printf buffering s i (.reached (i + 1)) .fflushReached)
  | .fflushReached => some (fflush s i .change)
  | .change => semop s i (-1) .waitZero
  | .waitZero => semop s i 0 .printfReleased
  | .printfReleased => some (printf buffering s i (.released (i + 1)) .fflushReleased)
  | .fflushReleased => some (fflush s i .exit)
  | .exit =>
    -- `_exit` discards what is in the buffer
    some { s with worker := Function.update s.worker i { pc := .exited, buffer := [] } }
  -- `exit` writes the buffer out, unlike `_exit`
  | .dieErrno => some (fflush s i .exited)
  | .exited => none

/-- One step of the program. -/
def step (s : State n) : Action n → Option (State n)
  | .fork => if s.forked < n then some { s with forked := s.forked + 1 } else none
  | .worker i => if i.val < s.forked then workerStep buffering s i else none
  | .remove =>
    if s.forked = n ∧ s.AllExited ∧ s.removed = false then some { s with removed := true } else none

/-- The parent and the workers, interleaved. -/
def system : TransitionSystem (State n) (Action n) where
  init := init
  step := step buffering

/-- Some worker has not exited, and nobody can take a step. -/
def Deadlocked (s : State n) : Prop :=
  ¬s.AllExited ∧ (system buffering).Stuck s

end Model

/-- How far a worker has come. -/
def WorkerPc.phase : WorkerPc → ℕ
  | .printfReached => 0
  | .fflushReached => 1
  | .change | .dieErrno => 2
  | .waitZero => 3
  | .printfReleased => 4
  | .fflushReleased => 5
  | .exit => 6
  | .exited => 7

/-- The worker has decremented the semaphore. -/
def Worker.Arrived (w : Worker) : Prop :=
  3 ≤ w.pc.phase

instance (w : Worker) : Decidable w.Arrived :=
  inferInstanceAs (Decidable (_ ≤ _))

/-- When a worker has printed that it is released, all workers have printed that they have reached
the barrier. This is so for the calls of `printf` and for the lines in the output. -/
def Synchronized {n : ℕ} (s : State n) : Prop :=
  ∀ i : Fin n, .released (i + 1) ∈ s.calls ∨ .released (i + 1) ∈ s.output →
    ∀ k : Fin n, .reached (k + 1) ∈ s.calls ∧ .reached (k + 1) ∈ s.output

/-! ## The invariant -/

/-- What holds of worker `i` when it is in the state `w`. -/
structure Worker.Ok {n : ℕ} (s : State n) (i : Fin n) (w : Worker) : Prop where
  alive : w.pc ≠ .dieErrno
  reached : 1 ≤ w.pc.phase → .reached (i + 1) ∈ s.calls ∧
    (.reached (i + 1) ∈ w.buffer ∨ .reached (i + 1) ∈ s.output)
  flushed : 2 ≤ w.pc.phase → .reached (i + 1) ∈ s.output
  /-- The worker has passed the wait, so the semaphore is zero. -/
  opened : 4 ≤ w.pc.phase → s.semval = 0
  released : .released (i + 1) ∈ s.calls → 5 ≤ w.pc.phase
  buffered : ∀ l ∈ w.buffer, l ∈ s.calls

/-- The invariant of the program. -/
structure Inv {n : ℕ} (s : State n) : Prop where
  semval_add : s.semval + ∑ i, (if (s.worker i).Arrived then 1 else 0) = n
  ok : ∀ i, (s.worker i).Ok s i
  output_subset : ∀ l ∈ s.output, l ∈ s.calls

section Inv

variable {n : ℕ} {buffering : Buffering} {s s' : State n} {i : Fin n}

/-- `SETALL` stores the number of workers if it is a value of a semaphore. -/
theorem setall_eq (hn : n ≤ SysvSemaphore.semvmx) : setall n = n := by
  have hmod : n % 2 ^ 16 = n := Nat.mod_eq_of_lt (hn.trans_lt (by decide))
  rw [setall, hmod, if_pos hn]

theorem Inv.init (hn : n ≤ SysvSemaphore.semvmx) : Inv (init : State n) where
  semval_add := by
    simp [SysvSemaphoreSetBarrier.init, setall_eq hn, Worker.Arrived, WorkerPc.phase]
  ok i := by
    constructor <;> simp [SysvSemaphoreSetBarrier.init, WorkerPc.phase]
  output_subset := nofun

/-- At zero all workers have decremented the semaphore. -/
theorem Inv.arrived_of_semval_eq_zero (h : Inv s) (hzero : s.semval = 0) (k : Fin n) :
    (s.worker k).Arrived := by
  have hsum := h.semval_add
  rw [hzero, zero_add, ← Finset.card_filter] at hsum
  have hcard : (Finset.univ.filter fun i => (s.worker i).Arrived).card =
      (Finset.univ : Finset (Fin n)).card := by
    -- as many workers have arrived as there are workers
    rw [hsum, Finset.card_univ, Fintype.card_fin]
  exact Finset.card_filter_eq_iff.mp hcard k (Finset.mem_univ k)

/-- The semaphore only counts down. -/
theorem Inv.semval_le (h : Inv s) : s.semval ≤ n :=
  le_of_le_of_eq (Nat.le_add_right _ _) h.semval_add

/-- The semaphore is not zero while a worker is before its decrement. -/
theorem Inv.semval_ne_zero (h : Inv s) (hpc : (s.worker i).pc = .change) : s.semval ≠ 0 := by
  intro hzero
  -- at zero this worker would have arrived as well
  have harrived := h.arrived_of_semval_eq_zero hzero i
  simp [Worker.Arrived, hpc, WorkerPc.phase] at harrived

/-- The decrement succeeds. -/
theorem Inv.semop_change (h : Inv s) (hn : n ≤ SysvSemaphore.semvmx)
    (hpc : (s.worker i).pc = .change) (next : WorkerPc) :
    semop s i (-1) next = some { s with
      semval := s.semval - 1
      worker := Function.update s.worker i { s.worker i with pc := next } } := by
  rw [semop, SysvSemaphore.semop_neg_one (h.semval_le.trans hn), if_neg (h.semval_ne_zero hpc)]

/-- Waiting for zero goes on exactly at zero. -/
theorem semop_waitZero (s : State n) (i : Fin n) (next : WorkerPc) :
    semop s i 0 next = if s.semval = 0 then
      some { s with worker := Function.update s.worker i { s.worker i with pc := next } }
    else none := by
  rw [semop, SysvSemaphore.semop_zero]
  split_ifs with hzero
  · rw [← hzero]
  · rfl

/-- A worker keeps its place while the others print, and the semaphore stays at zero. -/
theorem Worker.Ok.mono {w : Worker} (h : w.Ok s i)
    (hcalls : ∀ l ∈ s.calls, l ∈ s'.calls) (houtput : ∀ l ∈ s.output, l ∈ s'.output)
    (hsemval : s.semval = 0 → s'.semval = 0)
    (hreleased : .released (i + 1) ∈ s'.calls → .released (i + 1) ∈ s.calls) : w.Ok s' i where
  alive := h.alive
  reached hphase := by
    obtain ⟨hcalled, hbuffer⟩ := h.reached hphase
    exact ⟨hcalls _ hcalled, hbuffer.imp_right (houtput _)⟩
  flushed hphase := houtput _ (h.flushed hphase)
  opened hphase := hsemval (h.opened hphase)
  released hcalled := h.released (hreleased hcalled)
  buffered l hl := hcalls l (h.buffered l hl)

/-- A step of worker `i` to `w` keeps the invariant when the worker accounts for the change of the
semaphore, and the lines that are new are its own. -/
theorem Inv.update {w : Worker} (h : Inv s) (hworker : s'.worker = Function.update s.worker i w)
    (hsemval : s'.semval + (if w.Arrived then 1 else 0) =
      s.semval + if (s.worker i).Arrived then 1 else 0)
    (hzero : s.semval = 0 → s'.semval = 0)
    (hcalls : ∀ l ∈ s.calls, l ∈ s'.calls) (houtput : ∀ l ∈ s.output, l ∈ s'.output)
    (hown : ∀ k ≠ i, .released (k + 1) ∈ s'.calls → .released (k + 1) ∈ s.calls)
    (hok : w.Ok s' i) (hsubset : ∀ l ∈ s'.output, l ∈ s'.calls) : Inv s' where
  semval_add := by
    have hsum := Finset.sum_update_add (fun w => if w.Arrived then 1 else 0) s.worker i w
    have hadd := h.semval_add
    rw [← hworker] at hsum
    omega
  ok := by
    rw [hworker, Function.forall_update_iff s.worker fun k w => w.Ok s' k]
    exact ⟨hok, fun k hk => (h.ok k).mono hcalls houtput hzero (hown k hk)⟩
  output_subset := hsubset

/-- What is in the output or in the buffer after a call of `printf`. -/
theorem mem_stdio_printf (buffering : Buffering) (buffer : List Line) (l l' : Line) :
    l' ∈ (Stdio.printf buffering buffer l).1 ∨ l' ∈ (Stdio.printf buffering buffer l).2 ↔
      l' ∈ buffer ∨ l' = l := by
  rcases buffering with _ | _ <;> simp [Stdio.printf]

/-- A call of `printf` keeps the invariant, when the line is one that the worker may print. -/
theorem Inv.printf {l : Line} {next : WorkerPc} (h : Inv s)
    (hphase : next.phase = (s.worker i).pc.phase + 1) (halive : next ≠ .dieErrno)
    (hline : next.phase = 1 ∧ l = .reached (i + 1) ∨ next.phase = 5 ∧ l = .released (i + 1)) :
    Inv (printf buffering s i l next) := by
  have hi := h.ok i
  have hmem := mem_stdio_printf buffering (s.worker i).buffer l
  have hcalls : ∀ l' ∈ s.calls, l' ∈ s.calls ++ [l] := fun _ => List.mem_append_left _
  have hprinted : ∀ l', l' ∈ (s.worker i).buffer ∨ l' = l → l' ∈ s.calls ++ [l] := by
    rintro l' (hl | rfl)
    · exact hcalls l' (hi.buffered l' hl)
    · exact List.mem_append_right _ List.mem_cons_self
  refine h.update rfl (congrArg (s.semval + ·) (if_congr ?_ rfl rfl)) id hcalls
    (fun _ => List.mem_append_left _) ?_ ?_ ?_
  · simp only [Worker.Arrived]
    omega
  · intro k hk hcalled
    rcases List.mem_append.mp hcalled with hcalled | hcalled
    · exact hcalled
    · -- the line of another worker
      have hval : k.val ≠ i.val := fun heq => hk (Fin.ext heq)
      rcases hline with ⟨-, rfl⟩ | ⟨-, rfl⟩ <;> simp [hval] at hcalled
  · rcases hline with ⟨hone, rfl⟩ | ⟨hfive, rfl⟩
    · -- `worker %d reached barrier`
      have hprint := (hmem (.reached (i + 1))).mpr (.inr rfl)
      refine ⟨halive, fun _ => ⟨hprinted _ (.inr rfl), ?_⟩, fun htwo => ?_, fun hfour => ?_,
        fun hcalled => ?_, fun l' hl => hprinted l' ((hmem l').mp (.inr hl))⟩
      · exact hprint.symm.imp_right (List.mem_append_right _)
      · exact absurd htwo (by simp [hone])
      · exact absurd hfour (by simp [hone])
      · rcases List.mem_append.mp hcalled with hcalled | hcalled
        · have hlate := hi.released hcalled
          omega
        · simp at hcalled
    · -- `worker %d released`: the first line has been written out
      have hfirst := hi.flushed (by omega)
      refine ⟨halive, fun _ => ⟨hcalls _ (h.output_subset _ hfirst), .inr ?_⟩, fun _ => ?_,
        fun _ => hi.opened (by omega), fun _ => hfive.ge,
        fun l' hl => hprinted l' ((hmem l').mp (.inr hl))⟩
      · exact List.mem_append_left _ hfirst
      · exact List.mem_append_left _ hfirst
  · intro l' hl
    rcases List.mem_append.mp hl with hl | hl
    · exact hcalls l' (h.output_subset l' hl)
    · exact hprinted l' ((hmem l').mp (.inl hl))

/-- A call of `fflush` keeps the invariant, and writes out the line of the call before it. -/
theorem Inv.fflush {next : WorkerPc} (h : Inv s)
    (hphase : next.phase = (s.worker i).pc.phase + 1) (halive : next ≠ .dieErrno)
    (hafter : (s.worker i).pc.phase = 1 ∨ (s.worker i).pc.phase = 5) :
    Inv (fflush s i next) := by
  have hi := h.ok i
  obtain ⟨hcalled, hbuffer⟩ := hi.reached (by omega)
  -- the first line was in the buffer or had been written, so now it is in the output
  have hwritten : .reached (i + 1) ∈ s.output ++ (s.worker i).buffer :=
    List.mem_append.mpr hbuffer.symm
  refine h.update rfl (congrArg (s.semval + ·) (if_congr ?_ rfl rfl)) id (fun _ => id)
    (fun _ => List.mem_append_left _) (fun _ _ => id) ?_ ?_
  · simp only [Worker.Arrived]
    omega
  · refine ⟨halive, fun _ => ⟨hcalled, .inr hwritten⟩, fun _ => hwritten,
      fun (hlate : 4 ≤ next.phase) => ?_, fun hreleased => ?_, nofun⟩
    · exact hi.opened (by omega)
    · have hlate := hi.released hreleased
      change 5 ≤ next.phase
      omega
  · intro l hl
    rcases List.mem_append.mp hl with hl | hl
    · exact h.output_subset l hl
    · exact hi.buffered l hl

/-- A step without output, after the first `fflush`, keeps the invariant. -/
theorem Inv.advance {w : Worker} (h : Inv s) (hworker : s'.worker = Function.update s.worker i w)
    (hcalls : s'.calls = s.calls) (houtput : s'.output = s.output)
    (hflushed : 2 ≤ (s.worker i).pc.phase) (hphase : (s.worker i).pc.phase ≤ w.pc.phase)
    (halive : w.pc ≠ .dieErrno) (hbuffer : ∀ l ∈ w.buffer, l ∈ (s.worker i).buffer)
    (hopened : 4 ≤ w.pc.phase → s'.semval = 0)
    (hsemval : s'.semval + (if w.Arrived then 1 else 0) =
      s.semval + if (s.worker i).Arrived then 1 else 0)
    (hzero : s.semval = 0 → s'.semval = 0) : Inv s' := by
  have hi := h.ok i
  have hfirst : .reached (i + 1) ∈ s'.output := houtput ▸ hi.flushed hflushed
  have hsubset : ∀ l ∈ s'.output, l ∈ s'.calls := by
    rw [houtput, hcalls]
    exact h.output_subset
  apply h.update hworker hsemval hzero
  · rw [hcalls]
    exact fun _ => id
  · rw [houtput]
    exact fun _ => id
  · rw [hcalls]
    exact fun _ _ => id
  · refine ⟨halive, fun _ => ⟨hsubset _ hfirst, .inr hfirst⟩, fun _ => hfirst, hopened,
      fun hreleased => ?_, fun l hl => ?_⟩
    · rw [hcalls] at hreleased
      exact (hi.released hreleased).trans hphase
    · rw [hcalls]
      exact hi.buffered l (hbuffer l hl)
  · exact hsubset

/-- A worker passes the wait when all have arrived, and they have printed before. -/
theorem Inv.workerStep (h : Inv s) (hn : n ≤ SysvSemaphore.semvmx)
    (hs : workerStep buffering s i = some s') : Inv s' := by
  unfold SysvSemaphoreSetBarrier.workerStep at hs
  rcases hpc : (s.worker i).pc <;>
    simp only [hpc, h.semop_change hn, semop_waitZero, Option.ite_none_right_eq_some,
      Option.some.injEq, reduceCtorEq] at hs
  case printfReached =>
    obtain rfl := hs
    apply h.printf <;> simp [hpc, WorkerPc.phase]
  case fflushReached =>
    obtain rfl := hs
    apply h.fflush <;> simp [hpc, WorkerPc.phase]
  case change =>
    obtain rfl := hs
    -- the worker takes its unit from the semaphore, which is not zero before
    have hpos := h.semval_ne_zero hpc
    have hunit : s.semval - 1 + 1 = s.semval := Nat.sub_add_cancel (Nat.pos_of_ne_zero hpos)
    refine h.advance rfl rfl rfl ?_ ?_ ?_ ?_ ?_ ?_ (fun hzero => absurd hzero hpos) <;>
      simp [hpc, WorkerPc.phase, Worker.Arrived, hunit]
  case waitZero =>
    obtain ⟨hzero, rfl⟩ := hs
    refine h.advance rfl rfl rfl ?_ ?_ ?_ ?_ ?_ ?_ ?_ <;>
      simp [hpc, WorkerPc.phase, Worker.Arrived, hzero]
  case printfReleased =>
    obtain rfl := hs
    apply h.printf <;> simp [hpc, WorkerPc.phase]
  case fflushReleased =>
    obtain rfl := hs
    apply h.fflush <;> simp [hpc, WorkerPc.phase]
  case exit =>
    obtain rfl := hs
    -- `_exit` discards a buffer that has been flushed, and the barrier stays open
    have hopened := (h.ok i).opened (by simp [hpc, WorkerPc.phase])
    refine h.advance rfl rfl rfl ?_ ?_ ?_ ?_ ?_ ?_ ?_ <;>
      simp [hpc, WorkerPc.phase, Worker.Arrived, hopened]
  case dieErrno => exact absurd hpc (h.ok i).alive

/-- The parent forks and removes the semaphores, and the workers do the rest. -/
theorem Inv.step {a : Action n} (h : Inv s) (hn : n ≤ SysvSemaphore.semvmx)
    (hs : step buffering s a = some s') : Inv s' := by
  rcases a with _ | i | _ <;>
    simp only [SysvSemaphoreSetBarrier.step, Option.ite_none_right_eq_some,
      Option.some.injEq] at hs
  · obtain ⟨-, rfl⟩ := hs
    exact ⟨h.semval_add, fun k => { h.ok k with }, h.output_subset⟩
  · exact h.workerStep hn hs.2
  · obtain ⟨-, rfl⟩ := hs
    exact ⟨h.semval_add, fun k => { h.ok k with }, h.output_subset⟩

/-- The invariant holds along every run. -/
theorem inv_of_reachable (hn : n ≤ SysvSemaphore.semvmx)
    (h : (system buffering).Reachable s) : Inv s :=
  h.invariant (Inv.init hn) fun _ _ _ hinv hs => hinv.step hn hs

/-! ## The order of the lines, and progress -/

/-- A worker that is released is past the wait, so that the semaphore is 0. -/
theorem Inv.synchronized (h : Inv s) : Synchronized s := by
  intro i hreleased k
  have hcalled : .released (i + 1) ∈ s.calls := hreleased.elim id (h.output_subset _)
  -- worker `i` has passed the wait, so the semaphore is zero, and worker `k` has decremented it
  have hpassed := (h.ok i).released hcalled
  have hzero := (h.ok i).opened (by omega)
  have harrived : 3 ≤ (s.worker k).pc.phase := h.arrived_of_semval_eq_zero hzero k
  exact ⟨((h.ok k).reached (by omega)).1, (h.ok k).flushed (by omega)⟩

/-- When all workers have decremented the semaphore, it is zero. -/
theorem Inv.semval_eq_zero (h : Inv s) (harrived : ∀ k, (s.worker k).Arrived) :
    s.semval = 0 := by
  have hsum := h.semval_add
  simp only [harrived, if_true, Finset.sum_const, Finset.card_univ, Fintype.card_fin,
    smul_eq_mul, mul_one] at hsum
  omega

/-- The workers that have no step are those that have exited and those that wait for a zero that is
still to come. -/
theorem Inv.blocked_of_workerStep_eq_none (h : Inv s) (hn : n ≤ SysvSemaphore.semvmx)
    (hs : SysvSemaphoreSetBarrier.workerStep buffering s i = none) :
    (s.worker i).pc = .exited ∨ ((s.worker i).pc = .waitZero ∧ s.semval ≠ 0) := by
  unfold SysvSemaphoreSetBarrier.workerStep at hs
  rcases hpc : (s.worker i).pc <;>
    simp only [hpc, h.semop_change hn, semop_waitZero, ite_eq_right_iff, reduceCtorEq,
      imp_false] at hs
  case waitZero => exact .inr ⟨rfl, hs⟩
  case exited => exact .inl rfl

/-- A worker waits only for workers that are on their way. -/
theorem Inv.not_deadlocked (h : Inv s) (hn : n ≤ SysvSemaphore.semvmx) :
    ¬Deadlocked buffering s := by
  rintro ⟨hexited, hstuck⟩
  have hfork := hstuck .fork
  simp only [system, SysvSemaphoreSetBarrier.step, ite_eq_right_iff, reduceCtorEq, imp_false,
    not_lt] at hfork
  have hblocked : ∀ k, (s.worker k).pc = .exited ∨
      ((s.worker k).pc = .waitZero ∧ s.semval ≠ 0) := by
    intro k
    have hk := hstuck (.worker k)
    simp only [system, SysvSemaphoreSetBarrier.step, if_pos (k.isLt.trans_le hfork)] at hk
    exact h.blocked_of_workerStep_eq_none hn hk
  -- so all workers have decremented the semaphore, and nobody waits for it
  have hzero : s.semval = 0 := by
    apply h.semval_eq_zero
    intro k
    rcases hblocked k with hpc | ⟨hpc, -⟩ <;> simp [Worker.Arrived, hpc, WorkerPc.phase]
  exact hexited fun k => (hblocked k).resolve_right fun hwait => hwait.2 hzero

end Inv

/-- In every interleaving of `n` workers, for either way of buffering: no worker prints that it is
released before all workers have printed that they have reached the barrier, and somebody can go on
until all workers have exited. The decrement does not block, and a worker at its wait goes on when
all workers have decremented the semaphore. -/
theorem barrier_correct {n : ℕ} (hn : n ≤ 32767) (buffering : Buffering) {s : State n}
    (h : (system buffering).Reachable s) :
    Synchronized s ∧ ¬Deadlocked buffering s ∧
      ∀ i, ((s.worker i).pc = .change → workerStep buffering s i ≠ none) ∧
        ((s.worker i).pc = .waitZero → (∀ k, (s.worker k).Arrived) →
          workerStep buffering s i ≠ none) := by
  have hinv := inv_of_reachable hn h
  refine ⟨hinv.synchronized, hinv.not_deadlocked hn, fun i => ⟨fun hpc hnone => ?_,
    fun hpc harrived hnone => ?_⟩⟩
  · rcases hinv.blocked_of_workerStep_eq_none hn hnone with hpc' | ⟨hpc', -⟩ <;>
      simp [hpc] at hpc'
  · rcases hinv.blocked_of_workerStep_eq_none hn hnone with hpc' | ⟨-, hne⟩
    · simp [hpc] at hpc'
    · exact hne (hinv.semval_eq_zero harrived)

/-- Two workers, up to the first released line. -/
theorem barrier_two_workers :
    ∃ s : State 2, (system .full).Reachable s ∧ .released 1 ∈ s.output ∧ .reached 2 ∈ s.output ∧
      ¬Deadlocked .full s := by
  have hrun : ((system .full).run ((system .full).init : State 2) [.fork, .worker 0, .worker 0,
      .worker 0, .fork, .worker 1, .worker 1, .worker 1, .worker 0, .worker 0, .worker 0]).map
        (fun s => s.output) = some [.reached 1, .reached 2, .released 1] := by decide
  obtain ⟨s, hs, houtput⟩ := Option.map_eq_some_iff.mp hrun
  have hreach := TransitionSystem.reachable_of_run hs
  have hreleased : .released 1 ∈ s.output := by simp [houtput]
  obtain ⟨hsync, hlive, -⟩ := barrier_correct (by decide) .full hreach
  exact ⟨s, hreach, hreleased, (hsync 0 (.inr hreleased) 1).2, hlive⟩

end SysvSemaphoreSetBarrier
