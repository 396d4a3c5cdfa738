import OsPrograms.Lib.Termination
import OsPrograms.MessageQueues.PriorityWorkersProgress

/-!
# Termination of `sysv_priority_workers`

With `not_deadlocked_of_reachable` somebody can always go on. Here it is shown that this comes to an
end, so that the parent gets to the end of `main` in every run.

The work that is left is counted where it is: a job that has not been sent, one that is in the
queue, one that a worker has in its hand, a result that the parent has not received (`State.rank`).

## Main results

- `rank_step`: every step does one of the things that were left.
- `square_overflows`: the last square of 46340 jobs is not what is printed.
- `workers_complete`: every run ends after `4 * (jobs + workers) + 2` steps at most, with all jobs
  reported and all workers exited.
-/

namespace SysvPriorityWorkers

open TransitionSystem

/-- The message is a job or a stop, for which a worker has two things to do. -/
def Message.isOrder (m : Message) : Bool :=
  match m.body with
  | .job _ _ => true
  | .result _ => false

/-- What is left because of what the parent has not yet done. A job and a stop count for the
parent's `msgsnd` and for the two steps of the worker. -/
def MainPc.rank (p : Config) : MainPc → ℕ
  | .fork i => p.workers + 1 - i + (4 * p.jobs + 3 * p.workers + 2)
  | .sendJob i => 3 * (p.jobs - i) + (p.jobs + 3 * p.workers + 2)
  | .receive i => p.jobs - i + (3 * p.workers + 2)
  | .sendStop i => 3 * (p.workers + 1 - i) + 2
  | .reap => 2
  | .rmid => 1
  | .done => 0

/-- What is left to do for a worker before its next `msgrcv`. -/
def Worker.rank (w : Worker) : ℕ :=
  match w.pc with
  | .send _ | .exit => 1
  | .unborn | .receive | .exited | .died => 0

/-- What is left to do. -/
def State.rank (p : Config) (s : State) : ℕ :=
  s.main.rank p + 2 * s.queue.countP Message.isOrder +
    ∑ t ∈ Finset.Icc 1 p.workers, (s.worker t).rank

section Rank

variable {p : Config} {s s' : State} {a : Action} {t i : ℕ} {m : Message} {queue : List Message}

/-- What is left before the stop for worker `i`. -/
theorem rank_stopTest (p : Config) (i : ℕ) :
    (stopTest p i).rank p = 3 * (p.workers + 1 - i) + 2 := by
  unfold stopTest
  split
  · rfl
  · simp only [MainPc.rank]
    omega

/-- What is left before the result of index `i` is received. -/
theorem rank_receiveTest (p : Config) (i : ℕ) :
    (receiveTest p i).rank p = p.jobs - i + (3 * p.workers + 2) := by
  unfold receiveTest
  split
  · rfl
  · rw [rank_stopTest]
    omega

/-- What is left before the job of index `i` is sent. -/
theorem rank_sendTest (p : Config) (i : ℕ) :
    (sendTest p i).rank p = 3 * (p.jobs - i) + (p.jobs + 3 * p.workers + 2) := by
  unfold sendTest
  split
  · rfl
  · rw [rank_receiveTest]
    omega

/-- What is left before worker `i` is forked. -/
theorem rank_forkTest (p : Config) (i : ℕ) :
    (forkTest p i).rank p = p.workers + 1 - i + (4 * p.jobs + 3 * p.workers + 2) := by
  unfold forkTest
  split
  · rfl
  · rw [rank_sendTest]
    omega

theorem Message.isOrder_of_isResultOf (h : m.isResultOf p t) : m.isOrder = false := by
  rcases m with ⟨type, _ | r⟩
  · simp [Message.isResultOf] at h
  · rfl

/-- A message of type 100 is a result. -/
theorem Inv.isOrder_of_receive (h : Inv p s)
    (hrcv : MessageQueue.receive Message.type 100 s.queue = some (m, queue)) :
    m.isOrder = false := by
  have htype := MessageQueue.type_of_receive hrcv
  have hworkers := p.workers_lt
  obtain hrange | ⟨t, -, -, hresult⟩ := h.queue_type m (MessageQueue.mem_of_receive hrcv)
  · omega
  · exact Message.isOrder_of_isResultOf hresult

/-- What the parent sends was counted for it before, and is counted in the queue now. -/
theorem rank_mainStep (h : Inv p s) (hs : mainStep p s = some s') : s'.rank p < s.rank p := by
  have hbound := h.bound
  unfold mainStep at hs
  cases hmain : s.main <;>
    simp only [hmain, Option.bind_eq_bind, Option.bind_eq_some_iff, Option.some.injEq,
      MessageQueue.send_eq_some_iff, Option.ite_none_right_eq_some, reduceCtorEq] at hs <;>
    simp only [hmain, MainPc.Bound] at hbound
  case fork i =>
    subst hs
    have hmem : i ∈ Finset.Icc 1 p.workers := Finset.mem_Icc.mpr hbound
    have hunborn : (s.worker i).pc = .unborn := h.unborn i (.inr (by rw [hmain]; exact le_rfl))
    have hsum := Finset.sum_update_add_of_mem Worker.rank s.worker hmem
      ⟨.receive, (s.worker i).consumed⟩
    have hold : (s.worker i).rank = 0 := by simp [Worker.rank, hunborn]
    have hnew : Worker.rank ⟨.receive, (s.worker i).consumed⟩ = 0 := rfl
    rw [hold, hnew, add_zero, add_zero] at hsum
    simp only [State.rank, rank_forkTest, hsum]
    rw [hmain, MainPc.rank]
    omega
  case sendJob i =>
    obtain ⟨queue, ⟨-, rfl⟩, rfl⟩ := hs
    have horder : (job p i).isOrder = true := rfl
    simp only [State.rank, rank_sendTest, List.countP_append, List.countP_singleton, horder,
      if_true]
    rw [hmain, MainPc.rank]
    omega
  case receive i =>
    obtain ⟨⟨m, queue⟩, hrcv, rfl⟩ := hs
    -- a result is no order, so none leaves the queue
    have hcount := MessageQueue.countP_of_receive (P := Message.isOrder) hrcv
    rw [h.isOrder_of_receive hrcv] at hcount
    simp only [State.rank, rank_receiveTest]
    rw [hmain, MainPc.rank]
    simp only [Bool.false_eq_true, if_false] at hcount
    omega
  case sendStop i =>
    obtain ⟨queue, ⟨-, rfl⟩, rfl⟩ := hs
    have horder : (stop i).isOrder = true := rfl
    simp only [State.rank, rank_stopTest, List.countP_append, List.countP_singleton, horder,
      if_true]
    rw [hmain, MainPc.rank]
    omega
  case reap =>
    obtain ⟨-, rfl⟩ := hs
    simp only [State.rank, hmain, MainPc.rank]
    omega
  case rmid =>
    subst hs
    simp only [State.rank, hmain, MainPc.rank]
    omega

/-- Of the two steps that a job or a stop costs, its worker makes one with each. -/
theorem rank_workerStep (h : Inv p s) (hs : workerStep p s t = some s') :
    s'.rank p < s.rank p := by
  unfold workerStep at hs
  have hmem (hborn : (s.worker t).pc ≠ .unborn) : t ∈ Finset.Icc 1 p.workers :=
    Finset.mem_Icc.mpr (h.range_of_born hborn)
  cases hpc : (s.worker t).pc <;>
    simp only [hpc, Option.bind_eq_bind, Option.bind_eq_some_iff, Option.some.injEq,
      MessageQueue.send_eq_some_iff, reduceCtorEq] at hs
  case receive =>
    obtain ⟨⟨m, queue⟩, hrcv, hs⟩ := hs
    obtain ⟨⟨jobId, value, hbody⟩, -⟩ := h.worker_receives hpc hrcv
    simp only [hbody, Option.some.injEq] at hs
    subst hs
    have hcount := MessageQueue.countP_of_receive (P := Message.isOrder) hrcv
    have horder : m.isOrder = true := by simp [Message.isOrder, hbody]
    rw [horder, if_pos rfl] at hcount
    have hsum := Finset.sum_update_add_of_mem Worker.rank s.worker (hmem (by simp [hpc]))
      { pc := if jobId < 0 then .exit else .send (result p t jobId value)
        consumed := (s.worker t).consumed ++ [m] }
    have hold : (s.worker t).rank = 0 := by simp [Worker.rank, hpc]
    -- the order leaves the queue, and one of its two steps is left
    have hnew : Worker.rank
        { pc := if jobId < 0 then .exit else .send (result p t jobId value)
          consumed := (s.worker t).consumed ++ [m] } = 1 := by
      by_cases hneg : jobId < 0 <;> simp [Worker.rank, hneg]
    simp only [State.rank]
    omega
  case send m =>
    obtain ⟨queue, ⟨-, rfl⟩, rfl⟩ := hs
    have hsum := Finset.sum_update_add_of_mem Worker.rank s.worker (hmem (by simp [hpc]))
      ⟨.receive, (s.worker t).consumed⟩
    have hold : (s.worker t).rank = 1 := by simp [Worker.rank, hpc]
    have hnew : Worker.rank ⟨.receive, (s.worker t).consumed⟩ = 0 := rfl
    rw [hold, hnew, add_zero] at hsum
    have horder := Message.isOrder_of_isResultOf (h.in_hand t m hpc)
    simp only [State.rank, List.countP_append, List.countP_singleton, horder, Bool.false_eq_true,
      if_false]
    omega
  case exit =>
    subst hs
    have hsum := Finset.sum_update_add_of_mem Worker.rank s.worker (hmem (by simp [hpc]))
      ⟨.exited, (s.worker t).consumed⟩
    have hold : (s.worker t).rank = 1 := by simp [Worker.rank, hpc]
    have hnew : Worker.rank ⟨.exited, (s.worker t).consumed⟩ = 0 := rfl
    rw [hold, hnew, add_zero] at hsum
    simp only [State.rank]
    omega

/-- Every step leaves less to do. -/
theorem rank_step (h : (system p).Reachable s) (hs : (system p).step s a = some s') :
    s'.rank p < s.rank p := by
  have hinv := inv_of_reachable h
  cases a with
  | main => exact rank_mainStep hinv hs
  | worker t => exact rank_workerStep hinv hs

/-- A run that cannot go on is at the end of `main`. -/
theorem done_of_stuck (hjobs : 24 * p.jobs ≤ p.capacity) (hstop : 8 ≤ p.capacity)
    (h : (system p).Reachable s) (hstuck : (system p).Stuck s) : s.main = .done := by
  obtain ⟨hinv, hacc⟩ := accounts_of_reachable h
  have hpassed : s.main = .rmid ∨ s.main = .done := by
    by_contra hnot
    exact hacc.not_deadlocked hinv hjobs hstop ⟨hnot, hstuck⟩
  refine hpassed.resolve_left fun hrmid => ?_
  have hnone : mainStep p s = none := hstuck .main
  simp [mainStep, hrmid] at hnone

/-- If the queue has enough room, there is a run in which every job is reported. -/
theorem exists_report (hjobs : 24 * p.jobs ≤ p.capacity) (hstop : 8 ≤ p.capacity)
    (hi : i < p.jobs) : ∃ s, (system p).Reachable s ∧ resultFor p i ∈ s.received := by
  obtain ⟨s, hs, hstuck⟩ := Reachable.exists_stuck (State.rank p)
    (fun _ _ _ h hstep => rank_step h hstep) (.init : (system p).Reachable (system p).init)
  have hinv := inv_of_reachable hs
  refine ⟨s, hs, ?_⟩
  have hall : s.received.length = p.jobs := by
    rw [hinv.received_length, done_of_stuck hjobs hstop hs hstuck]
    rfl
  have hid : (i : ℤ) + 1 ∈ s.received.map Message.jobId := by
    rw [(hinv.complete hall).mem_iff]
    exact List.mem_map.mpr ⟨i, List.mem_range.mpr hi, rfl⟩
  obtain ⟨m, hm, hjob⟩ := List.mem_map.mp hid
  -- the message with this id is the result of this job
  obtain ⟨k, hk, rfl⟩ := hinv.mem_received hm
  have hkid : (resultFor p k).jobId = k + 1 := rfl
  have hki : k = i := by omega
  exact hki ▸ hm

end Rank

/-- The program with more jobs, and a queue in which there is room for them. -/
def manyJobs : Config where
  workers := 3
  jobs := 46340
  capacity := 24 * 46340
  pid := fun t => 4000 + t
  one_le_workers := by decide
  workers_lt := by decide
  jobs_lt := by decide

/-- With 46340 jobs the last value is 46341, and its square does not fit an `int`. -/
theorem square_overflows : ∃ s, (system manyJobs).Reachable s ∧
    ∃ m ∈ s.received, m.body = .result
      { jobId := 46340, value := 46341, result := -2147479015, pid := 4002 } ∧
      (-2147479015 : ℤ) ≠ 46341 * 46341 := by
  obtain ⟨s, hs, hm⟩ : ∃ s, (system manyJobs).Reachable s ∧ resultFor manyJobs 46339 ∈ s.received :=
    exists_report (by decide) (by decide) (by decide)
  refine ⟨s, hs, _, hm, ?_, by decide⟩
  show Body.result _ = Body.result _
  congr 1

/-- If the queue has room for the results of all jobs and for one stop, every run ends: after
`4 * (jobs + workers) + 2` steps at most the parent is at the end of `main`, has received one result
for each job, and all workers have exited. -/
theorem workers_complete (p : Config) (hjobs : 24 * p.jobs ≤ p.capacity)
    (hstop : 8 ≤ p.capacity) :
    (∀ as s, (system p).run (init p) as = some s → as.length ≤ 4 * (p.jobs + p.workers) + 2) ∧
      ∀ s, (system p).Reachable s → (system p).Stuck s → s.main = .done ∧
        (s.received.map Message.jobId).Perm ((List.range p.jobs).map fun i : ℕ => (i : ℤ) + 1) ∧
        ∀ t, 1 ≤ t → t ≤ p.workers → (s.worker t).pc = .exited := by
  refine ⟨fun as s hrun => ?_, fun s hs hstuck => ?_⟩
  · have hle := Reachable.length_run_le
      (fun s a s' h (hstep : (system p).step s a = some s') => rank_step h hstep) .init hrun
    have hinit : (init p).rank p = 4 * (p.jobs + p.workers) + 2 := by
      simp only [State.rank, init, rank_forkTest, Worker.rank, List.countP_nil,
        Finset.sum_const_zero]
      omega
    have hbound : as.length + s.rank p ≤ (init p).rank p := hle
    omega
  · have hinv := inv_of_reachable hs
    have hdone := done_of_stuck hjobs hstop hs hstuck
    refine ⟨hdone, hinv.complete ?_, fun t ht htw => ?_⟩
    · rw [hinv.received_length, hdone]
      rfl
    · refine (hinv.reaped (.inr hdone) t ht htw).resolve_left fun hexit => ?_
      have hnone : workerStep p s t = none := hstuck (.worker t)
      simp [workerStep, hexit] at hnone

/-- Two workers and two jobs: every run has 18 steps at most. -/
theorem workers_complete_two_jobs :
    (24 * twoJobs.jobs ≤ twoJobs.capacity ∧ 8 ≤ twoJobs.capacity) ∧
      ∀ as s, (system twoJobs).run (init twoJobs) as = some s → as.length ≤ 18 :=
  ⟨by decide, (workers_complete twoJobs (by decide) (by decide)).1⟩

end SysvPriorityWorkers
