import Mathlib.Order.Interval.Finset.Nat
import OsPrograms.MessageQueues.PriorityWorkersReports

/-!
# Progress of `sysv_priority_workers`

Jobs, results and stops share the bytes of one queue, and `msgsnd` blocks while a message does not
fit. A worker that waits to send a result does not receive, so a queue that is full of jobs could
block everybody. This cannot happen when there is room for the results of all jobs.

* `Accounts`: each job that has been sent is in the queue, as it is or as its result, in the hand of
  a worker, or its result has been received. So the queue holds no more messages than there are
  jobs, until stops are sent.
* `Inv.stops_eq_queue`: a stop that has been sent is in the queue until its worker has received it.
* `not_deadlocked_of_reachable`: until the parent has passed `reap_all_children`, somebody can take
  a step.
-/

namespace SysvPriorityWorkers

/-- The parent has not passed `reap_all_children`, and nobody can take a step. -/
def Deadlocked (p : Config) (s : State) : Prop :=
  ¬(s.main = .rmid ∨ s.main = .done) ∧ (system p).Stuck s

/-- The message is a job or a result. -/
def Message.isWork (m : Message) : Bool :=
  !m.isStop

/-- Where the workers and the jobs are. -/
structure Accounts (p : Config) (s : State) : Prop where
  born : ∀ t, 1 ≤ t → t < s.main.nextFork p → (s.worker t).pc ≠ .unborn
  work_eq : s.queue.countP Message.isWork +
    ∑ t ∈ Finset.Icc 1 p.workers, (s.worker t).inHand.length + s.received.length =
      s.main.jobsSent p

/-! ## The accounts are kept -/

section Accounts

variable {p : Config} {s s' : State} {t : ℕ} {m : Message}

/-- A result is not a stop. -/
theorem Message.isWork_of_isResultOf (h : m.isResultOf p t) : m.isWork := by
  rcases m with ⟨type, _ | r⟩
  · simp [Message.isResultOf] at h
  · rfl

/-- A job is not a stop. -/
theorem isWork_job {i : ℕ} (hi : i < p.jobs) : (job p i).isWork := by
  simp [Message.isWork, not_isStop_job hi]

theorem isWork_stop (t : ℕ) : (stop t).isWork = false :=
  rfl

theorem Accounts.init : Accounts p (init p) := by
  have hat := forkTest_at (p := p) (i := 1) le_rfl (Nat.le_add_left _ _)
  refine ⟨fun t ht hlt => ?_, ?_⟩
  · have hfork : t < 1 := lt_of_lt_of_eq hlt hat.nextFork
    omega
  · simp [SysvPriorityWorkers.init, hat.jobsSent, Worker.inHand]

/-- The parent takes a step that changes no worker. -/
theorem Accounts.main_moves {queue received : List Message} {pc : MainPc} (h : Accounts p s)
    (hfork : pc.nextFork p = s.main.nextFork p)
    (hwork : queue.countP Message.isWork + received.length + s.main.jobsSent p =
      s.queue.countP Message.isWork + s.received.length + pc.jobsSent p) :
    Accounts p { s with queue := queue, main := pc, received := received } where
  born := by
    rw [hfork]
    exact h.born
  work_eq := by
    have heq := h.work_eq
    dsimp only
    omega

/-- The worker of type `t` changes to `w`, and the queue to `queue`. -/
theorem Accounts.update_worker {w : Worker} {queue : List Message} (h : Accounts p s)
    (ht : 1 ≤ t ∧ t ≤ p.workers) (hborn : w.pc ≠ .unborn)
    (hwork : queue.countP Message.isWork + w.inHand.length =
      s.queue.countP Message.isWork + (s.worker t).inHand.length) :
    Accounts p { s with queue := queue, worker := Function.update s.worker t w } where
  born t' ht' hlt' := by
    dsimp only
    by_cases htt : t' = t
    · rw [htt, Function.update_self]
      exact hborn
    · rw [Function.update_of_ne htt]
      exact h.born t' ht' hlt'
  work_eq := by
    have heq := h.work_eq
    have hsum := Finset.sum_update_add_of_mem (fun w : Worker => w.inHand.length) s.worker
      (Finset.mem_Icc.mpr ht) w
    dsimp only at hsum ⊢
    omega

/-- A job that the parent sends is new, and a result that it receives was in the queue. -/
theorem Accounts.mainStep (h : Accounts p s) (hinv : Inv p s) (hs : mainStep p s = some s') :
    Accounts p s' := by
  have hbound := hinv.bound
  unfold SysvPriorityWorkers.mainStep at hs
  rcases hmain : s.main <;>
    simp only [hmain, Option.bind_eq_bind, Option.bind_eq_some_iff, Option.some.injEq,
      MessageQueue.send_eq_some_iff, Option.ite_none_right_eq_some, reduceCtorEq] at hs <;>
    simp only [hmain, MainPc.Bound] at hbound
  case fork i =>
    obtain rfl := hs
    have hold : s.main.At p 0 0 0 i := hmain ▸ at_fork hbound
    have hnew := forkTest_at (p := p) (i := i + 1) (Nat.le_add_left _ _)
      (Nat.succ_le_succ hbound.2)
    have hunborn : (s.worker i).pc = .unborn := hinv.unborn i (.inr hold.nextFork.le)
    refine ⟨fun t ht hlt => ?_, ?_⟩
    · rw [hnew.nextFork] at hlt
      dsimp only
      by_cases hti : t = i
      · simp [hti]
      · rw [Function.update_of_ne hti]
        exact h.born t ht (by rw [hold.nextFork]; omega)
    · -- neither the unborn nor the new worker has a result in its hand
      have hsum := Finset.sum_update_add_of_mem (fun w : Worker => w.inHand.length) s.worker
        (Finset.mem_Icc.mpr hbound) { s.worker i with pc := .receive }
      have heq := h.work_eq
      rw [hold.jobsSent] at heq
      simp only [Worker.inHand, hunborn, List.length_nil] at hsum
      rw [hnew.jobsSent]
      simp only [Worker.inHand] at heq ⊢
      omega
  case sendJob i =>
    obtain ⟨queue, ⟨-, rfl⟩, rfl⟩ := hs
    have hnew := sendTest_at (p := p) (i := i + 1) hbound
    apply h.main_moves
    · rw [hnew.nextFork, hmain]
      rfl
    · rw [hnew.jobsSent, hmain, List.countP_append, List.countP_singleton,
        if_pos (isWork_job hbound)]
      show _ + i = _
      omega
  case receive i =>
    obtain ⟨⟨m, queue⟩, hrcv, rfl⟩ := hs
    have hnew := receiveTest_at (p := p) (i := i + 1) hbound
    have hcount := MessageQueue.countP_of_receive (P := Message.isWork) hrcv
    -- a message of type 100 is a result
    have hwork : m.isWork := by
      have htype := MessageQueue.type_of_receive hrcv
      have hworkers := p.workers_lt
      rcases hinv.queue_type m (MessageQueue.mem_of_receive hrcv) with hrange | ⟨t, -, -, hres⟩
      · omega
      · exact Message.isWork_of_isResultOf hres
    rw [if_pos hwork] at hcount
    apply h.main_moves
    · rw [hnew.nextFork, hmain]
      rfl
    · rw [hnew.jobsSent, hmain, hcount, List.length_append]
      show _ + p.jobs = _
      simp only [List.length_singleton]
      omega
  case sendStop i =>
    obtain ⟨queue, ⟨-, rfl⟩, rfl⟩ := hs
    have hnew := stopTest_at (p := p) (i := i + 1) (Nat.le_add_left _ _)
      (Nat.succ_le_succ hbound.2)
    apply h.main_moves
    · rw [hnew.nextFork, hmain]
      rfl
    · rw [hnew.jobsSent, hmain, List.countP_append, List.countP_singleton, isWork_stop]
      rfl
  case reap =>
    obtain ⟨-, rfl⟩ := hs
    apply h.main_moves <;> rw [hmain] <;> rfl
  case rmid =>
    obtain rfl := hs
    apply h.main_moves <;> rw [hmain] <;> rfl

/-- A job that a worker receives goes from the queue to its hand, and its result goes back. -/
theorem Accounts.workerStep (h : Accounts p s) (hinv : Inv p s)
    (hs : workerStep p s t = some s') : Accounts p s' := by
  unfold SysvPriorityWorkers.workerStep at hs
  rcases hpc : (s.worker t).pc <;>
    simp only [hpc, Option.bind_eq_bind, Option.bind_eq_some_iff, Option.some.injEq,
      MessageQueue.send_eq_some_iff, reduceCtorEq] at hs
  case receive =>
    have hrange := hinv.range_of_born (t := t) (by simp [hpc])
    obtain ⟨⟨m, queue⟩, hrcv, hs⟩ := hs
    obtain ⟨⟨jobId, value, hbody⟩, -⟩ := hinv.worker_receives hpc hrcv
    simp only [hbody, Option.some.injEq] at hs
    obtain rfl := hs
    -- a job moves from the queue into the hand of the worker, as its result
    have hcount := MessageQueue.countP_of_receive (P := Message.isWork) hrcv
    by_cases hneg : jobId < 0
    · refine h.update_worker hrange (by simp [hneg]) ?_
      simp [hcount, Worker.inHand, hpc, hneg, Message.isWork, Message.isStop, hbody]
    · refine h.update_worker hrange (by simp [hneg]) ?_
      simp [hcount, Worker.inHand, hpc, hneg, Message.isWork, Message.isStop, hbody]
  case send m =>
    have hrange := hinv.range_of_born (t := t) (by simp [hpc])
    obtain ⟨queue, ⟨-, rfl⟩, rfl⟩ := hs
    refine h.update_worker hrange (by simp) ?_
    have hwork := Message.isWork_of_isResultOf (hinv.in_hand t m hpc)
    simp [List.countP_append, Worker.inHand, hpc, hwork]
  case exit =>
    have hrange := hinv.range_of_born (t := t) (by simp [hpc])
    obtain rfl := hs
    refine h.update_worker hrange (by simp) ?_
    simp [Worker.inHand, hpc]

/-- The accounts are kept along every run. -/
theorem accounts_of_reachable (h : (system p).Reachable s) : Inv p s ∧ Accounts p s := by
  apply h.invariant (P := fun s => Inv p s ∧ Accounts p s)
  · exact ⟨Inv.init, Accounts.init⟩
  · rintro s a s' ⟨hinv, hacc⟩ hs
    rcases a with _ | t
    · exact ⟨hinv.mainStep hs, hacc.mainStep hinv hs⟩
    · exact ⟨hinv.workerStep hs, hacc.workerStep hinv hs⟩

end Accounts

/-! ## Where the stops are -/

section Stops

variable {p : Config} {s : State} {t : ℕ}

/-- A worker is sent its stop once. -/
theorem countP_isStop_sent {pc : MainPc} (hbound : pc.Bound p) (ht : 1 ≤ t) :
    ((pc.sent p).filter (·.type = t)).countP Message.isStop =
      if t ≤ pc.stopsSent p then 1 else 0 := by
  have hjobs : (((List.range (pc.jobsSent p)).map (job p)).filter (·.type = t)).countP
      Message.isStop = 0 := by
    refine List.countP_eq_zero.mpr fun m hm => ?_
    obtain ⟨i, hi, rfl⟩ := List.mem_map.mp (List.mem_filter.mp hm).1
    simp [not_isStop_job ((List.mem_range.mp hi).trans_le hbound.jobsSent_le)]
  rw [MainPc.sent, List.filter_append, List.countP_append, hjobs, filter_stops ht, zero_add]
  split_ifs <;> rfl

/-- A stop that has been sent is in the queue until its worker has received it. -/
theorem Inv.stops_eq_queue (h : Inv p s) (ht : 1 ≤ t) (htw : t ≤ p.workers) :
    (if (s.worker t).Stopped then 1 else 0) +
      (s.queue.filter (·.type = t)).countP Message.isStop =
        if t ≤ s.main.stopsSent p then 1 else 0 := by
  rw [← h.stops_eq t, ← List.countP_append, h.jobs_eq t ht htw]
  exact countP_isStop_sent h.bound ht

/-- Before the first stop is sent, the queue holds jobs and results only. -/
theorem Inv.isWork_of_mem_queue (h : Inv p s) (hnone : s.main.stopsSent p = 0) {m : Message}
    (hm : m ∈ s.queue) : m.isWork := by
  rcases h.queue_type m hm with ⟨hone, hle⟩ | ⟨t, -, -, hres⟩
  · have hsent := h.mem_sent_of_mem_queue hm hone hle
    rw [MainPc.sent, hnone] at hsent
    simp only [List.range'_zero, List.map_nil, List.append_nil, List.mem_map,
      List.mem_range] at hsent
    obtain ⟨i, hi, rfl⟩ := hsent
    exact isWork_job (hi.trans_le h.bound.jobsSent_le)
  · exact Message.isWork_of_isResultOf hres

end Stops

/-! ## Somebody can go on -/

section NotDeadlocked

variable {p : Config} {s : State} {t : ℕ}

/-- No message is larger than a result. -/
theorem Message.size_le (m : Message) : m.size ≤ 24 := by
  rcases m with ⟨type, _ | _⟩
  · show 8 ≤ 24
    decide
  · exact le_rfl

/-- The workers that have no step: those that have exited, those that wait for a message of their
type and those that wait until their result fits. -/
theorem blocked_of_workerStep_eq_none (hs : workerStep p s t = none)
    (hborn : (s.worker t).pc ≠ .unborn) (halive : (s.worker t).pc ≠ .died) :
    (s.worker t).pc = .exited ∨
      ((s.worker t).pc = .receive ∧ ∀ m ∈ s.queue, m.type ≠ t) ∨
      ∃ m, (s.worker t).pc = .send m ∧
        p.capacity < MessageQueue.bytes Message.size s.queue + m.size := by
  unfold workerStep at hs
  rcases hpc : (s.worker t).pc <;>
    simp only [hpc, Option.bind_eq_bind, Option.bind_eq_none_iff, reduceCtorEq, imp_false] at hs
  case unborn => exact absurd hpc hborn
  case receive =>
    refine .inr (.inl ⟨rfl, MessageQueue.receive_eq_none_iff.mp ?_⟩)
    refine Option.eq_none_iff_forall_ne_some.mpr fun ⟨m, queue⟩ hrcv => ?_
    have hnone := hs (m, queue) hrcv
    rcases m with ⟨type, _ | _⟩ <;> cases hnone
  case send m =>
    refine .inr (.inr ⟨m, rfl, MessageQueue.send_eq_none_iff.mp ?_⟩)
    exact Option.eq_none_iff_forall_ne_some.mpr hs
  case exited => exact .inl rfl
  case died => exact absurd hpc halive

/-- Until stops are sent, there is room for one more message of a job. -/
theorem Accounts.fits (h : Accounts p s) (hinv : Inv p s) (hnone : s.main.stopsSent p = 0)
    (hjobs : 24 * p.jobs ≤ p.capacity)
    (hlt : s.main.jobsSent p < p.jobs ∨ ∃ t ∈ Finset.Icc 1 p.workers, (s.worker t).inHand ≠ []) :
    MessageQueue.bytes Message.size s.queue + 24 ≤ p.capacity := by
  have hbytes := MessageQueue.bytes_le_mul_length (q := s.queue) fun m _ => m.size_le
  have heq := h.work_eq
  rw [List.countP_eq_length.mpr fun m hm => hinv.isWork_of_mem_queue hnone hm] at heq
  have hle := hinv.bound.jobsSent_le
  have hlength : s.queue.length + 1 ≤ p.jobs := by
    rcases hlt with hlt | ⟨t, ht, hhand⟩
    · omega
    · -- the job of the result that a worker has in its hand is not in the queue
      have hpos := List.length_pos_of_ne_nil hhand
      have hsplit := Finset.add_sum_erase _ (fun t => (s.worker t).inHand.length) ht
      omega
  omega

/-- When all results have been received, no job is left anywhere. -/
theorem Accounts.no_work (h : Accounts p s) (hreceived : s.received.length = p.jobs)
    (hsent : s.main.jobsSent p = p.jobs) :
    (∀ m ∈ s.queue, m.isStop) ∧ ∀ t, 1 ≤ t → t ≤ p.workers → (s.worker t).inHand = [] := by
  have heq := h.work_eq
  rw [hreceived, hsent] at heq
  constructor
  · intro m hm
    have hzero : s.queue.countP Message.isWork = 0 := by omega
    have hwork := List.countP_eq_zero.mp hzero m hm
    simpa [Message.isWork] using hwork
  · intro t ht htw
    have hsplit := Finset.add_sum_erase _ (fun t => (s.worker t).inHand.length)
      (Finset.mem_Icc.mpr ⟨ht, htw⟩)
    exact List.eq_nil_of_length_eq_zero (by omega)

/-- While the parent waits for results, it can receive one, or a worker can go on. -/
theorem Accounts.not_stuck_receive {i : ℕ} (h : Accounts p s) (hinv : Inv p s)
    (hjobs : 24 * p.jobs ≤ p.capacity) (hmain : s.main = .receive i) :
    ¬(system p).Stuck s := by
  intro hstuck
  have hbound : i < p.jobs := by simpa [hmain, MainPc.Bound] using hinv.bound
  have hnone : s.main.stopsSent p = 0 := by rw [hmain]; rfl
  -- no worker has anything in its hand, because its result would fit
  have hworker : ∀ t, 1 ≤ t → t ≤ p.workers →
      (s.worker t).inHand = [] ∧ ∀ m ∈ s.queue, m.type ≠ t := by
    intro t ht htw
    have hborn := h.born t ht (by rw [hmain]; exact Nat.lt_succ_of_le htw)
    rcases blocked_of_workerStep_eq_none (hstuck (.worker t)) hborn (hinv.alive t) with
      hpc | ⟨hpc, hqueue⟩ | ⟨m, hpc, hfull⟩
    · -- no worker has been stopped
      have hstops := hinv.stops_eq_queue ht htw
      have hstopped : (s.worker t).Stopped := .inr hpc
      have hle : ¬t ≤ s.main.stopsSent p := by omega
      rw [if_pos hstopped, if_neg hle] at hstops
      omega
    · exact ⟨by simp [Worker.inHand, hpc], hqueue⟩
    · have hhand : (s.worker t).inHand ≠ [] := by simp [Worker.inHand, hpc]
      have hfits := h.fits hinv hnone hjobs (.inr ⟨t, Finset.mem_Icc.mpr ⟨ht, htw⟩, hhand⟩)
      have hsize := m.size_le
      omega
  have hresult : ∀ m ∈ s.queue, m.type ≠ 100 := by
    have hreceive : SysvPriorityWorkers.mainStep p s = none := hstuck .main
    simp only [SysvPriorityWorkers.mainStep, hmain, Option.bind_eq_bind, Option.bind_eq_none_iff,
      reduceCtorEq, imp_false] at hreceive
    exact MessageQueue.receive_eq_none_iff.mp (Option.eq_none_iff_forall_ne_some.mpr hreceive)
  -- so the queue is empty, and all results have been received
  have hempty : s.queue = [] := by
    refine List.eq_nil_iff_forall_not_mem.mpr fun m hm => ?_
    rcases hinv.queue_type m hm with ⟨hone, hle⟩ | ⟨t, -, -, hres⟩
    · exact (hworker m.type hone hle).2 m hm rfl
    · exact hresult m hm (Message.type_of_isResultOf hres)
  have heq := h.work_eq
  have hhand : ∑ t ∈ Finset.Icc 1 p.workers, (s.worker t).inHand.length = 0 := by
    refine Finset.sum_eq_zero fun t ht => ?_
    obtain ⟨hone, hle⟩ := Finset.mem_Icc.mp ht
    rw [(hworker t hone hle).1]
    rfl
  rw [hempty, hhand, hinv.received_length, hmain] at heq
  simp only [List.countP_nil, MainPc.resultsReceived, MainPc.jobsSent] at heq
  omega

/-- When all results have been received and no worker can go on, the queue is empty. -/
theorem Accounts.queue_eq_nil (h : Accounts p s) (hinv : Inv p s)
    (hreceived : s.received.length = p.jobs) (hsent : s.main.jobsSent p = p.jobs)
    (hfork : s.main.nextFork p = p.workers + 1)
    (hstuck : ∀ t, SysvPriorityWorkers.workerStep p s t = none) : s.queue = [] := by
  obtain ⟨hstop, hhand⟩ := h.no_work hreceived hsent
  refine List.eq_nil_iff_forall_not_mem.mpr fun m hm => ?_
  rcases hinv.queue_type m hm with ⟨hone, hle⟩ | ⟨t, -, -, hres⟩
  · have hborn := h.born m.type hone (by rw [hfork]; exact Nat.lt_succ_of_le hle)
    rcases blocked_of_workerStep_eq_none (hstuck m.type) hborn (hinv.alive m.type) with
      hpc | ⟨-, hqueue⟩ | ⟨m', hpc, -⟩
    · -- the worker has received the only stop it is sent
      have hstops := hinv.stops_eq_queue hone hle
      have hstopped : (s.worker m.type).Stopped := .inr hpc
      have hpos : 0 < (s.queue.filter (·.type = m.type)).countP Message.isStop :=
        List.countP_pos_iff.mpr ⟨m, by simpa using hm, hstop m hm⟩
      rw [if_pos hstopped] at hstops
      split_ifs at hstops <;> omega
    · exact hqueue m hm rfl
    · have hempty := hhand m.type hone hle
      simp [Worker.inHand, hpc] at hempty
  · have hwork := Message.isWork_of_isResultOf hres
    simp [Message.isWork, hstop m hm] at hwork

/-- While the parent sends stops, it can send one, or a worker can go on. -/
theorem Accounts.not_stuck_sendStop {i : ℕ} (h : Accounts p s) (hinv : Inv p s)
    (hstop : 8 ≤ p.capacity) (hmain : s.main = .sendStop i) : ¬(system p).Stuck s := by
  intro hstuck
  have hempty : s.queue = [] := by
    apply h.queue_eq_nil hinv
    · rw [hinv.received_length, hmain]
      rfl
    · rw [hmain]
      rfl
    · rw [hmain]
      rfl
    · exact fun t => hstuck (.worker t)
  have hsend : SysvPriorityWorkers.mainStep p s = none := hstuck .main
  simp only [SysvPriorityWorkers.mainStep, hmain, hempty, MessageQueue.send, MessageQueue.bytes,
    Message.size, stop, List.foldr_nil, zero_add, if_pos hstop] at hsend
  cases hsend

/-- While the parent waits for the workers, one of them can go on, or all have exited. -/
theorem Accounts.not_stuck_reap (h : Accounts p s) (hinv : Inv p s) (hmain : s.main = .reap) :
    ¬(system p).Stuck s := by
  intro hstuck
  have hfork : s.main.nextFork p = p.workers + 1 := by rw [hmain]; rfl
  have hempty : s.queue = [] := by
    apply h.queue_eq_nil hinv
    · rw [hinv.received_length, hmain]
      rfl
    · rw [hmain]
      rfl
    · exact hfork
    · exact fun t => hstuck (.worker t)
  have hreap : SysvPriorityWorkers.mainStep p s = none := hstuck .main
  simp only [SysvPriorityWorkers.mainStep, hmain, ite_eq_right_iff, reduceCtorEq,
    imp_false] at hreap
  apply hreap
  intro t ht
  obtain ⟨hone, hlt⟩ := List.mem_range'_1.mp ht
  have hle : t ≤ p.workers := by omega
  -- the stop of the worker has been sent and is not in the queue, so the worker has received it
  have hstopped : (s.worker t).Stopped := by
    have hstops := hinv.stops_eq_queue hone hle
    have hsent : t ≤ s.main.stopsSent p := by rw [hmain]; exact hle
    rw [hempty, if_pos hsent] at hstops
    by_contra hnot
    rw [if_neg hnot] at hstops
    cases hstops
  have hborn := h.born t hone (by rw [hfork]; exact Nat.lt_succ_of_le hle)
  rcases blocked_of_workerStep_eq_none (hstuck (.worker t)) hborn (hinv.alive t) with
    hpc | ⟨hpc, -⟩ | ⟨m, hpc, -⟩
  · exact .inl hpc
  · simp [Worker.Stopped, hpc] at hstopped
  · simp [Worker.Stopped, hpc] at hstopped

/-- With room for the results of all jobs, somebody can go on. -/
theorem Accounts.not_deadlocked (h : Accounts p s) (hinv : Inv p s)
    (hjobs : 24 * p.jobs ≤ p.capacity) (hstop : 8 ≤ p.capacity) : ¬Deadlocked p s := by
  rintro ⟨hpassed, hstuck⟩
  have hnone : SysvPriorityWorkers.mainStep p s = none := hstuck .main
  rcases hmain : s.main with i | i | i | i | _ | _ | _
  · simp [SysvPriorityWorkers.mainStep, hmain] at hnone
  · -- there is room for the next job
    have hbound : i < p.jobs := by simpa [hmain, MainPc.Bound] using hinv.bound
    have hfits := h.fits hinv (by rw [hmain]; rfl) hjobs (.inl (by rw [hmain]; exact hbound))
    have hsize : (job p i).size = 8 := rfl
    simp only [SysvPriorityWorkers.mainStep, hmain, MessageQueue.send, hsize] at hnone
    rw [if_pos (by omega)] at hnone
    cases hnone
  · exact h.not_stuck_receive hinv hjobs hmain hstuck
  · exact h.not_stuck_sendStop hinv hstop hmain hstuck
  · exact h.not_stuck_reap hinv hmain hstuck
  · exact hpassed (.inl hmain)
  · exact hpassed (.inr hmain)

end NotDeadlocked

/-- If the queue has room for the results of all jobs and for one stop, then in every interleaving
somebody can take a step until the parent has passed `reap_all_children`. -/
theorem not_deadlocked_of_reachable (p : Config) (hjobs : 24 * p.jobs ≤ p.capacity)
    (hstop : 8 ≤ p.capacity) {s : State} (h : (system p).Reachable s) : ¬Deadlocked p s := by
  obtain ⟨hinv, hacc⟩ := accounts_of_reachable h
  exact hacc.not_deadlocked hinv hjobs hstop

/-- Two workers and two jobs, when both workers have a result in their hands and the parent
waits. -/
theorem not_deadlocked_two_jobs :
    ∃ s, (system twoJobs).Reachable s ∧ s.main = .receive 0 ∧ s.queue = [] ∧
      ¬Deadlocked twoJobs s := by
  have hrun : ((system twoJobs).run (system twoJobs).init
      [.main, .main, .main, .main, .worker 1, .worker 2]).map (fun s => (s.main, s.queue)) =
        some (.receive 0, []) := by decide
  obtain ⟨s, hs, hend⟩ := Option.map_eq_some_iff.mp hrun
  rw [Prod.mk.injEq] at hend
  have hreach := TransitionSystem.reachable_of_run hs
  exact ⟨s, hreach, hend.1, hend.2,
    not_deadlocked_of_reachable twoJobs (by decide) (by decide) hreach⟩

end SysvPriorityWorkers
