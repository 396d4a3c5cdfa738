import Mathlib.Data.List.Perm.Subperm
import OsPrograms.MessageQueues.SysvPriorityWorkers

/-!
# What the parent of `sysv_priority_workers` reports

The invariant says that the results of one worker pass through the queue in order. Here this is
turned into what can be seen from outside: which lines the parent prints, in which order, and what
is left in the queue when it is removed.

* `Inv.results_initial`: the results of a worker that were received or are in the queue are an
  initial part of `resultsOf p t`, the results of all its jobs in order.
* `Correct` collects what the program is for, and `correct_of_reachable` proves it of every
  reachable state.
-/

namespace SysvPriorityWorkers

/-- The result of the job that is sent with loop variable `i`. -/
def resultFor (p : Config) (i : ℕ) : Message :=
  result p (i % p.workers + 1) (i + 1) (cInt (i + 2))

/-- The results of all jobs of the worker of type `t`, in the order in which they are sent. -/
def resultsOf (p : Config) (t : ℕ) : List Message :=
  ((List.range p.jobs).filter (· % p.workers + 1 = t)).map (resultFor p)

/-- The job id in a message. -/
def Message.jobId (m : Message) : ℤ :=
  match m.body with
  | .job jobId _ => jobId
  | .result r => r.jobId

/-- The parent has left the loop that receives results. -/
def MainPc.ReceivedAll : MainPc → Prop
  | fork _ | sendJob _ | receive _ => False
  | sendStop _ | reap | rmid | done => True

/-- What the program guarantees in the state `s`. -/
structure Correct (p : Config) (s : State) : Prop where
  /-- The parent takes nothing but results, each one of a job: with the job's id, with the next
  number as value, its square, and the process id of the worker that the job was sent to. -/
  line : ∀ m ∈ s.received, ∃ i < p.jobs, m =
    { type := 100
      body := .result
        { jobId := i + 1
          value := cInt (i + 2)
          result := cInt (cInt (i + 2) * cInt (i + 2))
          pid := p.pid (i % p.workers + 1) } }
  /-- The arithmetic is exact as long as the squares fit an `int`. -/
  exact_square : (p.jobs + 1) ^ 2 < 2 ^ 31 → ∀ m ∈ s.received, ∀ r, m.body = .result r →
    r.value = r.jobId + 1 ∧ r.result = r.value * r.value
  /-- The square of a value that fits an `int` is exact only then. -/
  square_iff : ∀ m ∈ s.received, ∀ r, m.body = .result r → r.jobId + 1 < 2 ^ 31 →
    r.value = r.jobId + 1 ∧ (r.result = r.value * r.value ↔ (r.jobId + 1) ^ 2 < 2 ^ 31)
  /-- No job is reported twice. -/
  nodup : (s.received.map Message.jobId).Nodup
  /-- Jobs of one worker are reported in the order of their ids. -/
  increasing : s.received.Pairwise fun a b =>
    (a.jobId - 1) % (p.workers : ℤ) = (b.jobId - 1) % (p.workers : ℤ) → a.jobId < b.jobId
  /-- In the end every job has been reported. -/
  complete : s.main.ReceivedAll →
    (s.received.map Message.jobId).Perm ((List.range p.jobs).map fun i : ℕ => (i : ℤ) + 1)
  /-- A worker takes nothing but jobs and stops of its type, and does not fail. -/
  worker : ∀ t, 1 ≤ t → t ≤ p.workers → (s.worker t).pc ≠ .died ∧
    ∀ m ∈ (s.worker t).consumed, m = stop t ∨ ∃ i < p.jobs, i % p.workers + 1 = t ∧ m = job p i
  /-- When the queue is removed, it is empty and every worker has received one stop. -/
  cleanup : s.main = .rmid → s.queue = [] ∧
    ∀ t, 1 ≤ t → t ≤ p.workers → (s.worker t).consumed.countP Message.isStop = 1

section

variable {p : Config} {s : State} {t : ℕ}

/-- The answers to the first `k` jobs. -/
theorem filterMap_answer_jobs {k : ℕ} (hk : k ≤ p.jobs) :
    (((List.range k).map (job p)).filter (·.type = t)).filterMap (answer p t) =
      ((List.range k).filter (· % p.workers + 1 = t)).map (resultFor p) := by
  induction k with
  | zero => rfl
  | succ k ih =>
    rw [List.range_succ, List.map_append, List.filter_append, List.filterMap_append,
      ih (Nat.le_of_succ_le hk), List.filter_append, List.map_append]
    congr 1
    by_cases ht : k % p.workers + 1 = t
    · subst ht
      have hanswer := answer_job (t := k % p.workers + 1) hk
      have htype : (job p k).type = k % p.workers + 1 := rfl
      simp [htype, hanswer, resultFor]
    · have htype : (job p k).type ≠ t := ht
      simp [htype, ht]

/-- Stops are not answered. -/
theorem filterMap_answer_stops (n : ℕ) :
    (((List.range' 1 n).map stop).filter (·.type = t)).filterMap (answer p t) = [] := by
  refine List.filterMap_eq_nil_iff.mpr fun m hm => ?_
  obtain ⟨t', -, rfl⟩ := List.mem_map.mp (List.mem_filter.mp hm).1
  rfl

/-- The results of a worker are received and queued in the order of its jobs. -/
theorem Inv.results_initial (h : Inv p s) (ht : 1 ≤ t) (htw : t ≤ p.workers) :
    s.received.filter (·.isResultOf p t) ++ s.queue.filter (·.isResultOf p t) <+:
      resultsOf p t := by
  have hle := h.bound.jobsSent_le
  -- what the worker has consumed is an initial part of what it was sent, and it answers in order
  have hconsumed : (s.worker t).consumed <+: (s.main.sent p).filter (·.type = t) :=
    ⟨_, h.jobs_eq t ht htw⟩
  have hanswers := hconsumed.filterMap (answer p t)
  rw [MainPc.sent, List.filter_append, List.filterMap_append, filterMap_answer_jobs hle,
    filterMap_answer_stops, List.append_nil, ← h.results_eq t ht htw] at hanswers
  have hrange : List.range (s.main.jobsSent p) <+: List.range p.jobs := by
    rw [← Nat.min_eq_left hle, ← List.take_range]
    exact List.take_prefix _ _
  calc s.received.filter (·.isResultOf p t) ++ s.queue.filter (·.isResultOf p t)
      <+: _ ++ (s.worker t).inHand := List.prefix_append _ _
    _ <+: _ := hanswers
    _ <+: resultsOf p t := (hrange.filter _).map _

/-- The parent receives the results of a worker in the order of its jobs. -/
theorem Inv.received_initial (h : Inv p s) (ht : 1 ≤ t) (htw : t ≤ p.workers) :
    s.received.filter (·.isResultOf p t) <+: resultsOf p t :=
  (List.prefix_append _ _).trans (h.results_initial ht htw)

/-- The results of a worker are those of the jobs with its remainder. -/
theorem mem_resultsOf {m : Message} (hm : m ∈ resultsOf p t) :
    ∃ i < p.jobs, i % p.workers + 1 = t ∧ m = resultFor p i := by
  obtain ⟨i, hi, rfl⟩ := List.mem_map.mp hm
  simp only [List.mem_filter, List.mem_range, decide_eq_true_eq] at hi
  exact ⟨i, hi.1, hi.2, rfl⟩

theorem jobId_resultFor (p : Config) (i : ℕ) : (resultFor p i).jobId = i + 1 := rfl

/-- The ids of the jobs of one worker increase. -/
theorem pairwise_resultsOf (p : Config) (t : ℕ) :
    (resultsOf p t).Pairwise fun a b => a.jobId < b.jobId := by
  refine List.pairwise_map.mpr ((List.pairwise_lt_range.filter _).imp fun {i k} hik => ?_)
  simp only [jobId_resultFor]
  omega

/-- Every message that the parent has received is the result of a job. -/
theorem Inv.mem_received (h : Inv p s) {m : Message} (hm : m ∈ s.received) :
    ∃ i < p.jobs, m = resultFor p i := by
  obtain ⟨t, ht, htw, hres⟩ := h.received_result m hm
  have hmem := (h.received_initial ht htw).subset (List.mem_filter.mpr ⟨hm, hres⟩)
  obtain ⟨i, hi, -, rfl⟩ := mem_resultsOf hmem
  exact ⟨i, hi, rfl⟩

/-- The reports of one worker come in the order of their ids. -/
theorem Inv.increasing (h : Inv p s) : s.received.Pairwise fun a b =>
    (a.jobId - 1) % (p.workers : ℤ) = (b.jobId - 1) % (p.workers : ℤ) → a.jobId < b.jobId := by
  have hfilter : ∀ k : {t // 1 ≤ t ∧ t ≤ p.workers},
      (s.received.filter (·.isResultOf p k.1)).Pairwise fun a b => a.jobId < b.jobId :=
    fun k => (pairwise_resultsOf p k).sublist (h.received_initial k.2.1 k.2.2).sublist
  refine (MessageQueue.pairwise_of_forall_filter hfilter).imp_of_mem fun {a b} ha hb hab heq => ?_
  -- equal remainders mean the same worker, whose results are received in order
  obtain ⟨i, hi, rfl⟩ := h.mem_received ha
  obtain ⟨k, hk, rfl⟩ := h.mem_received hb
  simp only [jobId_resultFor, add_sub_cancel_right] at heq
  have hmod : i % p.workers = k % p.workers := by exact_mod_cast heq
  refine hab ⟨i % p.workers + 1, Nat.le_add_left _ _, Nat.mod_lt _ p.one_le_workers⟩ ?_ ?_
  · exact isResultOf_result p _ i _
  · show Message.isResultOf p (i % p.workers + 1) _ = true
    rw [hmod]
    exact isResultOf_result p _ k _

/-- No job is reported twice. -/
theorem Inv.nodup (h : Inv p s) : (s.received.map Message.jobId).Nodup := by
  refine List.pairwise_map.mpr (h.increasing.imp fun hab heq => ?_)
  exact absurd (hab (by rw [heq])) (by rw [heq]; exact lt_irrefl _)

/-- When as many results have been received as there are jobs, they are those of all jobs. -/
theorem Inv.complete (h : Inv p s) (hall : s.received.length = p.jobs) :
    (s.received.map Message.jobId).Perm ((List.range p.jobs).map fun i : ℕ => (i : ℤ) + 1) := by
  have hsubset : s.received.map Message.jobId ⊆
      (List.range p.jobs).map fun i : ℕ => (i : ℤ) + 1 := by
    intro z hz
    obtain ⟨m, hm, rfl⟩ := List.mem_map.mp hz
    obtain ⟨i, hi, rfl⟩ := h.mem_received hm
    exact List.mem_map.mpr ⟨i, List.mem_range.mpr hi, rfl⟩
  -- as many ids as jobs, all different
  refine (List.subperm_of_subset h.nodup hsubset).perm_of_length_le ?_
  simp [hall]

/-- Once all results have been received, there is none in the queue. -/
theorem Inv.no_result_in_queue (h : Inv p s) (hall : s.received.length = p.jobs) {m : Message}
    (hm : m ∈ s.queue) (ht : 1 ≤ t) (htw : t ≤ p.workers) : m.isResultOf p t = false := by
  by_contra hne
  have hres : m.isResultOf p t := eq_true_of_ne_false hne
  have hinitial := h.results_initial ht htw
  have hqueued : m ∈ s.queue.filter (·.isResultOf p t) := List.mem_filter.mpr ⟨hm, hres⟩
  obtain ⟨i, hi, hit, rfl⟩ := mem_resultsOf (hinitial.subset (List.mem_append_right _ hqueued))
  -- the result with this id is among those received, before itself
  have hid : (resultFor p i).jobId ∈ s.received.map Message.jobId :=
    (h.complete hall).mem_iff.mpr (List.mem_map.mpr ⟨i, List.mem_range.mpr hi, rfl⟩)
  obtain ⟨m', hm', heq⟩ := List.mem_map.mp hid
  obtain ⟨k, hk, rfl⟩ := h.mem_received hm'
  obtain rfl : k = i := by
    simp only [jobId_resultFor] at heq
    omega
  have hreceived : resultFor p k ∈ s.received.filter (·.isResultOf p t) :=
    List.mem_filter.mpr ⟨hm', hres⟩
  have hlt := (List.pairwise_append.mp
    ((pairwise_resultsOf p t).sublist hinitial.sublist)).2.2 _ hreceived _ hqueued
  exact lt_irrefl _ hlt

/-- Every worker is sent one stop. -/
theorem filter_stops {n : ℕ} (ht : 1 ≤ t) :
    ((List.range' 1 n).map stop).filter (·.type = t) = if t ≤ n then [stop t] else [] := by
  induction n with
  | zero =>
    rw [if_neg (by omega)]
    rfl
  | succ n ih =>
    rw [List.range'_1_concat, List.map_append, List.filter_append, ih]
    by_cases heq : t = 1 + n
    · subst heq
      have hle : ¬1 + n ≤ n := by omega
      have hle' : 1 + n ≤ n + 1 := by omega
      simp [hle, hle', stop]
    · have hiff : t ≤ n + 1 ↔ t ≤ n := by omega
      have hne : 1 + n ≠ t := Ne.symm heq
      simp [hiff, hne, stop]

/-- A stopped worker has received all messages that it has been sent. -/
theorem Inv.no_job_in_queue (h : Inv p s) (hmain : s.main = .rmid) (ht : 1 ≤ t)
    (htw : t ≤ p.workers) : s.queue.filter (·.type = t) = [] := by
  have hstops := h.stops_eq t
  rw [if_pos (h.reaped (.inl hmain) t ht htw)] at hstops
  have hsent : (s.main.sent p).filter (·.type = t) =
      ((List.range p.jobs).map (job p)).filter (·.type = t) ++ [stop t] := by
    rw [hmain, MainPc.sent, List.filter_append, filter_stops ht, MainPc.stopsSent, if_pos htw]
    rfl
  have heq := (h.jobs_eq t ht htw).trans hsent
  rcases List.eq_nil_or_concat (s.queue.filter (·.type = t)) with hnil | ⟨rest, m, hconcat⟩
  · exact hnil
  · -- otherwise the stop is in the queue, and the worker has received only jobs
    rw [hconcat, List.concat_eq_append, ← List.append_assoc] at heq
    have hjobs := (List.append_inj' heq rfl).1
    have hzero : (s.worker t).consumed.countP Message.isStop = 0 := by
      refine List.countP_eq_zero.mpr fun m' hm' => ?_
      have hmem := List.mem_append_left rest hm'
      rw [hjobs] at hmem
      obtain ⟨i, hi, rfl⟩ := List.mem_map.mp (List.mem_filter.mp hmem).1
      simp [not_isStop_job (List.mem_range.mp hi)]
    omega

/-- When the queue is removed, nothing is in it. -/
theorem Inv.queue_eq_nil (h : Inv p s) (hmain : s.main = .rmid) : s.queue = [] := by
  have hall : s.received.length = p.jobs := by rw [h.received_length, hmain]; rfl
  refine List.eq_nil_iff_forall_not_mem.mpr fun m hm => ?_
  rcases h.queue_type m hm with ⟨hone, hle⟩ | ⟨t, ht, htw, hres⟩
  · -- a job or a stop
    have hnil := h.no_job_in_queue hmain hone hle
    have hmem : m ∈ s.queue.filter (·.type = m.type) := by simpa using hm
    rw [hnil] at hmem
    cases hmem
  · -- a result
    rw [h.no_result_in_queue hall hm ht htw] at hres
    cases hres

/-- An `int` has the values from `-2 ^ 31` to `2 ^ 31 - 1`. -/
theorem cInt_eq_self_iff {z : ℤ} : cInt z = z ↔ -2 ^ 31 ≤ z ∧ z < 2 ^ 31 := by
  constructor
  · intro h
    have hle : -((2 ^ 32 : ℕ) : ℤ) / 2 ≤ z.bmod (2 ^ 32) := Int.le_bmod (by decide)
    have hlt : z.bmod (2 ^ 32) < (((2 ^ 32 : ℕ) : ℤ) + 1) / 2 := Int.bmod_lt (by decide)
    rw [show z.bmod (2 ^ 32) = z from h] at hle hlt
    omega
  · rintro ⟨hneg, hlt⟩
    exact cInt_of_lt hneg hlt

/-- The value of a job id that is an `int` is exact, and its square is if it is an `int` as well. -/
theorem square_resultFor_iff {i : ℕ} (hi : (i : ℤ) + 2 < 2 ^ 31) :
    cInt (i + 2) = i + 2 ∧
      (cInt (((i : ℤ) + 2) * (i + 2)) = (i + 2) * (i + 2) ↔ ((i : ℤ) + 2) ^ 2 < 2 ^ 31) := by
  refine ⟨cInt_of_lt (by omega) (by omega), ?_⟩
  have hpos : 0 ≤ ((i : ℤ) + 2) * (i + 2) := Int.mul_nonneg (by omega) (by omega)
  rw [cInt_eq_self_iff, sq]
  omega

/-- All squares are exact when the largest is. -/
theorem exact_square_resultFor {i : ℕ} (hi : i < p.jobs) (hfits : (p.jobs + 1) ^ 2 < 2 ^ 31) :
    cInt (i + 2) = i + 2 ∧ cInt (((i : ℤ) + 2) * (i + 2)) = (i + 2) * (i + 2) := by
  have hle : i + 2 ≤ p.jobs + 1 := by omega
  have hsq : (i + 2) * (i + 2) < 2 ^ 31 :=
    calc (i + 2) * (i + 2) ≤ (p.jobs + 1) * (p.jobs + 1) := Nat.mul_le_mul hle hle
      _ = (p.jobs + 1) ^ 2 := (sq _).symm
      _ < 2 ^ 31 := hfits
  have hself : i + 2 ≤ (i + 2) * (i + 2) := Nat.le_mul_self _
  constructor
  · exact cInt_of_lt (by omega) (by omega)
  · have hcast : ((i : ℤ) + 2) * (i + 2) = ((i + 2) * (i + 2) : ℕ) := by push_cast; rfl
    rw [hcast]
    exact cInt_of_lt (by omega) (by omega)

/-- Every reachable state is correct. -/
theorem correct_of_reachable (p : Config) (s : State) (hs : (system p).Reachable s) :
    Correct p s := by
  have h := inv_of_reachable hs
  refine
    { line := fun m hm => h.mem_received hm
      exact_square := ?_
      square_iff := ?_
      nodup := h.nodup
      increasing := h.increasing
      complete := fun hmain => h.complete ?_
      worker := fun t ht htw => ⟨h.alive t, fun m hm => ?_⟩
      cleanup := fun hmain => ⟨h.queue_eq_nil hmain, fun t ht htw => ?_⟩ }
  · intro hfits m hm r hr
    obtain ⟨i, hi, rfl⟩ := h.mem_received hm
    obtain ⟨hvalue, hsquare⟩ := exact_square_resultFor hi hfits
    simp only [resultFor, result, Body.result.injEq] at hr
    subst hr
    simp only [hvalue, hsquare, and_true]
    omega
  · intro m hm r hr hfits
    obtain ⟨i, hi, rfl⟩ := h.mem_received hm
    simp only [resultFor, result, Body.result.injEq] at hr
    subst hr
    have hnext : (i : ℤ) + 1 + 1 = i + 2 := by omega
    rw [hnext] at hfits
    obtain ⟨hvalue, hsquare⟩ := square_resultFor_iff hfits
    simp only [hvalue, hnext, true_and]
    exact hsquare
  · rw [h.received_length]
    cases hpc : s.main <;> simp_all [MainPc.ReceivedAll, MainPc.resultsReceived]
  -- what a worker has consumed was sent to it, so it is a job of its own or a stop
  · have hmem := List.mem_append_left (s.queue.filter (·.type = t)) hm
    rw [h.jobs_eq t ht htw, List.mem_filter] at hmem
    obtain ⟨hsent, htype⟩ := hmem
    rcases mem_sent h.bound hsent with ⟨i, hi, rfl⟩ | ⟨t', rfl⟩
    · exact .inr ⟨i, hi, of_decide_eq_true htype, rfl⟩
    · exact .inl (congrArg stop (of_decide_eq_true htype))
  · rw [h.stops_eq t, if_pos (h.reaped (.inl hmain) t ht htw)]

end

/-- Two workers with one job each. -/
def twoJobs : Config where
  workers := 2
  jobs := 2
  capacity := 48
  pid := fun t => 4000 + t
  one_le_workers := by decide
  workers_lt := by decide
  jobs_lt := by decide

/-- A whole run with two jobs, up to the removal of the queue. The second job is reported first. -/
theorem correct_two_jobs : ∃ s, (system twoJobs).Reachable s ∧ s.main = .rmid ∧
    s.received.map Message.jobId = [2, 1] ∧ Correct twoJobs s := by
  have hrun : ((system twoJobs).run (system twoJobs).init
      [.main, .main, .main, .main, .worker 2, .worker 2, .worker 1, .worker 1, .main, .main, .main,
        .main, .worker 1, .worker 1, .worker 2, .worker 2, .main]).map
        (fun s => (s.main, s.received.map Message.jobId)) = some (.rmid, [2, 1]) := by decide
  obtain ⟨s, hs, hend⟩ := Option.map_eq_some_iff.mp hrun
  rw [Prod.mk.injEq] at hend
  have hreach := TransitionSystem.reachable_of_run hs
  exact ⟨s, hreach, hend.1, hend.2, correct_of_reachable twoJobs s hreach⟩

end SysvPriorityWorkers
