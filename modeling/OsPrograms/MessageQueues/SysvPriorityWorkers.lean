import Mathlib.Data.Int.Init
import OsPrograms.Lib.MessageQueue
import OsPrograms.Lib.ProcessTable
import OsPrograms.Lib.TransitionSystem

/-!
# Jobs, results and stops on one queue (`sysv_priority_workers`)

The parent forks one worker for each of the types 1, ..., `workers`. It sends all jobs, round
robin over the types, then receives as many results, then sends every worker a stop, waits for the
workers to exit and removes the queue. A worker receives messages of its type and answers each job
with a result, until it receives a stop. Results have type 100.

All messages are in one queue. The invariant `Inv` takes it apart, for each worker into two
sequences that are handed on in order:

* the messages for the worker: those it has received, followed by those in the queue, are those
  the parent has sent it (`Inv.jobs_eq`);
* its results: those the parent has received, followed by those in the queue and the one in the
  worker's hand, are the answers to the jobs it has received (`Inv.results_eq`).
-/

namespace SysvPriorityWorkers

/-- The `int` that the value `z` of an expression is stored as. -/
def cInt (z : ℤ) : ℤ :=
  z.bmod (2 ^ 32)

/-- `struct result_msg` without its type. -/
structure ResultMsg where
  jobId : ℤ
  value : ℤ
  result : ℤ
  pid : ℤ
  deriving DecidableEq, Repr

/-- What follows the type in a message. -/
inductive Body
  /-- `struct job_msg` without its type. -/
  | job (jobId value : ℤ)
  | result (r : ResultMsg)
  deriving DecidableEq, Repr

/-- A message. -/
structure Message where
  type : ℕ
  body : Body
  deriving DecidableEq, Repr

/-- The number of bytes that follow the type. -/
def Message.size (m : Message) : ℕ :=
  match m.body with
  | .job _ _ => 8
  | .result _ => 24

/-- What a run of the program depends on. -/
structure Config where
  /-- `WORKERS` -/
  workers : ℕ
  /-- `JOBS`, an `int` -/
  jobs : ℕ
  /-- The number of bytes the queue can hold. -/
  capacity : ℕ
  /-- The process id of the worker of a type. -/
  pid : ℕ → ℤ
  one_le_workers : 1 ≤ workers
  workers_lt : workers < 100
  jobs_lt : jobs < 2 ^ 31

/-- The next statement of the parent, with its loop variable. -/
inductive MainPc
  | fork (i : ℕ)
  | sendJob (i : ℕ)
  | receive (i : ℕ)
  | sendStop (i : ℕ)
  /-- `reap_all_children()` -/
  | reap
  /-- `msgctl(qid, IPC_RMID, NULL)` -/
  | rmid
  | done
  deriving DecidableEq, Repr

/-- The next statement of a worker. -/
inductive WorkerPc
  | unborn
  | receive
  | send (m : Message)
  /-- `worker` has returned, `_exit(0)` is next. -/
  | exit
  | exited
  /-- The worker has ended in `die_errno`. -/
  | died
  deriving DecidableEq, Repr

/-- A worker and the messages it has received. -/
structure Worker where
  pc : WorkerPc
  consumed : List Message
  deriving DecidableEq, Repr

/-- The state of the parent, the workers and the queue. -/
structure State where
  /-- The messages in the queue, the oldest one first. -/
  queue : List Message
  main : MainPc
  /-- The messages the parent has received, and has printed as results. -/
  received : List Message
  /-- The worker of a type. -/
  worker : ℕ → Worker

/-- Who takes the next step. -/
inductive Action
  | main
  | worker (t : ℕ)
  deriving DecidableEq, Repr

/-- A stop for the worker of type `t`. -/
def stop (t : ℕ) : Message where
  type := t
  body := .job (-1) 0

/-- A worker that will not take another step. -/
def WorkerPc.Terminated (pc : WorkerPc) : Prop :=
  pc = exited ∨ pc = died

instance (pc : WorkerPc) : Decidable pc.Terminated :=
  inferInstanceAs (Decidable (_ ∨ _))

section Model

variable (p : Config)

/-- The job that the parent sends with loop variable `i`. -/
def job (i : ℕ) : Message where
  type := i % p.workers + 1
  body := .job (cInt (i + 1)) (cInt (i + 2))

/-- The result that the worker of type `t` makes of a job. -/
def result (t : ℕ) (jobId value : ℤ) : Message where
  type := 100
  body := .result
    { jobId := jobId
      value := value
      result := cInt (value * value)
      pid := p.pid t }

/-- The test of the loop that sends stops. -/
def stopTest (i : ℕ) : MainPc :=
  if i ≤ p.workers then .sendStop i else .reap

/-- The test of the loop that receives results. -/
def receiveTest (i : ℕ) : MainPc :=
  if i < p.jobs then .receive i else stopTest p 1

/-- The test of the loop that sends jobs. -/
def sendTest (i : ℕ) : MainPc :=
  if i < p.jobs then .sendJob i else receiveTest p 0

/-- The test of the loop that forks workers. -/
def forkTest (i : ℕ) : MainPc :=
  if i ≤ p.workers then .fork i else sendTest p 0

/-- The state after `msgget`. -/
def init : State where
  queue := []
  main := forkTest p 1
  received := []
  worker := fun _ => { pc := .unborn, consumed := [] }

/-- The next statement of the parent, `none` while it is blocked and after its end. -/
def mainStep (s : State) : Option State :=
  match s.main with
  | .fork i =>
    some { s with
      main := forkTest p (i + 1)
      worker := Function.update s.worker i { s.worker i with pc := .receive } }
  | .sendJob i => do
    let queue ← MessageQueue.send Message.size p.capacity s.queue (job p i)
    some { s with queue := queue, main := sendTest p (i + 1) }
  | .receive i => do
    let (m, queue) ← MessageQueue.receive Message.type 100 s.queue
    some { s with
      queue := queue
      main := receiveTest p (i + 1)
      received := s.received ++ [m] }
  | .sendStop i => do
    let queue ← MessageQueue.send Message.size p.capacity s.queue (stop i)
    some { s with queue := queue, main := stopTest p (i + 1) }
  | .reap =>
    -- `wait` fails when there is no child left
    if ∀ t ∈ List.range' 1 p.workers, (s.worker t).pc.Terminated then
      some { s with main := .rmid }
    else
      none
  | .rmid => some { s with main := .done }
  | .done => none

/-- The next statement of the worker of type `t`, `none` while it is blocked and after its end. -/
def workerStep (s : State) (t : ℕ) : Option State :=
  match (s.worker t).pc with
  | .receive => do
    let (m, queue) ← MessageQueue.receive Message.type t s.queue
    match m.body with
    | .job jobId value =>
      some { s with
        queue := queue
        worker := Function.update s.worker t
          { pc := if jobId < 0 then .exit else .send (result p t jobId value)
            consumed := (s.worker t).consumed ++ [m] } }
    | .result _ =>
      -- `msgrcv` for 8 bytes fails with `E2BIG` and leaves the message in the queue
      some { s with worker := Function.update s.worker t { s.worker t with pc := .died } }
  | .send m => do
    let queue ← MessageQueue.send Message.size p.capacity s.queue m
    some { s with
      queue := queue
      worker := Function.update s.worker t { s.worker t with pc := .receive } }
  | .exit =>
    some { s with worker := Function.update s.worker t { s.worker t with pc := .exited } }
  | .unborn | .exited | .died => none

/-- The parent and its workers, interleaved. -/
def system : TransitionSystem State Action where
  init := init p
  step
    | s, .main => mainStep p s
    | s, .worker t => workerStep p s t

end Model

/-! ## What has been sent and received -/

namespace MainPc

variable (p : Config)

/-- The number of jobs sent. -/
def jobsSent : MainPc → ℕ
  | fork _ => 0
  | sendJob i => i
  | _ => p.jobs

/-- The number of stops sent. -/
def stopsSent : MainPc → ℕ
  | sendStop i => i - 1
  | reap | rmid | done => p.workers
  | _ => 0

/-- The number of results received. -/
def resultsReceived : MainPc → ℕ
  | fork _ | sendJob _ => 0
  | receive i => i
  | _ => p.jobs

/-- The first worker that has not been forked. -/
def nextFork : MainPc → ℕ
  | fork i => i
  | _ => p.workers + 1

/-- The range of the loop variable. -/
def Bound : MainPc → Prop
  | fork i => 1 ≤ i ∧ i ≤ p.workers
  | sendJob i => i < p.jobs
  | receive i => i < p.jobs
  | sendStop i => 1 ≤ i ∧ i ≤ p.workers
  | reap | rmid | done => True

/-- All messages the parent has sent, in order. -/
def sent (pc : MainPc) : List Message :=
  (List.range (pc.jobsSent p)).map (job p) ++ (List.range' 1 (pc.stopsSent p)).map stop

end MainPc

/-- The message is a stop. -/
def Message.isStop (m : Message) : Bool :=
  match m.body with
  | .job jobId _ => jobId < 0
  | .result _ => false

/-- The message is a result for a job of the worker of type `t`. -/
def Message.isResultOf (p : Config) (t : ℕ) (m : Message) : Bool :=
  match m.body with
  | .job _ _ => false
  | .result r => m.type = 100 ∧ (r.jobId - 1) % p.workers + 1 = t

/-- The answer of the worker of type `t`. -/
def answer (p : Config) (t : ℕ) (m : Message) : Option Message :=
  match m.body with
  | .job jobId value => if jobId < 0 then none else some (result p t jobId value)
  | .result _ => none

/-- The result a worker is about to send. -/
def Worker.inHand (w : Worker) : List Message :=
  match w.pc with
  | .send m => [m]
  | _ => []

/-- The worker has received its stop. -/
def Worker.Stopped (w : Worker) : Prop :=
  w.pc = .exit ∨ w.pc = .exited

instance (w : Worker) : Decidable w.Stopped :=
  inferInstanceAs (Decidable (_ ∨ _))

/-- The invariant. -/
structure Inv (p : Config) (s : State) : Prop where
  bound : s.main.Bound p
  received_length : s.received.length = s.main.resultsReceived p
  jobs_eq : ∀ t, 1 ≤ t → t ≤ p.workers →
    (s.worker t).consumed ++ s.queue.filter (·.type = t) =
      (s.main.sent p).filter (·.type = t)
  results_eq : ∀ t, 1 ≤ t → t ≤ p.workers →
    s.received.filter (·.isResultOf p t) ++ s.queue.filter (·.isResultOf p t) ++
      (s.worker t).inHand = (s.worker t).consumed.filterMap (answer p t)
  stops_eq : ∀ t, (s.worker t).consumed.countP Message.isStop =
    if (s.worker t).Stopped then 1 else 0
  in_hand : ∀ t m, (s.worker t).pc = .send m → m.isResultOf p t
  queue_type : ∀ m ∈ s.queue, (1 ≤ m.type ∧ m.type ≤ p.workers) ∨
    ∃ t, 1 ≤ t ∧ t ≤ p.workers ∧ m.isResultOf p t
  received_result : ∀ m ∈ s.received, ∃ t, 1 ≤ t ∧ t ≤ p.workers ∧ m.isResultOf p t
  unborn : ∀ t, t = 0 ∨ s.main.nextFork p ≤ t → (s.worker t).pc = .unborn
  alive : ∀ t, (s.worker t).pc ≠ .died
  reaped : s.main = .rmid ∨ s.main = .done →
    ∀ t, 1 ≤ t → t ≤ p.workers → (s.worker t).Stopped

/-! ## Progress of the parent -/

/-- Where the parent is: it has sent `k` jobs and `n` stops, received `r` results and forked the
workers below `f`, and not yet waited for them. -/
structure MainPc.At (p : Config) (pc : MainPc) (k n r f : ℕ) : Prop where
  jobsSent : pc.jobsSent p = k
  stopsSent : pc.stopsSent p = n
  resultsReceived : pc.resultsReceived p = r
  nextFork : pc.nextFork p = f
  bound : pc.Bound p
  not_reaped : ¬(pc = .rmid ∨ pc = .done)

section Progress

variable {p : Config} {i : ℕ}

theorem at_sendStop (hi : 1 ≤ i ∧ i ≤ p.workers) :
    (MainPc.sendStop i).At p p.jobs (i - 1) p.jobs (p.workers + 1) :=
  ⟨rfl, rfl, rfl, rfl, hi, nofun⟩

theorem at_receive (hi : i < p.jobs) : (MainPc.receive i).At p p.jobs 0 i (p.workers + 1) :=
  ⟨rfl, rfl, rfl, rfl, hi, nofun⟩

theorem at_sendJob (hi : i < p.jobs) : (MainPc.sendJob i).At p i 0 0 (p.workers + 1) :=
  ⟨rfl, rfl, rfl, rfl, hi, nofun⟩

theorem at_fork (hi : 1 ≤ i ∧ i ≤ p.workers) : (MainPc.fork i).At p 0 0 0 i :=
  ⟨rfl, rfl, rfl, rfl, hi, nofun⟩

/-- At the test of the loop that sends the stops. -/
theorem stopTest_at (hone : 1 ≤ i) (hi : i ≤ p.workers + 1) :
    (stopTest p i).At p p.jobs (i - 1) p.jobs (p.workers + 1) := by
  unfold stopTest
  split_ifs with hle
  · exact at_sendStop ⟨hone, hle⟩
  · -- all stops have been sent
    exact ⟨rfl, show p.workers = i - 1 by omega, rfl, rfl, trivial, nofun⟩

/-- At the test of the loop that receives the results. -/
theorem receiveTest_at (hi : i ≤ p.jobs) :
    (receiveTest p i).At p p.jobs 0 i (p.workers + 1) := by
  unfold receiveTest
  split_ifs with hlt
  · exact at_receive hlt
  · obtain rfl : i = p.jobs := le_antisymm hi (not_lt.mp hlt)
    exact stopTest_at le_rfl (Nat.le_add_left _ _)

/-- At the test of the loop that sends the jobs. -/
theorem sendTest_at (hi : i ≤ p.jobs) : (sendTest p i).At p i 0 0 (p.workers + 1) := by
  unfold sendTest
  split_ifs with hlt
  · exact at_sendJob hlt
  · obtain rfl : i = p.jobs := le_antisymm hi (not_lt.mp hlt)
    exact receiveTest_at (Nat.zero_le _)

/-- At the test of the loop that forks the workers. -/
theorem forkTest_at (hone : 1 ≤ i) (hi : i ≤ p.workers + 1) : (forkTest p i).At p 0 0 0 i := by
  unfold forkTest
  split_ifs with hle
  · exact at_fork ⟨hone, hle⟩
  · obtain rfl : i = p.workers + 1 := by omega
    exact sendTest_at (Nat.zero_le _)

/-- What the parent has sent, in order: its jobs, and then its stops. -/
theorem MainPc.At.sent_eq {pc : MainPc} {k n r f : ℕ} (h : pc.At p k n r f) :
    pc.sent p = (List.range k).map (job p) ++ (List.range' 1 n).map stop := by
  rw [MainPc.sent, h.jobsSent, h.stopsSent]

end Progress

/-! ## The messages -/

section Messages

variable {p : Config} {m : Message} {t t' : ℕ}

/-- Results have type 100, which no worker asks for. -/
theorem Message.type_of_isResultOf (h : m.isResultOf p t) : m.type = 100 := by
  rcases m with ⟨type, _ | r⟩
  · simp [Message.isResultOf] at h
  · simp only [Message.isResultOf, decide_eq_true_eq] at h
    exact h.1

/-- A result is of one worker. -/
theorem Message.isResultOf_unique (h : m.isResultOf p t) (h' : m.isResultOf p t') : t = t' := by
  rcases m with ⟨type, _ | r⟩
  · simp [Message.isResultOf] at h
  · simp only [Message.isResultOf, decide_eq_true_eq] at h h'
    exact_mod_cast h.2.symm.trans h'.2

/-- A value in the range of `int` is kept. -/
theorem cInt_of_lt {z : ℤ} (hneg : -2 ^ 31 ≤ z) (hlt : z < 2 ^ 31) : cInt z = z := by
  unfold cInt
  rw [Int.bmod_eq_of_le] <;> omega

/-- The id of a job is an `int`. -/
theorem cInt_jobId {i : ℕ} (hi : i < p.jobs) : cInt ((i : ℤ) + 1) = i + 1 := by
  have := p.jobs_lt
  exact cInt_of_lt (by omega) (by omega)

/-- The parent sends no more jobs than there are. -/
theorem MainPc.Bound.jobsSent_le {pc : MainPc} (h : pc.Bound p) : pc.jobsSent p ≤ p.jobs := by
  cases pc <;> simp_all [MainPc.jobsSent, MainPc.Bound]
  omega

/-- A message the parent sends is a job or a stop. -/
theorem mem_sent {pc : MainPc} (hbound : pc.Bound p) (hm : m ∈ pc.sent p) :
    (∃ i < p.jobs, m = job p i) ∨ ∃ t, m = stop t := by
  simp only [MainPc.sent, List.mem_append, List.mem_map, List.mem_range] at hm
  rcases hm with ⟨i, hi, rfl⟩ | ⟨t, -, rfl⟩
  · exact .inl ⟨i, hi.trans_le hbound.jobsSent_le, rfl⟩
  · exact .inr ⟨t, rfl⟩

/-- The id of a job is not 0. -/
theorem not_isStop_job {i : ℕ} (hi : i < p.jobs) : (job p i).isStop = false := by
  simp only [Message.isStop, job, cInt_jobId hi, decide_eq_false_iff_not]
  omega

/-- The answer to a job is its result. -/
theorem answer_job {i : ℕ} (hi : i < p.jobs) :
    answer p t (job p i) = some (result p t (i + 1) (cInt (i + 2))) := by
  have hpos : ¬((i : ℤ) + 1 < 0) := by omega
  simp [answer, job, cInt_jobId hi, hpos]

/-- The number of a result says which worker it is of. -/
theorem isResultOf_result (p : Config) (t i : ℕ) (value : ℤ) :
    (result p t (i + 1) value).isResultOf p (i % p.workers + 1) := by
  simp [Message.isResultOf, result]

end Messages

/-! ## The steps -/

section Steps

variable {p : Config} {s s' : State}

/-- A worker that has been forked has one of the types from 1 on. -/
theorem Inv.range_of_born (h : Inv p s) {t : ℕ} (ht : (s.worker t).pc ≠ .unborn) :
    1 ≤ t ∧ t ≤ p.workers := by
  have hfork : s.main.nextFork p ≤ p.workers + 1 := by
    have hbound := h.bound
    cases hmain : s.main <;> simp_all [MainPc.nextFork, MainPc.Bound]
    omega
  constructor
  · by_contra hzero
    exact ht (h.unborn t (.inl (by omega)))
  · by_contra hlt
    exact ht (h.unborn t (.inr (by omega)))

/-- A message for a worker in the queue has been sent by the parent. -/
theorem Inv.mem_sent_of_mem_queue (h : Inv p s) {m : Message} (hm : m ∈ s.queue)
    (hone : 1 ≤ m.type) (hle : m.type ≤ p.workers) : m ∈ s.main.sent p := by
  have hmem : m ∈ s.queue.filter (·.type = m.type) := by simpa using hm
  have hsent := List.mem_append_right (s.worker m.type).consumed hmem
  rw [h.jobs_eq m.type hone hle] at hsent
  exact (List.mem_filter.mp hsent).1

/-- The parent sends a message to a worker. -/
theorem Inv.main_sends {m : Message} {pc : MainPc} {k n k' n' r f : ℕ} (h : Inv p s)
    (hold : s.main.At p k n r f) (hnew : pc.At p k' n' r f)
    (hsent : pc.sent p = s.main.sent p ++ [m]) (hone : 1 ≤ m.type) (hle : m.type ≤ p.workers)
    (hm : ∀ t, m.isResultOf p t = false) :
    Inv p { s with queue := s.queue ++ [m], main := pc } where
  bound := hnew.bound
  received_length := by
    show s.received.length = _
    rw [h.received_length, hold.resultsReceived, hnew.resultsReceived]
  jobs_eq t ht htw := by
    show _ ++ (s.queue ++ [m]).filter _ = (pc.sent p).filter _
    rw [List.filter_append, ← List.append_assoc, h.jobs_eq t ht htw, hsent, List.filter_append]
  results_eq t ht htw := by
    show _ ++ (s.queue ++ [m]).filter _ ++ _ = _
    rw [List.filter_append, List.filter_singleton, hm t]
    simpa using h.results_eq t ht htw
  stops_eq := h.stops_eq
  in_hand := h.in_hand
  queue_type m' hm' := by
    rcases List.mem_append.mp hm' with hm' | hm'
    · exact h.queue_type m' hm'
    · rw [List.mem_singleton.mp hm']
      exact .inl ⟨hone, hle⟩
  received_result := h.received_result
  unborn t ht := by
    rw [hnew.nextFork, ← hold.nextFork] at ht
    exact h.unborn t ht
  alive := h.alive
  reaped hend := absurd hend hnew.not_reaped

/-- The parent receives a result. -/
theorem Inv.main_receives {m : Message} {queue : List Message} {pc : MainPc} {k n r f : ℕ}
    (h : Inv p s) (hrcv : MessageQueue.receive Message.type 100 s.queue = some (m, queue))
    (hold : s.main.At p k n r f) (hnew : pc.At p k n (r + 1) f) :
    Inv p { s with queue := queue, main := pc, received := s.received ++ [m] } := by
  have htype := MessageQueue.type_of_receive hrcv
  have hmem := MessageQueue.mem_of_receive hrcv
  have hworkers := p.workers_lt
  -- a message of type 100 is a result, because the types of the workers are smaller
  have hresult : ∃ t, 1 ≤ t ∧ t ≤ p.workers ∧ m.isResultOf p t := by
    refine (h.queue_type m hmem).resolve_left fun hrange => ?_
    omega
  exact
    { bound := hnew.bound
      received_length := by
        show (s.received ++ [m]).length = _
        rw [List.length_append, h.received_length, hold.resultsReceived, hnew.resultsReceived]
        rfl
      jobs_eq := fun t ht htw => by
        show _ ++ queue.filter _ = (pc.sent p).filter _
        rw [MessageQueue.filter_of_receive_of_not hrcv (by simp [htype]; omega),
          h.jobs_eq t ht htw, hold.sent_eq, hnew.sent_eq]
      results_eq := fun t ht htw => by
        show (s.received ++ [m]).filter _ ++ queue.filter _ ++ _ = _
        rw [← h.results_eq t ht htw, List.filter_append, List.filter_singleton]
        -- the first result of a worker in the queue becomes the last one received
        cases hm : m.isResultOf p t
        · rw [MessageQueue.filter_of_receive_of_not hrcv hm]
          simp
        · rw [MessageQueue.filter_of_receive hrcv (fun _ => Message.type_of_isResultOf) hm]
          simp
      stops_eq := h.stops_eq
      in_hand := h.in_hand
      queue_type := fun m' hm' => h.queue_type m' (MessageQueue.subset_of_receive hrcv hm')
      received_result := fun m' hm' => by
        rcases List.mem_append.mp hm' with hm' | hm'
        · exact h.received_result m' hm'
        · rw [List.mem_singleton.mp hm']
          exact hresult
      unborn := fun t ht => by
        rw [hnew.nextFork, ← hold.nextFork] at ht
        exact h.unborn t ht
      alive := h.alive
      reaped := fun hend => absurd hend hnew.not_reaped }

/-- The parent forks the next worker. -/
theorem Inv.main_forks {i : ℕ} {pc : MainPc} {k n r : ℕ} (h : Inv p s) (hi : 1 ≤ i)
    (hold : s.main.At p k n r i) (hnew : pc.At p k n r (i + 1)) :
    Inv p { s with
      main := pc
      worker := Function.update s.worker i { s.worker i with pc := .receive } } := by
  have hunborn : (s.worker i).pc = .unborn := h.unborn i (.inr hold.nextFork.le)
  have hstopped : ¬(s.worker i).Stopped := by simp [Worker.Stopped, hunborn]
  have hsent : pc.sent p = s.main.sent p := by rw [hold.sent_eq, hnew.sent_eq]
  refine
    { bound := hnew.bound
      received_length := by rw [h.received_length, hold.resultsReceived, hnew.resultsReceived]
      jobs_eq := fun t ht htw => ?_
      results_eq := fun t ht htw => ?_
      stops_eq := fun t => ?_
      in_hand := fun t m => ?_
      queue_type := h.queue_type
      received_result := h.received_result
      unborn := fun t ht => ?_
      alive := fun t => ?_
      reaped := fun hend => absurd hend hnew.not_reaped } <;>
    -- each field for the new worker, and for the others
    by_cases hti : t = i <;>
    simp only [hti, Function.update_self, Function.update_of_ne, ne_eq, not_false_eq_true]
  · rw [hsent]
    exact h.jobs_eq i hi (hti ▸ htw)
  · rw [hsent]
    exact h.jobs_eq t ht htw
  · -- neither the unborn nor the new worker has a result in its hand
    have heq := h.results_eq i hi (hti ▸ htw)
    rw [Worker.inHand, hunborn] at heq
    exact heq
  · exact h.results_eq t ht htw
  · have heq := h.stops_eq i
    rw [if_neg hstopped] at heq
    exact heq
  · exact h.stops_eq t
  · exact nofun
  · exact h.in_hand t m
  · rw [hnew.nextFork] at ht
    omega
  · rw [hnew.nextFork] at ht
    refine h.unborn t (ht.imp_right fun hle => ?_)
    rw [hold.nextFork]
    exact Nat.le_of_succ_le hle
  · exact nofun
  · exact h.alive t

/-- The parent moves on after it has sent and received everything. -/
theorem Inv.main_moves {pc : MainPc} (h : Inv p s) (hmain : s.main = .reap ∨ s.main = .rmid)
    (hpc : pc = .rmid ∨ pc = .done)
    (hstopped : ∀ t, 1 ≤ t → t ≤ p.workers → (s.worker t).Stopped) :
    Inv p { s with main := pc } := by
  have hsame : pc.sent p = s.main.sent p ∧ pc.resultsReceived p = s.main.resultsReceived p ∧
      pc.nextFork p = s.main.nextFork p := by
    rcases hmain with hmain | hmain <;> rcases hpc with rfl | rfl <;> rw [hmain] <;>
      exact ⟨rfl, rfl, rfl⟩
  exact
    { h with
      bound := by rcases hpc with rfl | rfl <;> trivial
      received_length := hsame.2.1.symm ▸ h.received_length
      jobs_eq := hsame.1.symm ▸ h.jobs_eq
      unborn := hsame.2.2.symm ▸ h.unborn
      reaped := fun _ => hstopped }

/-- The worker of type `t` changes to `w`, and the queue to `queue`. -/
theorem Inv.update_worker {t : ℕ} {w : Worker} {queue : List Message} (h : Inv p s)
    (hborn : (s.worker t).pc ≠ .unborn)
    (hjobs : w.consumed ++ queue.filter (·.type = t) =
      (s.worker t).consumed ++ s.queue.filter (·.type = t))
    (hresults : s.received.filter (·.isResultOf p t) ++ queue.filter (·.isResultOf p t) ++
      w.inHand = w.consumed.filterMap (answer p t))
    (hothers : ∀ t', t' ≠ t → 1 ≤ t' → t' ≤ p.workers →
      queue.filter (·.type = t') = s.queue.filter (·.type = t') ∧
        queue.filter (·.isResultOf p t') = s.queue.filter (·.isResultOf p t'))
    (hstops : w.consumed.countP Message.isStop = if w.Stopped then 1 else 0)
    (hhand : ∀ m, w.pc = .send m → m.isResultOf p t)
    (hqueue : ∀ m ∈ queue, m ∈ s.queue ∨ m.isResultOf p t) (halive : w.pc ≠ .died)
    (hstopped : (s.worker t).Stopped → w.Stopped) :
    Inv p { s with queue := queue, worker := Function.update s.worker t w } := by
  obtain ⟨hone, hle⟩ := h.range_of_born hborn
  refine
    { bound := h.bound
      received_length := h.received_length
      jobs_eq := fun t' ht' htw' => ?_
      results_eq := fun t' ht' htw' => ?_
      stops_eq := fun t' => ?_
      in_hand := fun t' m => ?_
      queue_type := fun m hm =>
        (hqueue m hm).elim (h.queue_type m) fun hm => .inr ⟨t, hone, hle, hm⟩
      received_result := h.received_result
      unborn := fun t' ht' => ?_
      alive := fun t' => ?_
      reaped := fun hend t' ht' htw' => ?_ } <;>
    -- each field for worker `t`, and for the others
    by_cases htt : t' = t <;>
    simp only [htt, Function.update_self, Function.update_of_ne, ne_eq, not_false_eq_true]
  · rw [hjobs]
    exact h.jobs_eq t hone hle
  · rw [(hothers t' htt ht' htw').1]
    exact h.jobs_eq t' ht' htw'
  · exact hresults
  · rw [(hothers t' htt ht' htw').2]
    exact h.results_eq t' ht' htw'
  · exact hstops
  · exact h.stops_eq t'
  · exact hhand m
  · exact h.in_hand t' m
  · exact absurd (h.unborn t (htt ▸ ht')) hborn
  · exact h.unborn t' ht'
  · exact halive
  · exact h.alive t'
  · exact hstopped (h.reaped hend t hone hle)
  · exact h.reaped hend t' ht' htw'

/-- A worker receives a job or its stop. -/
theorem Inv.worker_receives {t : ℕ} {m : Message} {queue : List Message} (h : Inv p s)
    (hpc : (s.worker t).pc = .receive)
    (hrcv : MessageQueue.receive Message.type t s.queue = some (m, queue)) :
    (∃ jobId value, m.body = .job jobId value) ∧
      ∀ jobId value, m.body = .job jobId value →
        Inv p { s with
          queue := queue
          worker := Function.update s.worker t
            { pc := if jobId < 0 then .exit else .send (result p t jobId value)
              consumed := (s.worker t).consumed ++ [m] } } := by
  have hborn : (s.worker t).pc ≠ .unborn := by simp [hpc]
  obtain ⟨hone, hle⟩ := h.range_of_born hborn
  have htype := MessageQueue.type_of_receive hrcv
  have hsent := h.mem_sent_of_mem_queue (MessageQueue.mem_of_receive hrcv)
    (htype ▸ hone) (htype ▸ hle)
  have hlt := p.workers_lt
  -- results have type 100, which is the type of no worker
  have hnotResult : ∀ t', m.isResultOf p t' = false := by
    intro t'
    by_contra hres
    have := Message.type_of_isResultOf (eq_true_of_ne_false hres)
    omega
  refine ⟨?_, fun jobId value hbody => h.update_worker hborn ?_ ?_ ?_ ?_ ?_ ?_ ?_ ?_⟩
  · -- a message of a worker's type comes from the parent, so it is a job or a stop
    rcases mem_sent h.bound hsent with ⟨i, -, rfl⟩ | ⟨t', rfl⟩
    · exact ⟨_, _, rfl⟩
    · exact ⟨_, _, rfl⟩
  · -- the oldest message of the type moves from the queue to what the worker has consumed
    rw [MessageQueue.filter_of_receive hrcv (by simp) (by simp [htype])]
    simp
  · -- the answer to the message, if any, is what the worker has in its hand now
    have heq := h.results_eq t hone hle
    simp only [Worker.inHand, hpc, List.append_nil] at heq
    rw [MessageQueue.filter_of_receive_of_not hrcv (hnotResult t), heq]
    by_cases hneg : jobId < 0
    · simp [Worker.inHand, answer, hbody, hneg]
    · simp [Worker.inHand, answer, hbody, hneg]
  · intro t' htt _ _
    exact ⟨MessageQueue.filter_of_receive_of_not hrcv (by simpa [htype] using htt.symm),
      MessageQueue.filter_of_receive_of_not hrcv (hnotResult t')⟩
  · have heq := h.stops_eq t
    simp only [Worker.Stopped, hpc, reduceCtorEq, or_self, ↓reduceIte] at heq
    by_cases hneg : jobId < 0
    · simp [List.countP_append, heq, Message.isStop, hbody, hneg, Worker.Stopped]
    · simp [List.countP_append, heq, Message.isStop, hbody, hneg, Worker.Stopped]
  · -- the job is one the parent has sent, so its number says which worker answers it
    intro m' hm'
    by_cases hneg : jobId < 0
    · simp [hneg] at hm'
    · simp only [hneg, ↓reduceIte, WorkerPc.send.injEq] at hm'
      subst hm'
      rcases mem_sent h.bound hsent with ⟨i, hi, rfl⟩ | ⟨t', rfl⟩
      · have htt : i % p.workers + 1 = t := htype
        obtain ⟨rfl, rfl⟩ : cInt (i + 1) = jobId ∧ cInt (i + 2) = value := by
          simpa [job] using hbody
        have hres := isResultOf_result p t i (cInt (i + 2))
        rw [cInt_jobId hi]
        rwa [htt] at hres
      · simp only [stop, Body.job.injEq] at hbody
        omega
  · exact fun m' hm' => .inl (MessageQueue.subset_of_receive hrcv hm')
  · by_cases hneg : jobId < 0 <;> simp [hneg]
  · intro hstopped
    simp [Worker.Stopped, hpc] at hstopped

/-- A worker sends the result it has in its hand. -/
theorem Inv.worker_sends {t : ℕ} {m : Message} (h : Inv p s) (hpc : (s.worker t).pc = .send m) :
    Inv p { s with
      queue := s.queue ++ [m]
      worker := Function.update s.worker t { s.worker t with pc := .receive } } := by
  have hborn : (s.worker t).pc ≠ .unborn := by simp [hpc]
  obtain ⟨hone, hle⟩ := h.range_of_born hborn
  have hres := h.in_hand t m hpc
  have hlt := p.workers_lt
  -- the result is for the parent and in no worker's part of the queue
  have htype : ∀ t', t' ≤ p.workers → m.type ≠ t' := by
    intro t' ht'
    rw [Message.type_of_isResultOf hres]
    omega
  refine h.update_worker hborn ?_ ?_ ?_ ?_ nofun ?_ nofun ?_
  · rw [List.filter_append, List.filter_singleton]
    simp [htype t hle]
  · have heq := h.results_eq t hone hle
    simp only [Worker.inHand, hpc] at heq
    rw [List.filter_append, List.filter_singleton, hres]
    simpa [Worker.inHand] using heq
  · intro t' htt _ hle'
    have hother : m.isResultOf p t' = false := by
      by_contra hne
      exact htt (Message.isResultOf_unique (eq_true_of_ne_false hne) hres)
    simp [List.filter_append, htype t' hle', hother]
  · have heq := h.stops_eq t
    simpa [Worker.Stopped, hpc] using heq
  · intro m' hm'
    rcases List.mem_append.mp hm' with hm' | hm'
    · exact .inl hm'
    · rw [List.mem_singleton.mp hm']
      exact .inr hres
  · intro hstopped
    simp [Worker.Stopped, hpc] at hstopped

/-- A stopped worker exits. -/
theorem Inv.worker_exits {t : ℕ} (h : Inv p s) (hpc : (s.worker t).pc = .exit) :
    Inv p { s with
      worker := Function.update s.worker t { s.worker t with pc := .exited } } := by
  have hborn : (s.worker t).pc ≠ .unborn := by simp [hpc]
  obtain ⟨hone, hle⟩ := h.range_of_born hborn
  refine h.update_worker hborn rfl ?_ (fun _ _ _ _ => ⟨rfl, rfl⟩) ?_ nofun (fun _ => .inl) nofun
    (fun _ => .inr rfl)
  · simpa [Worker.inHand, hpc] using h.results_eq t hone hle
  · simpa [Worker.Stopped, hpc] using h.stops_eq t

/-- A worker receives only what is meant for it, and its result goes to the parent. -/
theorem Inv.workerStep {t : ℕ} (h : Inv p s) (hs : workerStep p s t = some s') : Inv p s' := by
  unfold SysvPriorityWorkers.workerStep at hs
  cases hpc : (s.worker t).pc <;>
    simp only [hpc, Option.bind_eq_bind, Option.bind_eq_some_iff, Option.some.injEq,
      MessageQueue.send_eq_some_iff, reduceCtorEq] at hs
  case receive =>
    obtain ⟨⟨m, queue⟩, hrcv, hs⟩ := hs
    obtain ⟨⟨jobId, value, hbody⟩, hinv⟩ := h.worker_receives hpc hrcv
    simp only [hbody, Option.some.injEq] at hs
    rw [← hs]
    exact hinv jobId value hbody
  case send m =>
    obtain ⟨queue, ⟨-, rfl⟩, rfl⟩ := hs
    exact h.worker_sends hpc
  case exit =>
    subst hs
    exact h.worker_exits hpc

/-- The parent sends to its workers and receives only results. -/
theorem Inv.mainStep (h : Inv p s) (hs : mainStep p s = some s') : Inv p s' := by
  have hbound := h.bound
  unfold SysvPriorityWorkers.mainStep at hs
  cases hmain : s.main <;>
    simp only [hmain, Option.bind_eq_bind, Option.bind_eq_some_iff, Option.some.injEq,
      MessageQueue.send_eq_some_iff, Option.ite_none_right_eq_some, reduceCtorEq] at hs <;>
    simp only [hmain, MainPc.Bound] at hbound
  case fork i =>
    subst hs
    exact h.main_forks hbound.1 (hmain ▸ at_fork hbound)
      (forkTest_at (Nat.le_add_left _ _) (Nat.succ_le_succ hbound.2))
  case sendJob i =>
    obtain ⟨queue, ⟨-, rfl⟩, rfl⟩ := hs
    have hold : s.main.At p i 0 0 (p.workers + 1) := hmain ▸ at_sendJob hbound
    have hnew := sendTest_at (p := p) (i := i + 1) hbound
    refine h.main_sends hold hnew ?_ (Nat.le_add_left _ _) (Nat.mod_lt i p.one_le_workers)
      fun _ => rfl
    rw [hold.sent_eq, hnew.sent_eq, List.range_succ]
    simp
  case receive i =>
    obtain ⟨⟨m, queue⟩, hrcv, rfl⟩ := hs
    exact h.main_receives hrcv (hmain ▸ at_receive hbound) (receiveTest_at hbound)
  case sendStop i =>
    obtain ⟨queue, ⟨-, rfl⟩, rfl⟩ := hs
    have hold : s.main.At p p.jobs (i - 1) p.jobs (p.workers + 1) := hmain ▸ at_sendStop hbound
    have hnew := stopTest_at (p := p) (i := i + 1) (Nat.le_add_left _ _)
      (Nat.succ_le_succ hbound.2)
    refine h.main_sends hold hnew ?_ hbound.1 hbound.2 fun _ => rfl
    -- the loop starts at 1, so `i` stops have been sent after this one
    obtain ⟨n, rfl⟩ := Nat.exists_eq_add_of_le' hbound.1
    rw [hold.sent_eq, hnew.sent_eq]
    simp [List.range'_1_concat, Nat.add_comm]
  case reap =>
    obtain ⟨hterminated, rfl⟩ := hs
    refine h.main_moves (.inl hmain) (.inl rfl) fun t ht htw => ?_
    -- a worker that has terminated has not died, so it has received its stop
    rcases hterminated t (List.mem_range'_1.mpr (by omega)) with hexited | hdied
    · exact .inr hexited
    · exact absurd hdied (h.alive t)
  case rmid =>
    subst hs
    exact h.main_moves (.inr hmain) (.inr rfl) (h.reaped (.inl hmain))

theorem Inv.init : Inv p (init p) := by
  have hat := forkTest_at (p := p) (i := 1) le_rfl (Nat.le_add_left _ _)
  exact
    { bound := hat.bound
      received_length := hat.resultsReceived.symm
      jobs_eq := fun _ _ _ => by simp [SysvPriorityWorkers.init, hat.sent_eq]
      results_eq := fun _ _ _ => rfl
      stops_eq := fun _ => rfl
      in_hand := nofun
      queue_type := nofun
      received_result := nofun
      unborn := fun _ _ => rfl
      alive := nofun
      reaped := fun hend => absurd hend hat.not_reaped }

/-- The invariant holds along every run. -/
theorem inv_of_reachable (h : (system p).Reachable s) : Inv p s := by
  refine h.invariant Inv.init fun s a s' hinv hs => ?_
  rcases a with _ | t
  · exact hinv.mainStep hs
  · exact hinv.workerStep hs

end Steps

end SysvPriorityWorkers
