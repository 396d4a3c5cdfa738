import OsPrograms.Lib.BoundedQueue
import OsPrograms.Lib.Refinement
import OsPrograms.SharedMemory.PosixShmRingSem

/-!
# The ring of `posix_shm_ring_sem` is a bounded queue

What the ring is for: a first-in first-out queue of `CAPACITY` elements between two processes. The
store into `slots[tail]` is the moment of `enqueue` and the load from `slots[head]` that of
`dequeue`; all other steps, the semaphore operations and the updates of the indices among them,
change nothing that a user of the queue sees.

## Main results

- `refinement`: the program with its semaphores refines the queue.
- `ring_refines_queue`: every interleaving is a run of the queue, in which the producer has
  enqueued `1, 2, …` and the consumer has dequeued what it has received.
- `ring_terminates`: apart from interrupted waits a run has at most 13 steps for each item, and it
  has that many exactly when both loops are finished.
-/

namespace PosixShmRingSem

open RingWindow TransitionSystem

/-- The values in the ring that have been written and not read, the oldest first. -/
def State.contents (capacity : ℕ) (s : State) : List ℤ :=
  (List.range' s.consumed (s.written - s.consumed)).map fun j => s.slots (j % capacity)

/-- The operation of the queue that a step of the program performs. -/
def queueOp (s : State) : Action → List (BoundedQueue.Op ℤ)
  | .producer => if s.producer = .writeSlot then [.enqueue s.value] else []
  | .consumer => if s.consumer = .readSlot then [.dequeue (s.slots s.head)] else []
  | .producerEintr | .consumerEintr => []

section Contents

variable {capacity items : ℕ} {s s' : State}

/-- The window of the invariant is what the ring contains. -/
theorem Inv.contents_eq (h : Inv capacity items s) :
    s.contents capacity = (List.range' s.consumed (s.written - s.consumed)).map produced := by
  refine List.map_congr_left fun j hj => ?_
  obtain ⟨hle, hlt⟩ := List.mem_range'_1.mp hj
  exact h.window j hle (by omega)

/-- What a step of the producer does to the counts: the store writes one value more. -/
theorem counts_of_producerStep (h : Inv capacity items s)
    (hs : producerStep capacity items s = some s') :
    s'.consumed = s.consumed ∧
      s'.written = s.written + if s.producer = .writeSlot then 1 else 0 := by
  have hpos := h.value_pos
  unfold producerStep at hs
  cases hpc : s.producer <;>
    simp only [hpc, Option.bind_eq_bind, Option.bind_eq_some_iff, Option.some.injEq,
      reduceCtorEq] at hs
  case postFull =>
    -- the iteration is over: the value that it wrote is counted by `value` now
    subst hs
    have hwrote : (producerTest items (s.value + 1)).wroteSlot = 0 :=
      (producerTest_counts items (s.value + 1)).2.2.1
    have hwrote' : s.producer.wroteSlot = 1 := by rw [hpc]; rfl
    simp only [State.written, State.consumed, hwrote, hwrote', reduceCtorEq, ↓reduceIte]
    exact ⟨trivial, by omega⟩
  case waitEmpty | waitMutex =>
    obtain ⟨_, -, rfl⟩ := hs
    simp [State.written, State.consumed, hpc, ProducerPc.wroteSlot]
  all_goals
    subst hs
    simp [State.written, State.consumed, hpc, ProducerPc.wroteSlot]

/-- What a step of the consumer does to the counts: the load reads one value more. -/
theorem counts_of_consumerStep (hs : consumerStep capacity items s = some s') :
    s'.written = s.written ∧
      s'.consumed = s.consumed + if s.consumer = .readSlot then 1 else 0 := by
  unfold consumerStep at hs
  cases hpc : s.consumer <;>
    simp only [hpc, Option.bind_eq_bind, Option.bind_eq_some_iff, Option.some.injEq,
      reduceCtorEq] at hs
  case addTotal =>
    subst hs
    have hread : (consumerTest items (s.i + 1)).readItem = 0 :=
      (consumerTest_counts items (s.i + 1)).2.2.1
    have hread' : s.consumer.readItem = 1 := by rw [hpc]; rfl
    simp [State.written, State.consumed, hread, hread']
  case waitFull | waitMutex =>
    obtain ⟨_, -, rfl⟩ := hs
    simp [State.written, State.consumed, hpc, ConsumerPc.readItem]
  all_goals
    subst hs
    simp [State.written, State.consumed, hpc, ConsumerPc.readItem]

/-- A step that moves neither end of the window leaves the contents. -/
theorem contents_eq_of_counts (h : Inv capacity items s) (h' : Inv capacity items s')
    (hwritten : s'.written = s.written) (hconsumed : s'.consumed = s.consumed) :
    s'.contents capacity = s.contents capacity := by
  rw [h'.contents_eq, h.contents_eq, hwritten, hconsumed]

/-- The store appends the producer's `value`. -/
theorem contents_of_write (h : Inv capacity items s) (h' : Inv capacity items s')
    (hpc : s.producer = .writeSlot) (hwritten : s'.written = s.written + 1)
    (hconsumed : s'.consumed = s.consumed) :
    s'.contents capacity = s.contents capacity ++ [(s.value : ℤ)] := by
  have hle := h.consumed_le_written
  have hpos := h.value_pos
  have hwrote : s.producer.wroteSlot = 0 := by rw [hpc]; rfl
  have hvalue : s.written + 1 = s.value := by
    rw [State.written, hwrote]
    omega
  have hcount : s.written + 1 - s.consumed = s.written - s.consumed + 1 := by omega
  have hlast : s.consumed + (s.written - s.consumed) = s.written := by omega
  rw [h'.contents_eq, h.contents_eq, hwritten, hconsumed, hcount, List.range'_1_concat,
    List.map_append, hlast, List.map_singleton, produced, hvalue]

/-- The load takes the oldest value. -/
theorem contents_of_read (h : Inv capacity items s) (h' : Inv capacity items s')
    (hpc : s.consumer = .readSlot) (hwritten : s'.written = s.written)
    (hconsumed : s'.consumed = s.consumed + 1) :
    s.contents capacity = s.slots s.head :: s'.contents capacity := by
  have hlt := h.available hpc
  have hhead : s.head = s.consumed % capacity := by
    rw [h.head_eq, State.consumed, hpc]
    rfl
  have hcount : s.written - s.consumed = s.written - (s.consumed + 1) + 1 := by omega
  rw [h'.contents_eq, h.contents_eq, hwritten, hconsumed, hcount, List.range'_succ, List.map_cons,
    hhead, h.window.front hlt]

end Contents

/-! ## The refinement -/

section Refines

variable {capacity items : ℕ} {s s' : State} {a : Action}

/-- Each step of the program is the operation that `queueOp` says. -/
theorem run_queueOp (h : Inv capacity items s) (hs : step capacity items s a = some s') :
    (BoundedQueue.system capacity).run (s.contents capacity) (queueOp s a) =
      some (s'.contents capacity) := by
  have h' := h.step hs
  cases a with
  | producer =>
    obtain ⟨hconsumed, hwritten⟩ := counts_of_producerStep h hs
    by_cases hpc : s.producer = .writeSlot
    · rw [if_pos hpc] at hwritten
      -- the producer has taken one from `empty`, so that there is a free slot
      have hroom := h.room hpc
      have hle := h.consumed_le_written
      have hlength : (s.contents capacity).length < capacity := by
        rw [State.contents, List.length_map, List.length_range']
        omega
      rw [queueOp, if_pos hpc, contents_of_write h h' hpc hwritten hconsumed]
      exact run_cons (if_pos hlength)
    · rw [if_neg hpc] at hwritten
      rw [queueOp, if_neg hpc, contents_eq_of_counts h h' hwritten hconsumed]
      rfl
  | consumer =>
    obtain ⟨hwritten, hconsumed⟩ := counts_of_consumerStep hs
    by_cases hpc : s.consumer = .readSlot
    · rw [if_pos hpc] at hconsumed
      rw [queueOp, if_pos hpc, contents_of_read h h' hpc hwritten hconsumed]
      exact run_cons (if_pos rfl)
    · rw [if_neg hpc] at hconsumed
      rw [queueOp, if_neg hpc, contents_eq_of_counts h h' hwritten hconsumed]
      rfl
  -- an interrupted `sem_wait` is called again
  | producerEintr =>
    simp only [step, Option.ite_none_right_eq_some, Option.some.injEq] at hs
    rw [hs.2]
    rfl
  | consumerEintr =>
    simp only [step, Option.ite_none_right_eq_some, Option.some.injEq] at hs
    rw [hs.2]
    rfl

/-- The ring refines the bounded queue. -/
def refinement (capacity items : ℕ) :
    Refinement (ring capacity items) (BoundedQueue.system (α := ℤ) capacity) where
  abs := State.contents capacity
  event := queueOp
  abs_init := by
    simp [ring, init, BoundedQueue.system, State.contents, State.written]
  run_event hs hstep := run_queueOp (inv_of_reachable hs) hstep

/-- The operations of the queue that the program has performed. -/
def queueOps (capacity items : ℕ) (as : List Action) : List (BoundedQueue.Op ℤ) :=
  (refinement capacity items).trace (ring capacity items).init as

/-- What a step dequeues is what the consumer receives. -/
theorem received_of_step (hs : step capacity items s a = some s') :
    s'.received = s.received ++ BoundedQueue.dequeued (queueOp s a) := by
  cases a with
  | producer =>
    have hsame : s'.received = s.received := by
      simp only [step, producerStep] at hs
      split at hs <;>
        simp only [Option.bind_eq_bind, Option.bind_eq_some_iff, Option.some.injEq,
          reduceCtorEq] at hs
      case h_1 | h_2 =>
        obtain ⟨_, -, rfl⟩ := hs
        rfl
      all_goals
        subst hs
        rfl
    simp only [queueOp]
    split <;> simp [BoundedQueue.dequeued, hsame]
  | consumer =>
    simp only [step, consumerStep] at hs
    split at hs <;>
      simp only [Option.bind_eq_bind, Option.bind_eq_some_iff, Option.some.injEq,
        reduceCtorEq] at hs
    case h_1 hpc | h_2 hpc =>
      obtain ⟨_, -, rfl⟩ := hs
      simp [queueOp, hpc, BoundedQueue.dequeued]
    all_goals
      rename_i hpc
      subst hs
      simp [queueOp, hpc, BoundedQueue.dequeued]
  | producerEintr | consumerEintr =>
    simp only [step, Option.ite_none_right_eq_some, Option.some.injEq] at hs
    rw [← hs.2, queueOp, BoundedQueue.dequeued, List.filterMap_nil, List.append_nil]

/-- What the consumer receives in a run is what the run dequeues. -/
theorem received_of_run {as : List Action} (hrun : (ring capacity items).run s as = some s') :
    s'.received = s.received ++
      BoundedQueue.dequeued ((refinement capacity items).trace s as) := by
  induction as generalizing s with
  | nil =>
    obtain rfl := Option.some.inj hrun
    simp [Refinement.trace, BoundedQueue.dequeued]
  | cons a as ih =>
    obtain ⟨u, hstep, hrun⟩ := exists_of_run_cons hrun
    have hu : u.received = s.received ++ BoundedQueue.dequeued (queueOp s a) :=
      received_of_step hstep
    rw [ih hrun, Refinement.trace_cons hstep, hu, List.append_assoc, BoundedQueue.dequeued,
      BoundedQueue.dequeued, BoundedQueue.dequeued, List.filterMap_append]
    rfl

/-- Every interleaving of producer and consumer is a run of a first-in first-out queue of
`capacity` elements that ends with what is in the ring. In it the producer has enqueued
`1, 2, …, k` and the consumer has dequeued what it has received. -/
theorem ring_refines_queue {as : List Action}
    (hrun : (ring capacity items).run (ring capacity items).init as = some s) :
    (BoundedQueue.system capacity).run [] (queueOps capacity items as) =
        some (s.contents capacity) ∧
      BoundedQueue.dequeued (queueOps capacity items as) = s.received ∧
      BoundedQueue.enqueued (queueOps capacity items as) =
        (List.range s.written).map fun j => ((j + 1 : ℕ) : ℤ) := by
  have hinv := inv_of_reachable (reachable_of_run hrun)
  have htrace : (BoundedQueue.system capacity).run [] (queueOps capacity items as) =
      some (s.contents capacity) :=
    Refinement.run_trace_init (R := refinement capacity items) hrun
  have hdequeued : BoundedQueue.dequeued (queueOps capacity items as) = s.received :=
    (received_of_run hrun).symm
  refine ⟨htrace, hdequeued, ?_⟩
  -- first in, first out: what has been enqueued has been received or is in the ring
  have hfifo := BoundedQueue.enqueued_eq htrace
  have hsplit : s.consumed + (s.written - s.consumed) = s.written := by
    have hle := hinv.consumed_le_written
    omega
  rw [List.nil_append, hdequeued, hinv.received_eq, hinv.contents_eq, ← List.map_append,
    List.range_eq_range'] at hfifo
  have hrange := List.range'_append_1 (s := 0) (m := s.consumed) (n := s.written - s.consumed)
  rw [Nat.zero_add, hsplit] at hrange
  rw [hfifo, hrange, ← List.range_eq_range']
  rfl

end Refines

/-- Two values go into the ring, an interrupted wait of the consumer between them, and the first one
is read. -/
theorem ring_refines_queue_two_items :
    ∃ s, (ring 2 2).run (ring 2 2).init
        ([.producer, .consumerEintr] ++ List.replicate 11 .producer ++
          List.replicate 3 .consumer) = some s ∧
      (BoundedQueue.system 2).run [] [.enqueue 1, .enqueue 2, .dequeue 1] =
        some (s.contents 2) := by
  have hrun : ((ring 2 2).run (ring 2 2).init ([.producer, .consumerEintr] ++
      List.replicate 11 .producer ++ List.replicate 3 .consumer)).isSome := by decide
  obtain ⟨s, hs⟩ := Option.isSome_iff_exists.mp hrun
  exact ⟨s, hs, (ring_refines_queue hs).1⟩

/-! ## Termination -/

/-- The number of steps a producer at `pc` has made in its iteration. -/
def ProducerPc.made : ProducerPc → ℕ
  | .waitEmpty | .done => 0
  | .waitMutex => 1
  | .writeSlot => 2
  | .updateTail => 3
  | .postMutex => 4
  | .postFull => 5

/-- The number of steps a consumer at `pc` has made in its iteration. -/
def ConsumerPc.made : ConsumerPc → ℕ
  | .waitFull | .done => 0
  | .waitMutex => 1
  | .readSlot => 2
  | .updateHead => 3
  | .postMutex => 4
  | .postEmpty => 5
  | .addTotal => 6

/-- The number of steps that are still to come, interrupted waits not counted. -/
def remaining (items : ℕ) (s : State) : ℕ :=
  (6 * (items + 1 - s.value) - s.producer.made) + (7 * (items - s.i) - s.consumer.made)

/-- The action is not an interrupted wait. -/
def Action.isStep : Action → Bool
  | .producer | .consumer => true
  | .producerEintr | .consumerEintr => false

section Termination

variable {capacity items : ℕ} {s s' : State} {a : Action}

/-- At the test of its loop the producer has made no step of its iteration. -/
theorem made_producerTest (items value : ℕ) : (producerTest items value).made = 0 := by
  unfold producerTest
  split <;> rfl

/-- At the test of its loop the consumer has made no step of its iteration. -/
theorem made_consumerTest (items i : ℕ) : (consumerTest items i).made = 0 := by
  unfold consumerTest
  split <;> rfl

/-- A step of the producer is one of its six for an item. -/
theorem remaining_of_producerStep (h : Inv capacity items s)
    (hs : producerStep capacity items s = some s') :
    1 + remaining items s' = remaining items s := by
  have hbound := h.value_bound
  unfold producerStep at hs
  cases hpc : s.producer <;>
    simp only [hpc, Option.bind_eq_bind, Option.bind_eq_some_iff, Option.some.injEq,
      reduceCtorEq, ProducerPc.Bound] at hs hbound
  case waitEmpty | waitMutex =>
    obtain ⟨_, -, rfl⟩ := hs
    simp only [remaining, hpc, ProducerPc.made]
    omega
  case postFull =>
    subst hs
    have hmade : s.producer.made = 5 := by rw [hpc]; rfl
    simp only [remaining, made_producerTest, hmade]
    omega
  all_goals
    subst hs
    simp only [remaining, hpc, ProducerPc.made]
    omega

/-- A step of the consumer is one of its seven for an item. -/
theorem remaining_of_consumerStep (h : Inv capacity items s)
    (hs : consumerStep capacity items s = some s') :
    1 + remaining items s' = remaining items s := by
  have hbound := h.i_bound
  unfold consumerStep at hs
  cases hpc : s.consumer <;>
    simp only [hpc, Option.bind_eq_bind, Option.bind_eq_some_iff, Option.some.injEq,
      reduceCtorEq, ConsumerPc.Bound] at hs hbound
  case waitFull | waitMutex =>
    obtain ⟨_, -, rfl⟩ := hs
    simp only [remaining, hpc, ConsumerPc.made]
    omega
  case addTotal =>
    subst hs
    have hmade : s.consumer.made = 6 := by rw [hpc]; rfl
    simp only [remaining, made_consumerTest, hmade]
    omega
  all_goals
    subst hs
    simp only [remaining, hpc, ConsumerPc.made]
    omega

/-- An interrupted wait changes nothing. -/
theorem remaining_of_step (h : Inv capacity items s) (hs : step capacity items s a = some s') :
    (if a.isStep then 1 else 0) + remaining items s' = remaining items s := by
  cases a with
  | producer => exact remaining_of_producerStep h hs
  | consumer => exact remaining_of_consumerStep h hs
  | producerEintr | consumerEintr =>
    simp only [step, Option.ite_none_right_eq_some, Option.some.injEq] at hs
    rw [hs.2]
    exact Nat.zero_add _

/-- Nothing is left to do exactly when both loops are finished. -/
theorem Inv.remaining_eq_zero_iff (h : Inv capacity items s) :
    remaining items s = 0 ↔ s.producer = .done ∧ s.consumer = .done := by
  have hvalue := h.value_bound
  have hi := h.i_bound
  rw [remaining]
  constructor
  · intro hzero
    constructor
    · cases hpc : s.producer <;>
        simp only [hpc, ProducerPc.Bound, ProducerPc.made] at hvalue hzero ⊢
      all_goals omega
    · cases hpc : s.consumer <;>
        simp only [hpc, ConsumerPc.Bound, ConsumerPc.made] at hi hzero ⊢
      all_goals omega
  · rintro ⟨hp, hc⟩
    simp only [hp, hc, ProducerPc.Bound, ConsumerPc.Bound] at hvalue hi
    omega

/-- In every run the producer and the consumer make at most 13 steps for each item, interrupted
waits not counted, and they have made that many exactly when both loops are finished. -/
theorem ring_terminates {as : List Action}
    (hrun : (ring capacity items).run (ring capacity items).init as = some s) :
    as.countP Action.isStep ≤ 13 * items ∧
      (as.countP Action.isStep = 13 * items ↔ s.producer = .done ∧ s.consumer = .done) := by
  have hcount := Reachable.countP_run_eq (remaining items) Action.isStep
    (fun s a s' hs hstep => remaining_of_step (inv_of_reachable hs) hstep) .init hrun
  have hinit : remaining items (ring capacity items).init = 13 * items := by
    simp only [remaining, ring, init, made_producerTest, made_consumerTest]
    omega
  have hzero := (inv_of_reachable (reachable_of_run hrun)).remaining_eq_zero_iff
  rw [hinit] at hcount
  refine ⟨by omega, ?_⟩
  rw [← hzero]
  omega

end Termination

/-- One slot and two items: after 12 steps of the producer and 14 of the consumer, which take turns,
both are finished. -/
theorem ring_terminates_two_items :
    ∃ s, (ring 1 2).run (ring 1 2).init
        (List.replicate 6 .producer ++ List.replicate 7 .consumer ++
          List.replicate 6 .producer ++ List.replicate 7 .consumer) = some s ∧
      s.producer = .done ∧ s.consumer = .done := by
  have hrun : ((ring 1 2).run (ring 1 2).init
      (List.replicate 6 .producer ++ List.replicate 7 .consumer ++
        List.replicate 6 .producer ++ List.replicate 7 .consumer)).isSome := by decide
  obtain ⟨s, hs⟩ := Option.isSome_iff_exists.mp hrun
  exact ⟨s, hs, (ring_terminates hs).2.mp rfl⟩

end PosixShmRingSem
