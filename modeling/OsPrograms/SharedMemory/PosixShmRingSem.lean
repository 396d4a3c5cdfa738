import OsPrograms.Lib.RingWindow
import OsPrograms.Lib.Semaphore
import OsPrograms.Lib.TransitionSystem

/-!
# The shared-memory ring of `posix_shm_ring_sem`

A producer writes the numbers `1, …, ITEMS` into a ring of `CAPACITY` slots and a consumer reads
them, synchronised by the semaphores `empty`, `full` and `mutex`. Both loops of `main` are
translated with every semaphore operation, slot access and index update as a step of its own, so
a run of `ring capacity items` is one interleaving of the two processes.

The state also records which slots were written and read, in order, and the values the consumer
got. The invariant `Inv` counts how far each process is from its program counter and expresses
the semaphores, the indices and the slots through these counts. The results:

* `Inv.step`: every step of either process keeps the invariant;
* `received_in_order`: the consumer has read exactly `1, …, k`, and no slot is overwritten
  before it is read or read before it is written;
* `ring_completes`: one of the processes can go on until both loops are finished, and then the
  semaphores and the indices are as at the beginning of a round.
-/

namespace PosixShmRingSem

open RingWindow

/-- Where the producer is: the next statement of its loop. -/
inductive ProducerPc
  /-- `sem_wait_retry(&ring->empty)` -/
  | waitEmpty
  /-- `sem_wait_retry(&ring->mutex)` -/
  | waitMutex
  /-- `ring->slots[ring->tail] = value` -/
  | writeSlot
  /-- `ring->tail = (ring->tail + 1) % CAPACITY` -/
  | updateTail
  /-- `sem_post(&ring->mutex)` -/
  | postMutex
  /-- `sem_post(&ring->full)` -/
  | postFull
  /-- After the loop. -/
  | done
  deriving DecidableEq, Repr

/-- Where the consumer is: the next statement of its loop. -/
inductive ConsumerPc
  /-- `sem_wait_retry(&ring->full)` -/
  | waitFull
  /-- `sem_wait_retry(&ring->mutex)` -/
  | waitMutex
  /-- `int value = ring->slots[ring->head]` -/
  | readSlot
  /-- `ring->head = (ring->head + 1) % CAPACITY` -/
  | updateHead
  /-- `sem_post(&ring->mutex)` -/
  | postMutex
  /-- `sem_post(&ring->empty)` -/
  | postEmpty
  /-- `total += value` -/
  | addTotal
  /-- After the loop. -/
  | done
  deriving DecidableEq, Repr

/-- The shared `struct ring`, the locals of both processes, and the record of the accesses. -/
structure State where
  /-- `ring->empty` -/
  empty : ℕ
  /-- `ring->full` -/
  full : ℕ
  /-- `ring->mutex` -/
  mutex : ℕ
  /-- `ring->head` -/
  head : ℕ
  /-- `ring->tail` -/
  tail : ℕ
  /-- `ring->slots` -/
  slots : ℕ → ℤ
  producer : ProducerPc
  /-- The producer's loop variable `value`. -/
  value : ℕ
  consumer : ConsumerPc
  /-- The consumer's loop variable `i`. -/
  i : ℕ
  /-- The consumer's local `value`. -/
  item : ℤ
  /-- The consumer's local `total`. -/
  total : ℤ
  /-- The slots written so far, in order. -/
  writes : List ℕ
  /-- The slots read so far, in order. -/
  reads : List ℕ
  /-- The values read so far, in order. -/
  received : List ℤ

/-- A scheduling choice: a step of one process, or an `EINTR` from its `sem_wait`. -/
inductive Action
  | producer
  | consumer
  | producerEintr
  | consumerEintr
  deriving DecidableEq, Repr

section Model

variable (capacity items : ℕ)

/-- The producer at the test `value <= ITEMS`. -/
def producerTest (value : ℕ) : ProducerPc :=
  if value ≤ items then .waitEmpty else .done

/-- The consumer at the test `i < ITEMS`. -/
def consumerTest (i : ℕ) : ConsumerPc :=
  if i < items then .waitFull else .done

/-- The state after `fork`: the ring is zeroed and the semaphores are initialised. -/
def init : State where
  empty := capacity
  full := 0
  mutex := 1
  head := 0
  tail := 0
  slots := fun _ => 0
  producer := producerTest items 1
  value := 1
  consumer := consumerTest items 0
  i := 0
  item := 0
  total := 0
  writes := []
  reads := []
  received := []

/-- The next step of the producer, `none` while it blocks and after its loop. -/
def producerStep (s : State) : Option State :=
  match s.producer with
  | .waitEmpty => do
    let empty ← Semaphore.wait s.empty
    some { s with empty := empty, producer := .waitMutex }
  | .waitMutex => do
    let mutex ← Semaphore.wait s.mutex
    some { s with mutex := mutex, producer := .writeSlot }
  | .writeSlot =>
    some { s with
      slots := Function.update s.slots s.tail s.value
      writes := s.writes ++ [s.tail]
      producer := .updateTail }
  | .updateTail => some { s with tail := (s.tail + 1) % capacity, producer := .postMutex }
  | .postMutex => some { s with mutex := Semaphore.post s.mutex, producer := .postFull }
  | .postFull =>
    some { s with
      full := Semaphore.post s.full
      value := s.value + 1
      producer := producerTest items (s.value + 1) }
  | .done => none

/-- The next step of the consumer, `none` while it blocks and after its loop. -/
def consumerStep (s : State) : Option State :=
  match s.consumer with
  | .waitFull => do
    let full ← Semaphore.wait s.full
    some { s with full := full, consumer := .waitMutex }
  | .waitMutex => do
    let mutex ← Semaphore.wait s.mutex
    some { s with mutex := mutex, consumer := .readSlot }
  | .readSlot =>
    some { s with
      item := s.slots s.head
      reads := s.reads ++ [s.head]
      received := s.received ++ [s.slots s.head]
      consumer := .updateHead }
  | .updateHead => some { s with head := (s.head + 1) % capacity, consumer := .postMutex }
  | .postMutex => some { s with mutex := Semaphore.post s.mutex, consumer := .postEmpty }
  | .postEmpty => some { s with empty := Semaphore.post s.empty, consumer := .addTotal }
  | .addTotal =>
    some { s with
      total := s.total + s.item
      i := s.i + 1
      consumer := consumerTest items (s.i + 1) }
  | .done => none

/-- One step of the system. An interrupted `sem_wait` is retried by `sem_wait_retry`, which leaves
everything as it was. -/
def step (s : State) : Action → Option State
  | .producer => producerStep capacity items s
  | .consumer => consumerStep capacity items s
  | .producerEintr =>
    if s.producer = .waitEmpty ∨ s.producer = .waitMutex then some s else none
  | .consumerEintr =>
    if s.consumer = .waitFull ∨ s.consumer = .waitMutex then some s else none

/-- The producer and the consumer, interleaved. -/
def ring : TransitionSystem State Action where
  init := init capacity items
  step := step capacity items

end Model

/-- Slot `t` holds a value that has been written and not yet read. -/
def State.Unread (s : State) (t : ℕ) : Prop :=
  s.reads.count t < s.writes.count t

/-! ## How far a process is in its iteration -/

namespace ProducerPc

/-- Passed `sem_wait_retry(&ring->empty)` in this iteration. -/
def tookEmpty : ProducerPc → ℕ
  | .waitEmpty | .done => 0
  | _ => 1

/-- Holds `mutex`. -/
def holdsMutex : ProducerPc → ℕ
  | .writeSlot | .updateTail | .postMutex => 1
  | _ => 0

/-- Wrote its slot in this iteration. -/
def wroteSlot : ProducerPc → ℕ
  | .updateTail | .postMutex | .postFull => 1
  | _ => 0

/-- Moved `tail` in this iteration. -/
def movedTail : ProducerPc → ℕ
  | .postMutex | .postFull => 1
  | _ => 0

/-- The range of the loop variable `value`. -/
def Bound (items value : ℕ) : ProducerPc → Prop
  | .done => value = items + 1
  | _ => value ≤ items

end ProducerPc

namespace ConsumerPc

/-- Passed `sem_wait_retry(&ring->full)` in this iteration. -/
def tookFull : ConsumerPc → ℕ
  | .waitFull | .done => 0
  | _ => 1

/-- Holds `mutex`. -/
def holdsMutex : ConsumerPc → ℕ
  | .readSlot | .updateHead | .postMutex => 1
  | _ => 0

/-- Read its slot in this iteration. -/
def readItem : ConsumerPc → ℕ
  | .updateHead | .postMutex | .postEmpty | .addTotal => 1
  | _ => 0

/-- Moved `head` in this iteration. -/
def movedHead : ConsumerPc → ℕ
  | .postMutex | .postEmpty | .addTotal => 1
  | _ => 0

/-- Posted `empty` in this iteration. -/
def postedEmpty : ConsumerPc → ℕ
  | .addTotal => 1
  | _ => 0

/-- The range of the loop variable `i`. -/
def Bound (items i : ℕ) : ConsumerPc → Prop
  | .done => i = items
  | _ => i < items

end ConsumerPc

namespace State

/-- The number of values written. -/
def written (s : State) : ℕ :=
  s.value - 1 + s.producer.wroteSlot

/-- The number of values read. -/
def consumed (s : State) : ℕ :=
  s.i + s.consumer.readItem

end State

/-- The value the producer writes as its `j`-th, counted from 0. -/
def produced (j : ℕ) : ℤ :=
  (j + 1 : ℕ)

/-- The invariant of `ring capacity items`. -/
structure Inv (capacity items : ℕ) (s : State) : Prop where
  value_pos : 1 ≤ s.value
  value_bound : s.producer.Bound items s.value
  i_bound : s.consumer.Bound items s.i
  empty_eq : s.empty + (s.value - 1 + s.producer.tookEmpty) =
    capacity + (s.i + s.consumer.postedEmpty)
  full_eq : s.full + (s.i + s.consumer.tookFull) = s.value - 1
  mutex_eq : s.mutex + s.producer.holdsMutex + s.consumer.holdsMutex = 1
  tail_eq : s.tail = (s.value - 1 + s.producer.movedTail) % capacity
  head_eq : s.head = (s.i + s.consumer.movedHead) % capacity
  window : Window capacity s.slots produced s.consumed s.written
  writes_eq : s.writes = visits capacity s.written
  reads_eq : s.reads = visits capacity s.consumed
  received_eq : s.received = (List.range s.consumed).map produced
  item_eq : s.consumer.readItem = 1 → s.item = produced s.i
  total_eq : 2 * s.total = s.i * (s.i + 1)

section Inv

variable {capacity items : ℕ} {s s' : State}

/-- The producer's loop test keeps `value` in its range. -/
theorem producerTest_bound {value : ℕ} (h : value ≤ items + 1) :
    (producerTest items value).Bound items value := by
  rw [producerTest]
  split
  · assumption
  · change value = items + 1
    omega

/-- The consumer's loop test keeps `i` in its range. -/
theorem consumerTest_bound {i : ℕ} (h : i ≤ items) : (consumerTest items i).Bound items i := by
  rw [consumerTest]
  split
  · assumption
  · change i = items
    omega

/-- At the loop test the producer has done nothing of the next iteration. -/
@[simp]
theorem producerTest_counts (items value : ℕ) :
    (producerTest items value).tookEmpty = 0 ∧ (producerTest items value).holdsMutex = 0 ∧
      (producerTest items value).wroteSlot = 0 ∧ (producerTest items value).movedTail = 0 := by
  rw [producerTest]
  split <;> exact ⟨rfl, rfl, rfl, rfl⟩

/-- At the loop test the consumer has done nothing of the next iteration. -/
@[simp]
theorem consumerTest_counts (items i : ℕ) :
    (consumerTest items i).tookFull = 0 ∧ (consumerTest items i).holdsMutex = 0 ∧
      (consumerTest items i).readItem = 0 ∧ (consumerTest items i).movedHead = 0 ∧
      (consumerTest items i).postedEmpty = 0 := by
  rw [consumerTest]
  split <;> exact ⟨rfl, rfl, rfl, rfl, rfl⟩

theorem ConsumerPc.postedEmpty_le_readItem (pc : ConsumerPc) : pc.postedEmpty ≤ pc.readItem := by
  cases pc <;> decide

theorem ConsumerPc.readItem_le_tookFull (pc : ConsumerPc) : pc.readItem ≤ pc.tookFull := by
  cases pc <;> decide

/-- Nothing is read that has not been written. -/
theorem Inv.consumed_le_written (h : Inv capacity items s) : s.consumed ≤ s.written := by
  have hfull := h.full_eq
  have hread := s.consumer.readItem_le_tookFull
  rw [State.consumed, State.written]
  omega

/-- A producer about to write has a free slot: it took it from `empty`, which the consumer posts
only after reading. -/
theorem Inv.room (h : Inv capacity items s) (hpc : s.producer = .writeSlot) :
    s.written < s.consumed + capacity := by
  have hempty := h.empty_eq
  have hpos := h.value_pos
  have hposted := s.consumer.postedEmpty_le_readItem
  have htook : s.producer.tookEmpty = 1 := by rw [hpc]; rfl
  have hwrote : s.producer.wroteSlot = 0 := by rw [hpc]; rfl
  rw [State.written, State.consumed]
  omega

/-- A consumer about to read has an unread value: it took it from `full`, which the producer
posts only after writing. -/
theorem Inv.available (h : Inv capacity items s) (hpc : s.consumer = .readSlot) :
    s.consumed < s.written := by
  have hfull := h.full_eq
  have htook : s.consumer.tookFull = 1 := by rw [hpc]; rfl
  have hread : s.consumer.readItem = 0 := by rw [hpc]; rfl
  rw [State.written, State.consumed]
  omega

/-- Before either process has moved the invariant holds. -/
theorem Inv.init (capacity items : ℕ) :
    Inv capacity items (PosixShmRingSem.init capacity items) := by
  have hproducer := producerTest_counts items 1
  have hconsumer := consumerTest_counts items 0
  have hwritten : (PosixShmRingSem.init capacity items).written = 0 := by
    simp [State.written, PosixShmRingSem.init]
  have hconsumed : (PosixShmRingSem.init capacity items).consumed = 0 := by
    simp [State.consumed, PosixShmRingSem.init]
  constructor
  case value_bound => exact producerTest_bound (Nat.succ_le_succ (Nat.zero_le _))
  case i_bound => exact consumerTest_bound (Nat.zero_le _)
  case window =>
    rw [hwritten, hconsumed]
    exact Window.empty capacity _ _ 0
  case writes_eq => rw [hwritten]; rfl
  case reads_eq => rw [hconsumed]; rfl
  case received_eq => rw [hconsumed]; rfl
  all_goals simp [PosixShmRingSem.init]

/-- The producer's steps keep the invariant. -/
theorem Inv.producerStep (h : Inv capacity items s)
    (hs : PosixShmRingSem.producerStep capacity items s = some s') : Inv capacity items s' := by
  have hroom := h.room
  -- with the program counter a constructor, what it counts computes, and the parts of the
  -- invariant that a step does not touch hold by definition
  obtain ⟨empty, full, mutex, head, tail, slots, producer, value, consumer, i, item, total, writes,
    reads, received⟩ := s
  have hpos : 1 ≤ value := h.value_pos
  cases producer with
  | waitEmpty =>
    simp only [PosixShmRingSem.producerStep, Option.bind_eq_bind, Option.bind_eq_some_iff,
      Semaphore.wait_eq_some_iff, Option.some.injEq] at hs
    obtain ⟨m, rfl, rfl⟩ := hs
    have hempty : m + 1 + (value - 1 + 0) = capacity + (i + consumer.postedEmpty) := h.empty_eq
    exact { h with
      empty_eq := show m + (value - 1 + 1) = capacity + (i + consumer.postedEmpty) by omega }
  | waitMutex =>
    simp only [PosixShmRingSem.producerStep, Option.bind_eq_bind, Option.bind_eq_some_iff,
      Semaphore.wait_eq_some_iff, Option.some.injEq] at hs
    obtain ⟨m, rfl, rfl⟩ := hs
    have hmutex : m + 1 + 0 + consumer.holdsMutex = 1 := h.mutex_eq
    exact { h with mutex_eq := show m + 1 + consumer.holdsMutex = 1 by omega }
  | writeSlot =>
    simp only [PosixShmRingSem.producerStep, Option.some.injEq] at hs
    subst hs
    -- the slot at `tail` is the one after the window, and there is room for it
    have hval : (value : ℤ) = produced (value - 1) := by
      rw [produced, Nat.sub_add_cancel hpos]
    have htail : tail = (value - 1) % capacity := h.tail_eq
    have hwrites : writes = visits capacity (value - 1) := h.writes_eq
    exact { h with
      window := by
        simp only [hval, htail]
        exact h.window.push (hroom rfl)
      writes_eq := by
        simp only [hwrites, htail]
        exact (visits_succ capacity (value - 1)).symm }
  | updateTail =>
    simp only [PosixShmRingSem.producerStep, Option.some.injEq] at hs
    subst hs
    have htail : tail = (value - 1) % capacity := h.tail_eq
    exact { h with
      tail_eq := by
        simp only [htail, Nat.mod_add_mod]
        rfl }
  | postMutex =>
    simp only [PosixShmRingSem.producerStep, Option.some.injEq] at hs
    subst hs
    have hmutex : mutex + 1 + consumer.holdsMutex = 1 := h.mutex_eq
    exact { h with mutex_eq := show mutex + 1 + 0 + consumer.holdsMutex = 1 by omega }
  | postFull =>
    simp only [PosixShmRingSem.producerStep, Option.some.injEq] at hs
    subst hs
    -- the iteration is over: its last count moves into `value`
    have hvalue : value + 1 - 1 = value - 1 + 1 := by omega
    have hbound : value ≤ items := h.value_bound
    have hcounts := producerTest_counts items (value + 1)
    have hwritten : ∀ st : State, st.value = value + 1 →
        st.producer = producerTest items (value + 1) → st.written = value - 1 + 1 := by
      intro st hv hp
      rw [State.written, hv, hp, hcounts.2.2.1, hvalue]
    have hfull : full + (i + consumer.tookFull) = value - 1 := h.full_eq
    exact { h with
      value_pos := by simp
      value_bound := producerTest_bound (Nat.succ_le_succ hbound)
      empty_eq := by
        simp only [hcounts, hvalue]
        exact h.empty_eq
      full_eq := by
        simp only [Semaphore.post]
        omega
      mutex_eq := by
        simp only [hcounts]
        exact h.mutex_eq
      tail_eq := by
        simp only [hcounts, hvalue]
        exact h.tail_eq
      window := by
        rw [hwritten _ rfl rfl]
        exact h.window
      writes_eq := by
        rw [hwritten _ rfl rfl]
        exact h.writes_eq }
  | done => simp [PosixShmRingSem.producerStep] at hs

/-- The consumer's steps keep the invariant. -/
theorem Inv.consumerStep (h : Inv capacity items s)
    (hs : PosixShmRingSem.consumerStep capacity items s = some s') : Inv capacity items s' := by
  have havailable := h.available
  obtain ⟨empty, full, mutex, head, tail, slots, producer, value, consumer, i, item, total, writes,
    reads, received⟩ := s
  cases consumer with
  | waitFull =>
    simp only [PosixShmRingSem.consumerStep, Option.bind_eq_bind, Option.bind_eq_some_iff,
      Semaphore.wait_eq_some_iff, Option.some.injEq] at hs
    obtain ⟨m, rfl, rfl⟩ := hs
    have hfull : m + 1 + (i + 0) = value - 1 := h.full_eq
    exact { h with
      full_eq := show m + (i + 1) = value - 1 by omega
      item_eq := fun hread => by cases hread }
  | waitMutex =>
    simp only [PosixShmRingSem.consumerStep, Option.bind_eq_bind, Option.bind_eq_some_iff,
      Semaphore.wait_eq_some_iff, Option.some.injEq] at hs
    obtain ⟨m, rfl, rfl⟩ := hs
    have hmutex : m + 1 + producer.holdsMutex + 0 = 1 := h.mutex_eq
    exact { h with
      mutex_eq := show m + producer.holdsMutex + 1 = 1 by omega
      item_eq := fun hread => by cases hread }
  | readSlot =>
    simp only [PosixShmRingSem.consumerStep, Option.some.injEq] at hs
    subst hs
    have hhead : head = i % capacity := h.head_eq
    -- the slot at `head` is the oldest of the window
    have hread : slots head = produced i := by
      rw [hhead]
      exact h.window.front (havailable rfl)
    have hreads : reads = visits capacity i := h.reads_eq
    have hreceived : received = (List.range i).map produced := h.received_eq
    exact { h with
      window := h.window.pop
      reads_eq := by
        simp only [hreads, hhead]
        exact (visits_succ capacity i).symm
      received_eq := by
        simp only [hreceived, hread]
        exact (by simp [List.range_succ] :
          (List.range i).map produced ++ [produced i] = (List.range (i + 1)).map produced)
      item_eq := fun _ => hread }
  | updateHead =>
    simp only [PosixShmRingSem.consumerStep, Option.some.injEq] at hs
    subst hs
    have hhead : head = i % capacity := h.head_eq
    exact { h with
      head_eq := by
        simp only [hhead, Nat.mod_add_mod]
        rfl }
  | postMutex =>
    simp only [PosixShmRingSem.consumerStep, Option.some.injEq] at hs
    subst hs
    have hmutex : mutex + producer.holdsMutex + 1 = 1 := h.mutex_eq
    exact { h with mutex_eq := show mutex + 1 + producer.holdsMutex + 0 = 1 by omega }
  | postEmpty =>
    simp only [PosixShmRingSem.consumerStep, Option.some.injEq] at hs
    subst hs
    have hempty : empty + (value - 1 + producer.tookEmpty) = capacity + (i + 0) := h.empty_eq
    exact { h with
      empty_eq :=
        show empty + 1 + (value - 1 + producer.tookEmpty) = capacity + (i + 1) by omega }
  | addTotal =>
    simp only [PosixShmRingSem.consumerStep, Option.some.injEq] at hs
    subst hs
    -- the iteration is over: its last counts move into `i`
    have hbound : i < items := h.i_bound
    have hcounts := consumerTest_counts items (i + 1)
    have hconsumed : ∀ st : State, st.i = i + 1 →
        st.consumer = consumerTest items (i + 1) → st.consumed = i + 1 := by
      intro st hi hc
      rw [State.consumed, hi, hc, hcounts.2.2.1]
    have hitem : item = produced i := h.item_eq rfl
    have htotal : 2 * total = i * (i + 1) := h.total_eq
    exact { h with
      i_bound := consumerTest_bound hbound
      empty_eq := by
        simp only [hcounts]
        exact h.empty_eq
      full_eq := by
        simp only [hcounts]
        exact h.full_eq
      mutex_eq := by
        simp only [hcounts]
        exact h.mutex_eq
      head_eq := by
        simp only [hcounts]
        exact h.head_eq
      window := by
        rw [hconsumed _ rfl rfl]
        exact h.window
      reads_eq := by
        rw [hconsumed _ rfl rfl]
        exact h.reads_eq
      received_eq := by
        rw [hconsumed _ rfl rfl]
        exact h.received_eq
      item_eq := by simp [hcounts]
      total_eq := by
        show 2 * (total + item) = ((i + 1 : ℕ) : ℤ) * ((i + 1 : ℕ) + 1)
        -- twice the sum grows by `2 * (i + 1)`, from `i * (i + 1)` to `(i + 1) * (i + 2)`
        have hcast : ((i + 1 : ℕ) : ℤ) = i + 1 := by omega
        have hsum : (i : ℤ) + 2 = i + 1 + 1 := by omega
        rw [hitem, produced, hcast, Int.mul_add, htotal, ← Int.add_mul, Int.mul_comm, hsum] }
  | done => simp [PosixShmRingSem.consumerStep] at hs

/-- Every step of the system keeps the invariant. -/
theorem Inv.step {a : Action} (h : Inv capacity items s)
    (hs : PosixShmRingSem.step capacity items s a = some s') : Inv capacity items s' := by
  cases a with
  | producer => exact h.producerStep hs
  | consumer => exact h.consumerStep hs
  -- an interrupted wait is repeated from the same state
  | producerEintr =>
    simp only [PosixShmRingSem.step, Option.ite_none_right_eq_some, Option.some.injEq] at hs
    exact hs.2 ▸ h
  | consumerEintr =>
    simp only [PosixShmRingSem.step, Option.ite_none_right_eq_some, Option.some.injEq] at hs
    exact hs.2 ▸ h

/-- The invariant holds in every reachable state. -/
theorem inv_of_reachable (h : (ring capacity items).Reachable s) : Inv capacity items s :=
  h.invariant (Inv.init capacity items) fun _ _ _ hinv hs => hinv.step hs

/-- In every interleaving the consumer has read exactly `1, …, k`, in this order; a slot about to
be written holds no unread value, a slot about to be read holds one, and both indices are in
range. -/
theorem received_in_order (hcap : 1 ≤ capacity) (h : (ring capacity items).Reachable s) :
    (∃ k, s.received = (List.range k).map fun j => ((j + 1 : ℕ) : ℤ)) ∧
      (s.producer = .writeSlot → ¬s.Unread s.tail) ∧
      (s.consumer = .readSlot → s.Unread s.head) ∧
      s.head < capacity ∧ s.tail < capacity := by
  have hinv := inv_of_reachable h
  refine ⟨⟨s.consumed, hinv.received_eq⟩, ?_, ?_, ?_, ?_⟩
  · -- `tail` is the slot of the next value to write, and the window leaves it free
    intro hpc
    have htail : s.tail = s.written % capacity := by
      rw [hinv.tail_eq, State.written, hpc]
      rfl
    rw [State.Unread, hinv.reads_eq, hinv.writes_eq, htail,
      count_visits_eq hinv.consumed_le_written (hinv.room hpc)]
    exact lt_irrefl _
  · -- `head` is the slot of the oldest value not read, and the window is not empty
    intro hpc
    have hhead : s.head = s.consumed % capacity := by
      rw [hinv.head_eq, State.consumed, hpc]
      rfl
    rw [State.Unread, hinv.reads_eq, hinv.writes_eq, hhead]
    exact count_visits_lt (hinv.available hpc)
  · rw [hinv.head_eq]
    exact Nat.mod_lt _ hcap
  · rw [hinv.tail_eq]
    exact Nat.mod_lt _ hcap

end Inv

/-- With two slots and three items: the producer writes two values, and the third one to the first
slot again, after the consumer has read it, with one interrupted wait. -/
theorem received_in_order_three_items :
    ∃ s, (ring 2 3).Reachable s ∧ s.received = [1, 2] ∧ s.head < 2 ∧ s.tail < 2 := by
  have hrun : ((ring 2 3).run (ring 2 3).init
      (List.replicate 12 .producer ++ [.consumer, .consumerEintr] ++ List.replicate 6 .consumer ++
        List.replicate 6 .producer ++ List.replicate 3 .consumer)).map
      State.received = some [1, 2] := by decide
  obtain ⟨s, hs, hreceived⟩ := Option.map_eq_some_iff.mp hrun
  have hreach := TransitionSystem.reachable_of_run hs
  exact ⟨s, hreach, hreceived, (received_in_order (by decide) hreach).2.2.2⟩

/-! ## Progress and the final state -/

/-- A loop is not finished, and neither process has a step other than an interrupted wait. -/
def Deadlocked (capacity items : ℕ) (s : State) : Prop :=
  (s.producer ≠ .done ∨ s.consumer ≠ .done) ∧
    (ring capacity items).step s .producer = none ∧
    (ring capacity items).step s .consumer = none

section Progress

variable {capacity items : ℕ} {s : State}

/-- The ways in which the producer can have no step. -/
theorem blocked_of_producerStep_eq_none (h : producerStep capacity items s = none) :
    (s.producer = .waitEmpty ∧ s.empty = 0) ∨ (s.producer = .waitMutex ∧ s.mutex = 0) ∨
      s.producer = .done := by
  unfold producerStep at h
  rcases hpc : s.producer <;> simp only [hpc, reduceCtorEq] at h
  case waitEmpty =>
    rcases hempty : s.empty with _ | n
    · exact .inl ⟨rfl, rfl⟩
    · simp [hempty, Semaphore.wait] at h
  case waitMutex =>
    rcases hmutex : s.mutex with _ | n
    · exact .inr (.inl ⟨rfl, rfl⟩)
    · simp [hmutex, Semaphore.wait] at h
  case done => exact .inr (.inr rfl)

/-- The ways in which the consumer can have no step. -/
theorem blocked_of_consumerStep_eq_none (h : consumerStep capacity items s = none) :
    (s.consumer = .waitFull ∧ s.full = 0) ∨ (s.consumer = .waitMutex ∧ s.mutex = 0) ∨
      s.consumer = .done := by
  unfold consumerStep at h
  rcases hpc : s.consumer <;> simp only [hpc, reduceCtorEq] at h
  case waitFull =>
    rcases hfull : s.full with _ | n
    · exact .inl ⟨rfl, rfl⟩
    · simp [hfull, Semaphore.wait] at h
  case waitMutex =>
    rcases hmutex : s.mutex with _ | n
    · exact .inr (.inl ⟨rfl, rfl⟩)
    · simp [hmutex, Semaphore.wait] at h
  case done => exact .inr (.inr rfl)

/-- Processes that have both no step are not between `sem_wait` and `sem_post` of `mutex`, so
`mutex` is free. -/
theorem Inv.mutex_eq_one (h : Inv capacity items s)
    (hproducer : s.producer = .waitEmpty ∨ s.producer = .waitMutex ∨ s.producer = .done)
    (hconsumer : s.consumer = .waitFull ∨ s.consumer = .waitMutex ∨ s.consumer = .done) :
    s.mutex = 1 := by
  have hmutex := h.mutex_eq
  have hp : s.producer.holdsMutex = 0 := by
    rcases hproducer with hpc | hpc | hpc <;> rw [hpc] <;> rfl
  have hc : s.consumer.holdsMutex = 0 := by
    rcases hconsumer with hpc | hpc | hpc <;> rw [hpc] <;> rfl
  omega

/-- No state with the invariant is deadlocked. -/
theorem Inv.not_deadlocked (h : Inv capacity items s) (hcap : 1 ≤ capacity) :
    ¬Deadlocked capacity items s := by
  rintro ⟨hrunning, hproducer, hconsumer⟩
  -- each of the two waits for a semaphore or has ended; the mutex is free, since nobody is inside
  replace hproducer := blocked_of_producerStep_eq_none hproducer
  replace hconsumer := blocked_of_consumerStep_eq_none hconsumer
  have hmutex := h.mutex_eq_one (hproducer.imp And.left (Or.imp_left And.left))
    (hconsumer.imp And.left (Or.imp_left And.left))
  have hvalue := h.value_bound
  have hi := h.i_bound
  have hpos := h.value_pos
  have hempty := h.empty_eq
  have hfull := h.full_eq
  rcases hproducer with ⟨hp, hzero⟩ | ⟨-, hzero⟩ | hp
  · rw [hp] at hvalue hempty
    simp only [ProducerPc.Bound, ProducerPc.tookEmpty] at hvalue hempty
    rcases hconsumer with ⟨hc, hzero'⟩ | ⟨-, hzero'⟩ | hc
    · -- the ring would be full and empty at once
      rw [hc] at hempty hfull
      simp only [ConsumerPc.postedEmpty, ConsumerPc.tookFull] at hempty hfull
      omega
    · omega
    · -- the consumer has taken all items, and the producer has one left to write
      rw [hc] at hi hempty
      simp only [ConsumerPc.Bound, ConsumerPc.postedEmpty] at hi hempty
      omega
  · omega
  · rw [hp] at hvalue
    simp only [ProducerPc.Bound] at hvalue
    rcases hconsumer with ⟨hc, hzero'⟩ | ⟨-, hzero'⟩ | hc
    · -- the producer has written all items, and the consumer has one left to read
      rw [hc] at hi hfull
      simp only [ConsumerPc.Bound, ConsumerPc.tookFull] at hi hfull
      omega
    · omega
    · rcases hrunning with hne | hne
      · exact hne hp
      · exact hne hc

/-- In every interleaving one of the processes can go on until both have finished their loops.
Then the consumer has the sum of all items, the semaphores are as they were initialised, and both
indices are at the slot after the last item. -/
theorem ring_completes (hcap : 1 ≤ capacity) (h : (ring capacity items).Reachable s) :
    ¬Deadlocked capacity items s ∧
      (s.producer = .done → s.consumer = .done →
        s.total = (items : ℤ) * (items + 1) / 2 ∧ s.empty = capacity ∧ s.full = 0 ∧
        s.mutex = 1 ∧ s.head = items % capacity ∧ s.tail = items % capacity) := by
  have hinv := inv_of_reachable h
  refine ⟨hinv.not_deadlocked hcap, fun hp hc => ?_⟩
  have hvalue : s.value = items + 1 := by
    simpa only [ProducerPc.Bound, hp] using hinv.value_bound
  have hi : s.i = items := by
    simpa only [ConsumerPc.Bound, hc] using hinv.i_bound
  have hempty := hinv.empty_eq
  have hfull := hinv.full_eq
  have hhead := hinv.head_eq
  have htail := hinv.tail_eq
  have htotal := hinv.total_eq
  simp only [hp, hc, hvalue, hi, ProducerPc.tookEmpty, ProducerPc.movedTail, ConsumerPc.tookFull,
    ConsumerPc.postedEmpty, ConsumerPc.movedHead] at hempty hfull hhead htail htotal
  refine ⟨?_, ?_, ?_, ?_, hhead, htail⟩
  · omega
  · omega
  · omega
  · exact hinv.mutex_eq_one (.inr (.inr hp)) (.inr (.inr hc))

end Progress

/-- With two slots and three items: the whole run, up to the end of both loops. -/
theorem ring_completes_three_items :
    ∃ s, (ring 2 3).Reachable s ∧ s.producer = .done ∧ s.consumer = .done ∧
      ¬Deadlocked 2 3 s ∧ s.total = 6 ∧ s.empty = 2 ∧ s.head = 1 ∧ s.tail = 1 := by
  have hrun : ((ring 2 3).run (ring 2 3).init
      (List.replicate 12 .producer ++ List.replicate 7 .consumer ++ List.replicate 6 .producer ++
        List.replicate 14 .consumer)).map (fun s => (s.producer, s.consumer)) =
      some (.done, .done) := by decide
  obtain ⟨s, hs, hend⟩ := Option.map_eq_some_iff.mp hrun
  rw [Prod.mk.injEq] at hend
  obtain ⟨hlive, hfinal⟩ := ring_completes (by decide) (TransitionSystem.reachable_of_run hs)
  obtain ⟨htotal, hempty, -, -, hhead, htail⟩ := hfinal hend.1 hend.2
  exact ⟨s, TransitionSystem.reachable_of_run hs, hend.1, hend.2, hlive, htotal, hempty, hhead,
    htail⟩

end PosixShmRingSem
