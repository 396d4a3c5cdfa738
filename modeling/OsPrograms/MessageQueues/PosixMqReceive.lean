import OsPrograms.Lib.PosixQueue
import OsPrograms.Lib.TransitionSystem

/-!
# The terminator behind a message of a POSIX queue

`posix_mq_notify_signal.c` and `posix_mq_timed_receive.c` each send one message to a queue, receive
one into `char buffer[64]` and store a terminator behind it with `buffer[n] = '\0'`. The queue has a
name, so other processes can send to it and receive from it between any two steps. The store is
outside the buffer if the message has 64 bytes, the maximum of the queue. The first program opens
the queue with `O_NONBLOCK` and does not look at what `mq_receive` returns, so an empty queue leads
to a store at -1; the second one dies when `mq_timedreceive` fails.

The models begin when the queue has been opened, with any messages in it: another process can have
created it after the `mq_unlink` at the start.

## Main results

- `PosixMqNotifySignal.inside_iff`, `PosixMqTimedReceive.inside_iff`: when the store is inside.
- `terminator_inside_iff`: the same for both programs, with what the other processes have to keep
  to so that it always is.
-/

namespace PosixMqReceive

/-- `sizeof(buffer)`, which is also the `mq_msgsize` of both queues. -/
def bufferSize : ℕ :=
  64

/-- The index `n` is one of `buffer`. -/
def InsideBuffer (n : ℤ) : Prop :=
  0 ≤ n ∧ n < bufferSize

instance (n : ℤ) : Decidable (InsideBuffer n) :=
  inferInstanceAs (Decidable (0 ≤ n ∧ n < bufferSize))

/-- The return value is an index of the buffer if a message was received that leaves room for the
terminator. -/
theorem insideBuffer_returnValue_iff {r : Option (PosixMessage bufferSize)} :
    InsideBuffer (PosixQueue.returnValue r) ↔ ∃ m, r = some m ∧ m.Short :=
  PosixQueue.returnValue_inside_iff

end PosixMqReceive

namespace PosixMqNotifySignal

open PosixMqReceive

/-- The queue that `main` opens, with `mq_maxmsg` 8. -/
abbrev Queue : Type :=
  PosixQueue bufferSize 8

/-- `"notify payload", 14, 7` -/
def payload : PosixMessage bufferSize where
  priority := 7
  text := ['n', 'o', 't', 'i', 'f', 'y', ' ', 'p', 'a', 'y', 'l', 'o', 'a', 'd'].map Char.toUInt8
  length_le := by decide

/-- Where `main` is. -/
inductive Pc
  | mqNotify
  | mqSend
  /-- The test of the loop. -/
  | testNotified
  /-- Before the call of `pause`. -/
  | pause
  /-- In `pause`. -/
  | paused
  | mqReceive
  /-- Before `buffer[n] = '\0'`. -/
  | terminator
  | finished
  | died
  deriving DecidableEq, Repr

/-- The process and the queue. -/
structure State where
  pc : Pc
  queue : Queue
  /-- The process is registered with `mq_notify`. -/
  registered : Bool
  /-- `SIGUSR1` is pending. -/
  pending : Bool
  notified : Bool
  /-- The message that `mq_receive` stored in `buffer`; it returned -1 if there is none. -/
  received : Option (PosixMessage bufferSize)
  /-- The index of the terminator. -/
  stored : Option ℤ

/-- What happens next. -/
inductive Action
  /-- `mq_notify`; it fails when another process is registered. -/
  | mqNotify (succeeds : Bool)
  | mqSend
  | testNotified
  | pause
  | mqReceive
  | terminator
  /-- `SIGUSR1` is delivered, and `on_notify` runs. -/
  | onNotify
  /-- Another process does something with the queue. -/
  | other (a : PosixQueue.Act bufferSize)
  /-- Another process sends `SIGUSR1`. -/
  | kill
  deriving DecidableEq, Repr

/-- The queue is `r.1` now; if `r.2`, a process that is registered is notified. A registration is
good for one message. -/
def State.setQueue (s : State) (r : Queue × Bool) : State :=
  { s with
    queue := r.1
    pending := s.pending || (r.2 && s.registered)
    registered := s.registered && !r.2 }

/-- The steps. -/
def step (s : State) : Action → Option State
  | .mqNotify succeeds =>
    if s.pc = .mqNotify then
      some (if succeeds then { s with pc := .mqSend, registered := true }
        else { s with pc := .died })
    else none
  | .mqSend =>
    if s.pc = .mqSend then
      -- when the queue is full the call fails, which the code does not look at
      some { (s.queue.send payload).elim s s.setQueue with pc := .testNotified }
    else none
  | .testNotified =>
    if s.pc = .testNotified then
      some { s with pc := if s.notified then .mqReceive else .pause }
    else none
  | .pause => if s.pc = .pause then some { s with pc := .paused } else none
  | .mqReceive =>
    if s.pc = .mqReceive then
      -- the call does not block, and its result is not tested
      some { s with pc := .terminator, received := s.queue.first, queue := s.queue.rest }
    else none
  | .terminator =>
    if s.pc = .terminator then
      some { s with pc := .finished, stored := some (PosixQueue.returnValue s.received) }
    else none
  | .onNotify =>
    if s.pending ∧ s.pc ≠ .finished ∧ s.pc ≠ .died then
      some { s with
        pending := false
        notified := true
        -- `pause` returns after a handler
        pc := if s.pc = .paused then .testNotified else s.pc }
    else none
  | .other a => (s.queue.act a).map s.setQueue
  | .kill => some { s with pending := true }

/-- `main` after `mq_open` and `sigaction`. -/
def system (queue : Queue) : TransitionSystem State Action where
  init :=
    { pc := .mqNotify, queue := queue, registered := false, pending := false, notified := false,
      received := none, stored := none }
  step := step

/-- `main` has sent its message and not received one yet. -/
def Pc.HasSent : Pc → Prop
  | .testNotified | .pause | .paused | .mqReceive => True
  | _ => False

/-- The other processes leave room for the terminator and leave a message in the queue: they send
only short messages, none of them waits for the message of `main`, and after it has been sent they
do not receive the last message. -/
def Leaves (s : State) : Action → Prop
  | .mqSend => s.queue.waiting = 0
  | .other (.send m) => m.Short
  | .other .receive => s.pc.HasSent → 2 ≤ s.queue.messages.length
  | _ => True

variable {queue : Queue} {s s' : State} {a : Action}

/-! ## The index that is stored -/

/-- What a step keeps that neither receives nor stores. -/
structure Keeps (s s' : State) : Prop where
  received : s'.received = s.received
  stored : s'.stored = s.stored
  finished : s.pc = .finished → s'.pc = .finished

/-- Only the `mq_receive` and the store of `main` itself change what was received and stored. -/
theorem keeps_of_step (hs : step s a = some s') (hreceive : a ≠ .mqReceive)
    (hterminator : a ≠ .terminator) : Keeps s s' := by
  cases a with
  | mqNotify succeeds =>
    simp only [step] at hs
    split_ifs at hs with hpc
    all_goals
      obtain rfl := Option.some.inj hs
      exact ⟨rfl, rfl, fun h => by simp [hpc] at h⟩
  | mqSend =>
    simp only [step] at hs
    split_ifs at hs with hpc
    obtain rfl := Option.some.inj hs
    cases s.queue.send payload <;> exact ⟨rfl, rfl, fun h => by simp [hpc] at h⟩
  | testNotified =>
    simp only [step] at hs
    split_ifs at hs with hpc
    all_goals
      obtain rfl := Option.some.inj hs
      exact ⟨rfl, rfl, fun h => by simp [hpc] at h⟩
  | pause =>
    simp only [step] at hs
    split_ifs at hs with hpc
    obtain rfl := Option.some.inj hs
    exact ⟨rfl, rfl, fun h => by simp [hpc] at h⟩
  | mqReceive => exact absurd rfl hreceive
  | terminator => exact absurd rfl hterminator
  | onNotify =>
    simp only [step] at hs
    split_ifs at hs with hpc
    all_goals
      obtain rfl := Option.some.inj hs
      exact ⟨rfl, rfl, fun h => absurd h hpc.2.1⟩
  | other a =>
    obtain ⟨r, -, rfl⟩ := Option.map_eq_some_iff.mp hs
    exact ⟨rfl, rfl, id⟩
  | kill =>
    obtain rfl := Option.some.inj hs
    exact ⟨rfl, rfl, id⟩

/-- `mq_receive` takes the next message, or fails. -/
theorem of_mqReceive (hs : step s .mqReceive = some s') :
    s.pc = .mqReceive ∧
      s' = { s with pc := .terminator, received := s.queue.first, queue := s.queue.rest } := by
  simp only [step] at hs
  split_ifs at hs with hpc
  exact ⟨hpc, (Option.some.inj hs).symm⟩

/-- The store uses the value that was returned, whatever it is. -/
theorem of_terminator (hs : step s .terminator = some s') :
    s.pc = .terminator ∧
      s' = { s with pc := .finished, stored := some (PosixQueue.returnValue s.received) } := by
  simp only [step] at hs
  split_ifs at hs with hpc
  exact ⟨hpc, (Option.some.inj hs).symm⟩

/-- What has been stored is the value that `mq_receive` returned. -/
theorem stored_eq (h : (system queue).Reachable s) {n : ℤ} (hn : s.stored = some n) :
    s.pc = .finished ∧ n = PosixQueue.returnValue s.received := by
  revert n
  refine h.invariant (P := fun s => ∀ {n}, s.stored = some n →
    s.pc = .finished ∧ n = PosixQueue.returnValue s.received) nofun fun s a s' ih hs n hn => ?_
  by_cases hreceive : a = .mqReceive
  · obtain ⟨hpc, rfl⟩ := of_mqReceive (hreceive ▸ hs)
    -- nothing has been stored before
    have hfinished := (ih hn).1
    rw [hpc] at hfinished
    cases hfinished
  by_cases hterminator : a = .terminator
  · obtain ⟨-, rfl⟩ := of_terminator (hterminator ▸ hs)
    exact ⟨rfl, (Option.some.inj hn).symm⟩
  · have hkeeps := keeps_of_step hs hreceive hterminator
    obtain ⟨hpc, heq⟩ := ih (hkeeps.stored ▸ hn)
    exact ⟨hkeeps.finished hpc, hkeeps.received ▸ heq⟩

/-- The store is inside the buffer exactly when a message was received and it is short. -/
theorem inside_iff (h : (system queue).Reachable s) {n : ℤ} (hn : s.stored = some n) :
    InsideBuffer n ↔ ∃ m, s.received = some m ∧ m.Short := by
  rw [(stored_eq h hn).2]
  exact insideBuffer_returnValue_iff

/-! ## Other processes that leave a short message -/

/-- What holds while the others leave a short message. -/
structure Provided (s : State) : Prop where
  short : ∀ m ∈ s.queue.messages, m.Short
  hasSent : s.pc.HasSent → s.queue.messages ≠ []
  received : s.pc = .terminator ∨ s.pc = .finished → ∃ m, s.received = some m ∧ m.Short

theorem short_payload : payload.Short := by
  decide

/-- The message of `main` goes to the queue, unless the queue is full. -/
theorem provided_mqSend (h : Provided s) (hwaiting : s.queue.waiting = 0) :
    Provided { (s.queue.send payload).elim s s.setQueue with pc := .testNotified } := by
  cases hsend : s.queue.send payload with
  | none =>
    -- the queue is full of messages of others
    have hfull := PosixQueue.length_of_send_eq_none hsend
    refine ⟨h.short, fun _ => ?_, nofun⟩
    apply List.ne_nil_of_length_pos
    change 0 < s.queue.messages.length
    omega
  | some r =>
    refine ⟨PosixQueue.forall_mem_send h.short short_payload hsend, fun _ => ?_, nofun⟩
    rcases PosixQueue.messages_of_send hsend with ⟨hne, -⟩ | ⟨-, heq⟩
    · exact absurd hwaiting hne
    · change r.1.messages ≠ []
      rw [heq]
      exact List.append_ne_nil_of_right_ne_nil _ (List.cons_ne_nil _ _)

/-- The other processes leave a message, and only short ones. -/
theorem provided_other {a : PosixQueue.Act bufferSize} {r : Queue × Bool} (h : Provided s)
    (ha : Leaves s (.other a)) (hact : s.queue.act a = some r) : Provided (s.setQueue r) where
  short := by
    refine PosixQueue.forall_mem_act h.short ?_ hact
    rintro m rfl
    exact ha
  hasSent hpc := by
    refine PosixQueue.ne_nil_of_act (h.hasSent hpc) ?_ hact
    rintro rfl
    exact ha hpc
  received := h.received

/-- As long as the others leave a short message, `mq_receive` gets one. -/
theorem provided_step (h : Provided s) (ha : Leaves s a) (hs : step s a = some s') :
    Provided s' := by
  cases a with
  | mqNotify succeeds =>
    simp only [step] at hs
    split_ifs at hs with hpc
    all_goals
      obtain rfl := Option.some.inj hs
      exact ⟨h.short, nofun, nofun⟩
  | mqSend =>
    simp only [step] at hs
    split_ifs at hs
    obtain rfl := Option.some.inj hs
    exact provided_mqSend h ha
  | testNotified =>
    simp only [step] at hs
    split_ifs at hs with hpc
    all_goals
      obtain rfl := Option.some.inj hs
      exact ⟨h.short, fun _ => h.hasSent (hpc ▸ trivial), nofun⟩
  | pause =>
    simp only [step] at hs
    split_ifs at hs with hpc
    obtain rfl := Option.some.inj hs
    exact ⟨h.short, fun _ => h.hasSent (hpc ▸ trivial), nofun⟩
  | mqReceive =>
    obtain ⟨hpc, rfl⟩ := of_mqReceive hs
    -- a message has been left, and all of them are short
    obtain ⟨m, hm⟩ := PosixQueue.exists_first (h.hasSent (hpc ▸ trivial))
    have hshort := h.short m (PosixQueue.mem_of_first hm)
    exact ⟨PosixQueue.forall_mem_rest h.short, nofun, fun _ => ⟨m, hm, hshort⟩⟩
  | terminator =>
    obtain ⟨hpc, rfl⟩ := of_terminator hs
    exact ⟨h.short, nofun, fun _ => h.received (.inl hpc)⟩
  | onNotify =>
    simp only [step] at hs
    split_ifs at hs with hgo hpaused
    · obtain rfl := Option.some.inj hs
      exact ⟨h.short, fun _ => h.hasSent (hpaused ▸ trivial), nofun⟩
    · obtain rfl := Option.some.inj hs
      exact ⟨h.short, h.hasSent, h.received⟩
  | other a =>
    obtain ⟨r, hact, rfl⟩ := Option.map_eq_some_iff.mp hs
    exact provided_other h ha hact
  | kill =>
    obtain rfl := Option.some.inj hs
    exact ⟨h.short, h.hasSent, h.received⟩

/-- While the others leave a short message, the store is inside the buffer. -/
theorem inside_of_leaves (hqueue : ∀ m ∈ queue.messages, m.Short)
    (h : (system queue).ReachableVia Leaves s) {n : ℤ} (hn : s.stored = some n) :
    InsideBuffer n := by
  have hprovided : Provided s :=
    h.invariant ⟨hqueue, nofun, nofun⟩ fun _ _ _ hP ha hs => provided_step hP ha hs
  have hreachable := h.reachable
  exact (inside_iff hreachable hn).mpr (hprovided.received (.inr (stored_eq hreachable hn).1))

example :
    ((system .empty).run (system .empty).init
      [.mqNotify true, .mqSend, .onNotify, .testNotified, .mqReceive, .terminator]).bind
        State.stored = some 14 := by
  decide

end PosixMqNotifySignal

namespace PosixMqTimedReceive

open PosixMqReceive

/-- The queue that `main` opens, with `mq_maxmsg` 4. -/
abbrev Queue : Type :=
  PosixQueue bufferSize 4

/-- `"deadline aware message", 22, 3` -/
def payload : PosixMessage bufferSize where
  priority := 3
  text := ['d', 'e', 'a', 'd', 'l', 'i', 'n', 'e', ' ', 'a', 'w', 'a', 'r', 'e', ' ',
    'm', 'e', 's', 's', 'a', 'g', 'e'].map Char.toUInt8
  length_le := by decide

/-- Where `main` is. -/
inductive Pc
  /-- At the call, or blocked in it because the queue is full. -/
  | mqSend
  /-- At the call, or blocked in it because the queue is empty. -/
  | mqTimedreceive
  /-- The test of `n == -1`. -/
  | testReturned
  /-- Before `buffer[n] = '\0'`. -/
  | terminator
  | finished
  | died
  deriving DecidableEq, Repr

/-- The process and the queue. -/
structure State where
  pc : Pc
  queue : Queue
  /-- The message that `mq_timedreceive` stored in `buffer`; it returned -1 if there is none. -/
  received : Option (PosixMessage bufferSize)
  /-- The index of the terminator. -/
  stored : Option ℤ

/-- What happens next. -/
inductive Action
  | mqSend
  /-- `mq_timedreceive` returns a message. -/
  | mqTimedreceive
  /-- `mq_timedreceive` fails: the deadline passes before there is a message. -/
  | timedOut
  | testReturned
  | terminator
  /-- Another process does something with the queue. -/
  | other (a : PosixQueue.Act bufferSize)
  deriving DecidableEq, Repr

/-- The steps. A message that arrives while the process waits for one is in the queue until the call
returns. -/
def step (s : State) : Action → Option State
  | .mqSend =>
    if s.pc = .mqSend then
      -- the call blocks while the queue is full
      (s.queue.send payload).map fun r => { s with pc := .mqTimedreceive, queue := r.1 }
    else none
  | .mqTimedreceive =>
    if s.pc = .mqTimedreceive ∧ s.queue.messages ≠ [] then
      some { s with pc := .testReturned, received := s.queue.first, queue := s.queue.rest }
    else none
  | .timedOut =>
    if s.pc = .mqTimedreceive ∧ s.queue.messages = [] then
      some { s with pc := .testReturned, received := none }
    else none
  | .testReturned =>
    if s.pc = .testReturned then
      some { s with pc := if PosixQueue.returnValue s.received = -1 then .died else .terminator }
    else none
  | .terminator =>
    if s.pc = .terminator then
      some { s with pc := .finished, stored := some (PosixQueue.returnValue s.received) }
    else none
  | .other a => (s.queue.act a).map fun r => { s with queue := r.1 }

/-- `main` after `mq_open`. -/
def system (queue : Queue) : TransitionSystem State Action where
  init := { pc := .mqSend, queue := queue, received := none, stored := none }
  step := step

/-- The other processes send only short messages. -/
def SendsShort (_ : State) : Action → Prop
  | .other (.send m) => m.Short
  | _ => True

variable {queue : Queue} {s s' : State} {a : Action}

theorem short_payload : payload.Short := by
  decide

/-- The test has found a message before the store, and what has been stored is its length. -/
structure Checked (s : State) : Prop where
  terminator : s.pc = .terminator ∨ s.pc = .finished → s.received ≠ none
  stored : ∀ n, s.stored = some n →
    s.pc = .finished ∧ n = PosixQueue.returnValue s.received

/-- Nothing is stored before the end. -/
theorem Checked.stored_ne (h : Checked s) (hpc : s.pc ≠ .finished) {n : ℤ} : s.stored ≠ some n :=
  fun hn => hpc (h.stored n hn).1

/-- `mq_timedreceive` takes a message if there is one. -/
theorem of_mqTimedreceive (hs : step s .mqTimedreceive = some s') :
    (s.pc = .mqTimedreceive ∧ s.queue.messages ≠ []) ∧
      s' = { s with pc := .testReturned, received := s.queue.first, queue := s.queue.rest } := by
  simp only [step] at hs
  split_ifs at hs with hpc
  exact ⟨hpc, (Option.some.inj hs).symm⟩

/-- The store comes after the test of the value that was returned. -/
theorem checked_step (h : Checked s) (hs : step s a = some s') : Checked s' := by
  cases a with
  | mqSend =>
    simp only [step] at hs
    split_ifs at hs with hpc
    obtain ⟨r, -, rfl⟩ := Option.map_eq_some_iff.mp hs
    exact ⟨nofun, fun n hn => absurd hn (h.stored_ne (by simp [hpc]))⟩
  | mqTimedreceive =>
    obtain ⟨⟨hpc, -⟩, rfl⟩ := of_mqTimedreceive hs
    exact ⟨nofun, fun n hn => absurd hn (h.stored_ne (by simp [hpc]))⟩
  | timedOut =>
    simp only [step] at hs
    split_ifs at hs with hpc
    obtain rfl := Option.some.inj hs
    exact ⟨nofun, fun n hn => absurd hn (h.stored_ne (by simp [hpc.1]))⟩
  | testReturned =>
    simp only [step] at hs
    split_ifs at hs with hpc hreturned
    · obtain rfl := Option.some.inj hs
      exact ⟨nofun, fun n hn => absurd hn (h.stored_ne (by simp [hpc]))⟩
    · obtain rfl := Option.some.inj hs
      -- without a message the value would have been -1
      exact ⟨fun _ => fun hnone => hreturned (PosixQueue.returnValue_eq_neg_one_iff.mpr hnone),
        fun n hn => absurd hn (h.stored_ne (by simp [hpc]))⟩
  | terminator =>
    simp only [step] at hs
    split_ifs at hs with hpc
    obtain rfl := Option.some.inj hs
    exact ⟨fun _ => h.terminator (.inl hpc), fun n hn => ⟨rfl, (Option.some.inj hn).symm⟩⟩
  | other a =>
    obtain ⟨r, -, rfl⟩ := Option.map_eq_some_iff.mp hs
    exact ⟨h.terminator, h.stored⟩

/-- This holds along every run. -/
theorem checked_of_reachable (h : (system queue).Reachable s) : Checked s :=
  h.invariant ⟨nofun, nofun⟩ fun _ _ _ hP hs => checked_step hP hs

/-- The store is behind a message that was received, and inside the buffer exactly when it is
short. -/
theorem inside_iff (h : (system queue).Reachable s) {n : ℤ} (hn : s.stored = some n) :
    ∃ m, s.received = some m ∧ (InsideBuffer n ↔ m.Short) := by
  have hchecked := checked_of_reachable h
  obtain ⟨hpc, rfl⟩ := hchecked.stored n hn
  obtain ⟨m, hm⟩ := Option.ne_none_iff_exists'.mp (hchecked.terminator (.inr hpc))
  refine ⟨m, hm, ?_⟩
  rw [insideBuffer_returnValue_iff, hm]
  simp

/-- What holds while the others send only short messages. -/
structure AllShort (s : State) : Prop where
  queue : ∀ m ∈ s.queue.messages, m.Short
  received : ∀ m, s.received = some m → m.Short

/-- Short messages come in, so short messages come out. -/
theorem allShort_step (h : AllShort s) (ha : SendsShort s a) (hs : step s a = some s') :
    AllShort s' := by
  cases a with
  | mqSend =>
    simp only [step] at hs
    split_ifs at hs
    obtain ⟨r, hsend, rfl⟩ := Option.map_eq_some_iff.mp hs
    exact ⟨PosixQueue.forall_mem_send h.queue short_payload hsend, h.received⟩
  | mqTimedreceive =>
    obtain ⟨-, rfl⟩ := of_mqTimedreceive hs
    exact ⟨PosixQueue.forall_mem_rest h.queue,
      fun m hm => h.queue m (PosixQueue.mem_of_first hm)⟩
  | timedOut =>
    simp only [step] at hs
    split_ifs at hs
    obtain rfl := Option.some.inj hs
    exact ⟨h.queue, nofun⟩
  | testReturned =>
    simp only [step] at hs
    split_ifs at hs
    all_goals
      obtain rfl := Option.some.inj hs
      exact ⟨h.queue, h.received⟩
  | terminator =>
    simp only [step] at hs
    split_ifs at hs
    obtain rfl := Option.some.inj hs
    exact ⟨h.queue, h.received⟩
  | other a =>
    obtain ⟨r, hact, rfl⟩ := Option.map_eq_some_iff.mp hs
    refine ⟨PosixQueue.forall_mem_act h.queue ?_ hact, h.received⟩
    rintro m rfl
    exact ha

/-- While the others send only short messages, the store is inside the buffer. -/
theorem inside_of_sendsShort (hqueue : ∀ m ∈ queue.messages, m.Short)
    (h : (system queue).ReachableVia SendsShort s) {n : ℤ} (hn : s.stored = some n) :
    InsideBuffer n := by
  have hshort : AllShort s :=
    h.invariant ⟨hqueue, nofun⟩ fun _ _ _ hP ha hs => allShort_step hP ha hs
  obtain ⟨m, hm, hiff⟩ := inside_iff h.reachable hn
  exact hiff.mpr (hshort.received m hm)

end PosixMqTimedReceive

/-! ## Both programs -/

namespace PosixMqReceive

/-- For every content of the two queues when they have been opened, and after any steps of the other
processes: the terminator is stored inside the buffer exactly when a message has been received, the
first one of the queue at the call, and it has less than 64 bytes. `posix_mq_timed_receive` stores
nothing without a message. The store is always inside if all messages of others are short and, in
`posix_mq_notify_signal`, they leave one for it. -/
theorem terminator_inside_iff (notifyQueue : PosixMqNotifySignal.Queue)
    (timedQueue : PosixMqTimedReceive.Queue) :
    (∀ s, (PosixMqNotifySignal.system notifyQueue).Reachable s →
      (∀ s', PosixMqNotifySignal.step s .mqReceive = some s' → s'.received = s.queue.first) ∧
      ∀ n, s.stored = some n → (InsideBuffer n ↔ ∃ m, s.received = some m ∧ m.Short)) ∧
    (∀ s, (PosixMqTimedReceive.system timedQueue).Reachable s →
      (∀ s', PosixMqTimedReceive.step s .mqTimedreceive = some s' →
        s'.received = s.queue.first) ∧
      ∀ n, s.stored = some n → ∃ m, s.received = some m ∧ (InsideBuffer n ↔ m.Short)) ∧
    ((∀ m ∈ notifyQueue.messages, m.Short) → ∀ s,
      (PosixMqNotifySignal.system notifyQueue).ReachableVia PosixMqNotifySignal.Leaves s →
        ∀ n, s.stored = some n → InsideBuffer n) ∧
    ((∀ m ∈ timedQueue.messages, m.Short) → ∀ s,
      (PosixMqTimedReceive.system timedQueue).ReachableVia PosixMqTimedReceive.SendsShort s →
        ∀ n, s.stored = some n → InsideBuffer n) := by
  refine ⟨fun s h => ⟨fun s' hs => ?_, fun n hn => ?_⟩,
    fun s h => ⟨fun s' hs => ?_, fun n hn => ?_⟩,
    fun hqueue s h n hn => ?_, fun hqueue s h n hn => ?_⟩
  · rw [(PosixMqNotifySignal.of_mqReceive hs).2]
  · exact PosixMqNotifySignal.inside_iff h hn
  · rw [(PosixMqTimedReceive.of_mqTimedreceive hs).2]
  · exact PosixMqTimedReceive.inside_iff h hn
  · exact PosixMqNotifySignal.inside_of_leaves hqueue h hn
  · exact PosixMqTimedReceive.inside_of_sendsShort hqueue h hn

/-- A message of the maximum size. -/
def longest (priority : ℕ) : PosixMessage bufferSize where
  priority := priority
  text := List.replicate bufferSize 0
  length_le := Nat.le_of_eq List.length_replicate

/-- Each program stores behind the buffer when another process sends a message of 64 bytes with a
higher priority than its own, and `posix_mq_notify_signal` stores in front of it when another
process receives the message first. -/
theorem terminator_outside :
    (∃ s, (PosixMqNotifySignal.system .empty).Reachable s ∧ s.stored = some 64) ∧
    (∃ s, (PosixMqNotifySignal.system .empty).Reachable s ∧ s.stored = some (-1)) ∧
    (∃ s, (PosixMqTimedReceive.system .empty).Reachable s ∧ s.stored = some 64) ∧
    ¬InsideBuffer 64 ∧ ¬InsideBuffer (-1) := by
  refine ⟨?_, ?_, ?_, by decide, by decide⟩
  · exact ⟨_, TransitionSystem.reachable_of_run (rfl : (PosixMqNotifySignal.system .empty).run _
      [.mqNotify true, .mqSend, .onNotify, .testNotified, .other (.send (longest 8)), .mqReceive,
        .terminator] = some _), rfl⟩
  · exact ⟨_, TransitionSystem.reachable_of_run (rfl : (PosixMqNotifySignal.system .empty).run _
      [.mqNotify true, .mqSend, .onNotify, .testNotified, .other .receive, .mqReceive,
        .terminator] = some _), rfl⟩
  · exact ⟨_, TransitionSystem.reachable_of_run (rfl : (PosixMqTimedReceive.system .empty).run _
      [.mqSend, .other (.send (longest 4)), .mqTimedreceive, .testReturned, .terminator] = some _),
      rfl⟩

end PosixMqReceive
