import Mathlib.Data.List.MinMax

/-!
# POSIX message queues

A queue of at most `maxmsg` messages of at most `msgsize` bytes each. `mq_receive` takes the oldest
message of the highest priority. A process can be registered to be notified of a message that
arrives at an empty queue; a process that is blocked in `mq_receive` comes before it and takes the
message without a notification.

The queue is shared by name. `Act` is what the other processes can do with it, and `act` is the one
place where the results about their steps come from.
-/

/-- A message of at most `msgsize` bytes. -/
structure PosixMessage (msgsize : ℕ) where
  priority : ℕ
  text : List UInt8
  length_le : text.length ≤ msgsize
  deriving DecidableEq, Repr

/-- It is not as long as a message may be. -/
def PosixMessage.Short {msgsize : ℕ} (m : PosixMessage msgsize) : Prop :=
  m.text.length < msgsize

instance {msgsize : ℕ} (m : PosixMessage msgsize) : Decidable m.Short :=
  inferInstanceAs (Decidable (m.text.length < msgsize))

/-- A queue as the process that is modelled finds it. -/
structure PosixQueue (msgsize maxmsg : ℕ) where
  /-- The messages, the oldest one first. -/
  messages : List (PosixMessage msgsize)
  /-- The number of other processes that are blocked in `mq_receive`. -/
  waiting : ℕ
  length_le : messages.length ≤ maxmsg
  eq_nil_of_waiting : waiting ≠ 0 → messages = []

namespace PosixQueue

variable {msgsize maxmsg : ℕ}

/-- What another process does with the queue. -/
inductive Act (msgsize : ℕ)
  /-- It sends a message. -/
  | send (m : PosixMessage msgsize)
  /-- It receives a message. -/
  | receive
  /-- It blocks in `mq_receive`. -/
  | wait
  /-- It stops waiting without a message. -/
  | giveUp
  deriving DecidableEq, Repr

/-- A queue that has just been created. -/
def empty : PosixQueue msgsize maxmsg where
  messages := []
  waiting := 0
  length_le := Nat.zero_le maxmsg
  eq_nil_of_waiting := fun _ => rfl

/-- `mq_send`, `none` if the queue is full. The second component says whether a process that is
registered for it is notified. -/
def send (q : PosixQueue msgsize maxmsg) (m : PosixMessage msgsize) :
    Option (PosixQueue msgsize maxmsg × Bool) :=
  if hwaiting : q.waiting ≠ 0 then
    -- the message goes to one of the processes that wait
    some ({ q with
      waiting := q.waiting - 1
      eq_nil_of_waiting := fun _ => q.eq_nil_of_waiting hwaiting }, false)
  else if hroom : q.messages.length < maxmsg then
    some ({ q with
      messages := q.messages ++ [m]
      length_le := by
        rw [List.length_append]
        exact hroom
      eq_nil_of_waiting := fun h => absurd h hwaiting }, q.messages.isEmpty)
  else
    none

/-- The message that `mq_receive` takes, `none` if the queue is empty. -/
def first (q : PosixQueue msgsize maxmsg) : Option (PosixMessage msgsize) :=
  q.messages.argmax PosixMessage.priority

/-- The queue without the message `m`. -/
def remove (q : PosixQueue msgsize maxmsg) (m : PosixMessage msgsize) :
    PosixQueue msgsize maxmsg where
  messages := q.messages.erase m
  waiting := q.waiting
  length_le := List.length_erase_le.trans q.length_le
  eq_nil_of_waiting := fun h => by rw [q.eq_nil_of_waiting h, List.erase_nil]

/-- The queue after `mq_receive`. -/
def rest (q : PosixQueue msgsize maxmsg) : PosixQueue msgsize maxmsg :=
  match q.first with
  | some m => q.remove m
  | none => q

/-- The return value of `mq_receive`: the length of the message, -1 without one. -/
def returnValue : Option (PosixMessage msgsize) → ℤ
  | none => -1
  | some m => m.text.length

/-- A step of another process, `none` if it cannot be taken. The second component is that of
`send`. -/
def act (q : PosixQueue msgsize maxmsg) : Act msgsize → Option (PosixQueue msgsize maxmsg × Bool)
  | .send m => q.send m
  | .receive => if q.messages = [] then none else some (q.rest, false)
  | .wait =>
    if hnil : q.messages = [] then
      some ({ q with waiting := q.waiting + 1, eq_nil_of_waiting := fun _ => hnil }, false)
    else
      none
  | .giveUp =>
    if hwaiting : q.waiting ≠ 0 then
      some ({ q with
        waiting := q.waiting - 1
        eq_nil_of_waiting := fun _ => q.eq_nil_of_waiting hwaiting }, false)
    else
      none

variable {q q' : PosixQueue msgsize maxmsg} {m : PosixMessage msgsize} {notify : Bool}
  {r : Option (PosixMessage msgsize)}

/-! ## What is received -/

/-- The message that is next to be received is in the queue. -/
theorem mem_of_first (h : q.first = some m) : m ∈ q.messages :=
  List.argmax_mem h

/-- A queue that is not empty has a message to be received. -/
theorem exists_first (h : q.messages ≠ []) : ∃ m, q.first = some m :=
  Option.ne_none_iff_exists'.mp fun hnone => h (List.argmax_eq_none.mp hnone)

/-- A call returns -1 exactly when it fails. -/
theorem returnValue_eq_neg_one_iff : returnValue r = -1 ↔ r = none := by
  cases r with
  | none => simp [returnValue]
  | some m => simp only [returnValue, reduceCtorEq]

/-- A terminator behind the message stays inside a buffer for the longest message exactly when
there is a message and it is shorter than that. -/
theorem returnValue_inside_iff :
    0 ≤ returnValue r ∧ returnValue r < msgsize ↔ ∃ m, r = some m ∧ m.Short := by
  cases r with
  | none => simp [returnValue]
  | some m => simp [returnValue, PosixMessage.Short]

/-! ## Steps of other processes -/

/-- A message was sent to one of the processes that wait, or it is in the queue now. -/
theorem messages_of_send (h : q.send m = some (q', notify)) :
    (q.waiting ≠ 0 ∧ q'.messages = q.messages) ∨
      (q.waiting = 0 ∧ q'.messages = q.messages ++ [m]) := by
  rw [send] at h
  split_ifs at h with hwaiting hroom
  · obtain ⟨rfl, -⟩ := Prod.mk.inj (Option.some.inj h)
    exact .inl ⟨hwaiting, rfl⟩
  · obtain ⟨rfl, -⟩ := Prod.mk.inj (Option.some.inj h)
    exact .inr ⟨not_not.mp hwaiting, rfl⟩

/-- Only a full queue refuses a message. -/
theorem length_of_send_eq_none (h : q.send m = none) : q.messages.length = maxmsg := by
  rw [send] at h
  split_ifs at h with hwaiting hroom
  exact Nat.le_antisymm q.length_le (Nat.le_of_not_lt hroom)

/-- What holds of the messages in the queue and of the new one holds after `mq_send`. -/
theorem forall_mem_send {P : PosixMessage msgsize → Prop} (hq : ∀ m ∈ q.messages, P m) (hm : P m)
    (h : q.send m = some (q', notify)) : ∀ m ∈ q'.messages, P m := by
  rcases messages_of_send h with ⟨-, heq⟩ | ⟨-, heq⟩
  · rwa [heq]
  · rw [heq]
    intro m' hm'
    rcases List.mem_append.mp hm' with hm' | hm'
    · exact hq m' hm'
    · rwa [List.mem_singleton.mp hm']

/-- What holds of the messages in the queue holds of those that are left. -/
theorem forall_mem_rest {P : PosixMessage msgsize → Prop} (hq : ∀ m ∈ q.messages, P m) :
    ∀ m ∈ q.rest.messages, P m := by
  rw [rest]
  cases q.first with
  | none => exact hq
  | some m => exact fun m' hm' => hq m' (List.mem_of_mem_erase hm')

/-- `mq_receive` takes one message. -/
theorem length_rest (h : q.messages ≠ []) : q.rest.messages.length = q.messages.length - 1 := by
  obtain ⟨m, hm⟩ := exists_first h
  simp only [rest, hm]
  exact List.length_erase_of_mem (mem_of_first hm)

/-- What holds of all messages in the queue is kept by others who send only such messages. -/
theorem forall_mem_act {P : PosixMessage msgsize → Prop} {a : Act msgsize}
    (hq : ∀ m ∈ q.messages, P m) (ha : ∀ m, a = .send m → P m)
    (h : q.act a = some (q', notify)) : ∀ m ∈ q'.messages, P m := by
  cases a with
  | send m => exact forall_mem_send hq (ha m rfl) h
  | receive =>
    simp only [act] at h
    split_ifs at h
    obtain ⟨rfl, -⟩ := Prod.mk.inj (Option.some.inj h)
    exact forall_mem_rest hq
  | wait =>
    simp only [act] at h
    split_ifs at h
    obtain ⟨rfl, -⟩ := Prod.mk.inj (Option.some.inj h)
    exact hq
  | giveUp =>
    simp only [act] at h
    split_ifs at h
    obtain ⟨rfl, -⟩ := Prod.mk.inj (Option.some.inj h)
    exact hq

/-- A queue with a message keeps one when others receive only from a queue with more than one. -/
theorem ne_nil_of_act {a : Act msgsize} (hne : q.messages ≠ [])
    (ha : a = .receive → 2 ≤ q.messages.length) (h : q.act a = some (q', notify)) :
    q'.messages ≠ [] := by
  cases a with
  | send m =>
    rcases messages_of_send h with ⟨-, heq⟩ | ⟨-, heq⟩
    · rwa [heq]
    · rw [heq]
      exact List.append_ne_nil_of_left_ne_nil hne _
  | receive =>
    simp only [act] at h
    split_ifs at h
    obtain ⟨rfl, -⟩ := Prod.mk.inj (Option.some.inj h)
    have hlength := length_rest hne
    have htwo := ha rfl
    apply List.ne_nil_of_length_pos
    omega
  | wait =>
    simp only [act] at h
    split_ifs at h with hnil
    exact absurd hnil hne
  | giveUp =>
    simp only [act] at h
    split_ifs at h
    obtain ⟨rfl, -⟩ := Prod.mk.inj (Option.some.inj h)
    exact hne

end PosixQueue
