import Mathlib.Data.Fin.Basic
import OsPrograms.Common.WriteAll
import OsPrograms.Lib.Descriptors
import OsPrograms.Lib.Printf
import OsPrograms.Lib.TransitionSystem

/-!
# An event loop over sockets (`epoll_unix_echo`)

Clients connect, write one message and exit. The server waits with `epoll_wait` for up to four ready
descriptors at a time and goes through them:

```
while (replies < n) {
    ready = epoll_wait(ep, events, 4, 2000);
    for (i = 0; i < ready; i++)
        if (events[i].data.fd == server) { client = accept4(server); epoll_ctl(ADD, client); }
        else { if (read(fd, buf, 63) > 0) { printf(buf); replies++; } xclose(fd); }
}
```

The events of a batch are descriptor numbers. While the batch is handled, descriptors are closed and
accepted ones get the lowest free number, so a number may come to stand for another connection. Each
event is kept together with the file it was raised for, and a handler that meets another file ends
in `stray`.

## Main results

- `sent_eq`, `echo_message_injective`: what the clients send.
- `At`: a connection is at one stage, from the backlog to a closed descriptor, and is found nowhere
  else.
- `exists_at_connect` to `exists_at_close`: each step moves one connection to its next stage.
-/

namespace EpollUnixEcho

open Printf

/-- What a descriptor of the server refers to, with `n` clients. -/
inductive File (n : ℕ)
  /-- What the process has inherited. -/
  | inherited
  /-- The listening socket. -/
  | server
  | epoll
  /-- The connection of a client. -/
  | conn (i : Fin n)
  deriving DecidableEq, Repr

/-- An element of `events`, and the file it was raised for. -/
structure Event (n : ℕ) where
  /-- `data.fd` -/
  fd : ℕ
  file : File n
  deriving DecidableEq, Repr

/-- The next statement of a client. -/
inductive ClientPc
  | connect
  | write
  | exit
  | exited
  deriving DecidableEq, Repr

/-- The next statement of the server. -/
inductive ServerPc (n : ℕ)
  | epollWait
  /-- The next element of `events` is looked at. -/
  | handle
  /-- `epoll_ctl(ep, EPOLL_CTL_ADD, client, &ev)` -/
  | epollCtl (client : ℕ)
  /-- `xclose(events[i].data.fd)` -/
  | xclose (e : Event n)
  /-- The loop has ended. -/
  | finished
  /-- `die("epoll_wait timeout")` -/
  | died
  /-- A descriptor was used that does not refer to the file the event was raised for. -/
  | stray
  deriving DecidableEq, Repr

/-- The clients and the server. -/
structure State (n : ℕ) where
  client : Fin n → ClientPc
  /-- The unread bytes of a connection. -/
  inbox : Fin n → List Char
  /-- The connections that have not been accepted. -/
  backlog : List (Fin n)
  /-- The descriptors of the server. -/
  table : Descriptors (File n)
  /-- The descriptors in the epoll set. -/
  interest : Finset ℕ
  pc : ServerPc n
  /-- The elements of `events` that are still to be handled. -/
  batch : List (Event n)
  replies : ℕ
  /-- The texts printed. -/
  printed : List (List Char)
  /-- The connections on which `read` was called, in order. -/
  reads : List (Fin n)
  /-- The connections that were closed, in order. -/
  closes : List (Fin n)

/-- What a run of the program depends on. -/
structure Config where
  /-- The number of clients, an `int`. -/
  n : ℕ
  n_lt : n < 2 ^ 31
  /-- The descriptors that are open when the program starts. -/
  opened : Finset ℕ

/-- What happens next. -/
inductive Action (n : ℕ)
  /-- A client performs its next statement. -/
  | client (i : Fin n)
  /-- `epoll_wait` returns these events. -/
  | epollWait (events : List (Event n))
  /-- `epoll_wait` returns 0 or -1. -/
  | timeout
  /-- The server performs its next statement. -/
  | server

section Model

variable {n : ℕ}

/-- What `"client-%d\n"` formats. -/
def message (i : Fin n) : List Char :=
  ['c', 'l', 'i', 'e', 'n', 't', '-'] ++ decimal (i + 1) ++ ['\n']

/-- What a client writes to its socket. -/
def sent (i : Fin n) : List Char :=
  let (len, msg) := snprintf 32 (message i)
  WriteAll.atOnce (msg ++ ['\x00']) len

/-- What the server prints, `"epoll echo saw: %s"`. -/
def echo (text : List Char) : List Char :=
  ['e', 'p', 'o', 'l', 'l', ' ', 'e', 'c', 'h', 'o', ' ', 's', 'a', 'w', ':', ' '] ++ text

/-- `epoll_wait` reports the file: there is a connection to accept, data to read, or a hang-up. -/
def State.Ready (s : State n) : File n → Prop
  | .server => s.backlog ≠ []
  | .conn i => s.inbox i ≠ [] ∨ s.client i = .exited
  | .inherited | .epoll => False

instance (s : State n) (file : File n) : Decidable (s.Ready file) := by
  cases file <;> unfold State.Ready <;> infer_instance

/-- What `epoll_wait` can return: up to four descriptors of its set that are ready. -/
def State.Reports (s : State n) (events : List (Event n)) : Prop :=
  events ≠ [] ∧ events.length ≤ 4 ∧ (events.map (·.fd)).Nodup ∧
    ∀ e ∈ events, e.fd ∈ s.interest ∧ s.table.entry e.fd = some e.file ∧ s.Ready e.file

instance (s : State n) (events : List (Event n)) : Decidable (s.Reports events) := by
  unfold State.Reports
  infer_instance

/-- The next statement of a client, `none` while it blocks and after its end. -/
def clientStep (s : State n) (i : Fin n) : Option (State n) :=
  match s.client i with
  | .connect =>
    -- blocks while the backlog is full
    if s.backlog.length ≤ 8 then
      some { s with
        backlog := s.backlog ++ [i]
        client := Function.update s.client i .write }
    else none
  | .write =>
    -- also before the connection is accepted
    some { s with
      inbox := Function.update s.inbox i (s.inbox i ++ sent i)
      client := Function.update s.client i .exit }
  | .exit => some { s with client := Function.update s.client i .exited }
  | .exited => none

end Model

section Server

variable (c : Config)

/-- The table with which the process starts. -/
def inheritedTable : Descriptors (File c.n) :=
  .ofFinset c.opened fun _ => .inherited

/-- The number of `server`. -/
def serverFd : ℕ :=
  (inheritedTable c).lowestFree

/-- The table after `socket`. -/
def socketTable : Descriptors (File c.n) :=
  (inheritedTable c).set (serverFd c) (some .server)

/-- Where the server goes on after an event: with the next one, or at the test of the loop. -/
def next (batch : List (Event c.n)) (replies : ℕ) : ServerPc c.n :=
  if batch = [] then if replies < c.n then .epollWait else .finished else .handle

/-- The state at the beginning of the loop, before any client has done anything. -/
def init : State c.n where
  client _ := .connect
  inbox _ := []
  backlog := []
  table := (socketTable c).set (socketTable c).lowestFree (some .epoll)
  interest := {serverFd c}
  pc := next c [] 0
  batch := []
  replies := 0
  printed := []
  reads := []
  closes := []

/-- `accept4`. When it fails, `epoll_ctl` fails for -1, and nothing has changed. -/
def accept (s : State c.n) : State c.n :=
  match s.backlog with
  | [] => { s with pc := next c s.batch s.replies }
  | i :: backlog =>
    { s with
      backlog := backlog
      table := s.table.set s.table.lowestFree (some (.conn i))
      pc := .epollCtl s.table.lowestFree }

/-- `read` for an event on connection `i`, and what follows up to the `xclose`. -/
def readConn (s : State c.n) (e : Event c.n) (i : Fin c.n) : State c.n :=
  let data := (s.inbox i).take 63
  { s with
    inbox := Function.update s.inbox i ((s.inbox i).drop 63)
    printed := if data = [] then s.printed else s.printed ++ [echo (cString (data ++ ['\x00']))]
    replies := if data = [] then s.replies else s.replies + 1
    reads := s.reads ++ [i]
    pc := .xclose e }

/-- The handler of an event, which has been taken from the batch. -/
def handle (s : State c.n) (e : Event c.n) : State c.n :=
  if s.table.entry e.fd = some e.file then
    -- the code compares numbers, it does not know the file
    if e.fd = serverFd c then accept c s
    else
      match e.file with
      | .conn i => readConn c s e i
      | _ => { s with pc := .stray }
  else { s with pc := .stray }

/-- `xclose` of the descriptor of an event, which also leaves the epoll set. -/
def close (s : State c.n) (e : Event c.n) : State c.n :=
  if s.table.entry e.fd = some e.file then
    { s with
      table := s.table.set e.fd none
      interest := s.interest.erase e.fd
      closes := s.closes ++ (match e.file with | .conn i => [i] | _ => [])
      pc := next c s.batch s.replies }
  else { s with pc := .stray }

/-- The next statement of the server, apart from `epoll_wait`. -/
def serverStep (s : State c.n) : Option (State c.n) :=
  match s.pc with
  | .handle =>
    match s.batch with
    | [] => none
    | e :: rest => some (handle c { s with batch := rest } e)
  | .epollCtl client =>
    some { s with interest := insert client s.interest, pc := next c s.batch s.replies }
  | .xclose e => some (close c s e)
  | .epollWait | .finished | .died | .stray => none

/-- The clients and the server, interleaved. -/
def system : TransitionSystem (State c.n) (Action c.n) where
  init := init c
  step
    | s, .client i => clientStep s i
    | s, .epollWait events =>
      if s.pc = .epollWait ∧ s.Reports events then
        some { s with batch := events, pc := .handle }
      else none
    | s, .timeout => if s.pc = .epollWait then some { s with pc := .died } else none
    | s, .server => serverStep c s

end Server

/-! ## The message of a client -/

section Message

variable {c : Config}

/-- A message is a string. -/
theorem nul_notMem_message (i : Fin c.n) : '\x00' ∉ message i := by
  have hdigits : '\x00' ∉ decimal (i + 1) := fun h =>
    absurd (isDigit_of_mem_decimal h) (by decide)
  simp [message, hdigits]

/-- A message fits the buffer of the server. -/
theorem length_message_le (i : Fin c.n) : (message i).length ≤ 18 := by
  have hdigits : (decimal (i + 1)).length ≤ 10 := by
    refine (length_decimal_le_iff (by decide)).mpr ?_
    have := i.isLt
    have := c.n_lt
    omega
  simp only [message, List.length_append, List.length_cons, List.length_nil]
  omega

theorem message_ne_nil (i : Fin c.n) : message i ≠ [] := by
  simp [message]

/-- Different clients send different messages. -/
theorem echo_message_injective : Function.Injective fun i : Fin c.n => echo (message i) := by
  intro i j h
  dsimp only at h
  rw [echo, echo, List.append_cancel_left_eq, message, message, List.append_cancel_right_eq,
    List.append_cancel_left_eq] at h
  have hsucc : (i : ℕ) + 1 = j + 1 := decimal_injective h
  exact Fin.ext (Nat.succ.inj hsucc)

/-- `msg` holds the whole message. -/
theorem sent_eq (i : Fin c.n) : sent i = message i := by
  have hstored : (snprintf 32 (message i)).2 = message i :=
    (snprintf_stored_eq_iff (by decide)).mpr ((length_message_le i).trans_lt (by decide))
  change WriteAll.atOnce ((snprintf 32 (message i)).2 ++ ['\x00']) (message i).length = _
  rw [hstored, WriteAll.atOnce_eq, List.take_left]

end Message

/-! ## The stages of a connection -/

/-- How far a connection has come. -/
inductive Stage
  /-- The client has not connected. -/
  | fresh
  /-- It waits in the backlog. -/
  | queued
  /-- It was accepted and has the descriptor `fd`. -/
  | opened (fd : ℕ)
  /-- It was read and is about to be closed. -/
  | read (fd : ℕ)
  | closed
  deriving DecidableEq

/-- Connection `i` is at a stage: where it is found, and where not. -/
structure At {n : ℕ} (s : State n) (i : Fin n) (st : Stage) : Prop where
  connect : s.client i = .connect ↔ st = .fresh
  backlog : i ∈ s.backlog ↔ st = .queued
  table : ∀ k, s.table.entry k = some (.conn i) ↔ st = .opened k ∨ st = .read k
  reads : i ∈ s.reads ↔ st = .closed ∨ ∃ k, st = .read k
  closes : i ∈ s.closes ↔ st = .closed
  xclose : ∀ k, s.pc = .xclose ⟨k, .conn i⟩ ↔ st = .read k
  inbox : i ∉ s.reads →
    s.inbox i = if s.client i = .connect ∨ s.client i = .write then [] else message i

section Stages

variable {n : ℕ} {s s' : State n} {i j : Fin n} {st : Stage}

/-- A step that leaves a connection alone. -/
theorem At.congr (h : At s i st) (hclient : s'.client i = s.client i)
    (hinbox : s'.inbox i = s.inbox i) (hbacklog : i ∈ s'.backlog ↔ i ∈ s.backlog)
    (htable : ∀ k, s'.table.entry k = some (.conn i) ↔ s.table.entry k = some (.conn i))
    (hreads : i ∈ s'.reads ↔ i ∈ s.reads) (hcloses : i ∈ s'.closes ↔ i ∈ s.closes)
    (hxclose : ∀ k, s'.pc = .xclose ⟨k, .conn i⟩ ↔ s.pc = .xclose ⟨k, .conn i⟩) :
    At s' i st where
  connect := by rw [hclient, h.connect]
  backlog := by rw [hbacklog, h.backlog]
  table k := by rw [htable, h.table]
  reads := by rw [hreads, h.reads]
  closes := by rw [hcloses, h.closes]
  xclose k := by rw [hxclose, h.xclose]
  inbox hi := by rw [hinbox, hclient, h.inbox (hreads.not.mp hi)]

/-- A step of the server between two handlers. -/
theorem At.of_pc (h : At s i st) {interest : Finset ℕ} {batch : List (Event n)} {pc : ServerPc n}
    (hpc : ∀ e, s.pc ≠ .xclose e) (hpc' : ∀ e, pc ≠ .xclose e) :
    At { s with interest := interest, batch := batch, pc := pc } i st :=
  h.congr rfl rfl Iff.rfl (fun _ => Iff.rfl) Iff.rfl Iff.rfl fun _ =>
    iff_of_false (hpc' _) (hpc _)

/-- A step in which connection `j` moves on to another stage. -/
theorem exists_at_of_move (j : Fin n) (st' : Stage) (h : ∀ i, ∃ st, At s i st) (hj : At s' j st')
    (hframe : ∀ i st, i ≠ j → At s i st → At s' i st) : ∀ i, ∃ st, At s' i st := by
  intro i
  by_cases hij : i = j
  · exact ⟨st', hij ▸ hj⟩
  · obtain ⟨st, hi⟩ := h i
    exact ⟨st, hframe i st hij hi⟩

/-- A client connects, and its connection waits in the backlog. -/
theorem exists_at_connect (h : ∀ i, ∃ st, At s i st) (hj : At s j .fresh) :
    ∀ i, ∃ st, At { s with
      backlog := s.backlog ++ [j]
      client := Function.update s.client j .write } i st := by
  have hpc : s.client j = .connect := hj.connect.mpr rfl
  refine exists_at_of_move j .queued h ?_ fun i st hij hi => ?_
  · refine ⟨by simp, by simp, by simpa using hj.table, by simpa using hj.reads,
      by simpa using hj.closes, by simpa using hj.xclose, fun hreads => ?_⟩
    simpa [hpc] using hj.inbox hreads
  · exact hi.congr (by simp [hij]) rfl (by simp [hij]) (fun _ => Iff.rfl) Iff.rfl Iff.rfl
      fun _ => Iff.rfl

/-- A client writes its whole message, wherever its connection is. -/
theorem exists_at_write {text : List Char} (h : ∀ i, ∃ st, At s i st) (hpc : s.client j = .write)
    (htext : text = message j) :
    ∀ i, ∃ st, At { s with
      inbox := Function.update s.inbox j (s.inbox j ++ text)
      client := Function.update s.client j .exit } i st := by
  obtain ⟨st, hj⟩ := h j
  refine exists_at_of_move j st h ?_ fun i st hij hi => ?_
  · -- the stage stays the same, the connection may be queued or open
    refine ⟨?_, hj.backlog, hj.table, hj.reads, hj.closes, hj.xclose, fun hreads => ?_⟩
    · simpa [hpc] using hj.connect
    · have hempty : s.inbox j = [] := by simpa [hpc] using hj.inbox hreads
      simp [hempty, htext]
  · exact hi.congr (by simp [hij]) (by simp [hij]) Iff.rfl (fun _ => Iff.rfl) Iff.rfl Iff.rfl
      fun _ => Iff.rfl

/-- A client exits, and what it has written stays. -/
theorem exists_at_exit (h : ∀ i, ∃ st, At s i st) (hpc : s.client j = .exit) :
    ∀ i, ∃ st, At { s with client := Function.update s.client j .exited } i st := by
  obtain ⟨st, hj⟩ := h j
  refine exists_at_of_move j st h ?_ fun i st hij hi => ?_
  · refine ⟨?_, hj.backlog, hj.table, hj.reads, hj.closes, hj.xclose, fun hreads => ?_⟩
    · simpa [hpc] using hj.connect
    · simpa [hpc] using hj.inbox hreads
  · exact hi.congr (by simp [hij]) rfl Iff.rfl (fun _ => Iff.rfl) Iff.rfl Iff.rfl fun _ => Iff.rfl

/-- `accept4` takes the first connection of the backlog and gives it a descriptor that was free. -/
theorem exists_at_accept {backlog : List (Fin n)} {k : ℕ} (h : ∀ i, ∃ st, At s i st)
    (hbacklog : s.backlog = j :: backlog) (hnodup : s.backlog.Nodup)
    (hfree : s.table.entry k = none) (hpc : ∀ e, s.pc ≠ .xclose e) :
    ∀ i, ∃ st, At { s with
      backlog := backlog
      table := s.table.set k (some (.conn j))
      pc := .epollCtl k } i st := by
  obtain ⟨st, hj⟩ := h j
  obtain rfl : st = .queued := hj.backlog.mp (by simp [hbacklog])
  have hfirst : j ∉ backlog := by
    rw [hbacklog] at hnodup
    exact (List.nodup_cons.mp hnodup).1
  refine exists_at_of_move j (.opened k) h ?_ fun i st hij hi => ?_
  · refine ⟨by simpa using hj.connect, by simpa using hfirst, fun l => ?_, by simpa using hj.reads,
      by simpa using hj.closes, by simp, hj.inbox⟩
    rw [Descriptors.entry_set]
    split
    · next hl => simp [hl]
    · next hl => simpa [Ne.symm hl] using hj.table l
  · refine hi.congr rfl rfl (by simp [hbacklog, hij]) (fun l => ?_) Iff.rfl Iff.rfl fun _ => ?_
    · -- the number `k` was free, so it did not stand for connection `i`
      rw [Descriptors.entry_set]
      split
      · next hl => simp [hl, hfree, Ne.symm hij]
      · rfl
    · exact iff_of_false nofun (hpc _)

/-- `read` on a connection. -/
theorem exists_at_read {k : ℕ} {data : List Char} {printed : List (List Char)} {replies : ℕ}
    (h : ∀ i, ∃ st, At s i st) (hj : At s j (.opened k)) (hpc : ∀ e, s.pc ≠ .xclose e) :
    ∀ i, ∃ st, At { s with
      inbox := Function.update s.inbox j data
      printed := printed
      replies := replies
      reads := s.reads ++ [j]
      pc := .xclose ⟨k, .conn j⟩ } i st := by
  refine exists_at_of_move j (.read k) h ?_ fun i st hij hi => ?_
  · refine ⟨by simpa using hj.connect, by simpa using hj.backlog, by simpa using hj.table, by simp,
      by simpa using hj.closes, fun l => ?_, fun hreads => ?_⟩
    · simp
    · simp at hreads
  · exact hi.congr rfl (by simp [hij]) Iff.rfl (fun _ => Iff.rfl) (by simp [hij]) Iff.rfl fun l =>
      iff_of_false (by simp [Ne.symm hij]) (hpc _)

/-- `xclose` of the descriptor of a connection. -/
theorem exists_at_close {k : ℕ} {interest : Finset ℕ} {pc : ServerPc n}
    (h : ∀ i, ∃ st, At s i st) (hpc : s.pc = .xclose ⟨k, .conn j⟩) (hpc' : ∀ e, pc ≠ .xclose e) :
    ∀ i, ∃ st, At { s with
      table := s.table.set k none
      interest := interest
      closes := s.closes ++ [j]
      pc := pc } i st := by
  obtain ⟨st, hj⟩ := h j
  obtain rfl : st = .read k := (hj.xclose k).mp hpc
  refine exists_at_of_move j .closed h ?_ fun i st hij hi => ?_
  · refine ⟨by simpa using hj.connect, by simpa using hj.backlog, fun l => ?_,
      by simpa using hj.reads, by simp, fun l => ?_, hj.inbox⟩
    · rw [Descriptors.entry_set]
      split
      · simp
      · next hl => simpa [Ne.symm hl] using hj.table l
    · exact iff_of_false (hpc' _) nofun
  · refine hi.congr rfl rfl Iff.rfl (fun l => ?_) Iff.rfl (by simp [hij]) fun l => ?_
    · -- the number `k` stood for connection `j`
      rw [Descriptors.entry_set]
      split
      · next hl =>
        have hentry : s.table.entry k = some (.conn j) := (hj.table k).mpr (.inr rfl)
        simp [hl, hentry, Ne.symm hij]
      · rfl
    · exact iff_of_false (hpc' _) (by simp [hpc, Ne.symm hij])

end Stages

end EpollUnixEcho
