import Mathlib.Data.List.TakeWhile
import OsPrograms.Lib.SocketStream
import OsPrograms.Lib.TransitionSystem

/-!
# `tcp_shutdown_halfclose`

The client writes a request, shuts its side of the connection down for writing and reads once; the
server discards what it reads until the end of the stream and then writes its response. Both sides
run with any texts and any sizes of the kernel's buffers, and the kernel chooses how many bytes
each call moves.

The client exits after its one `read`, so the server may still be writing when the connection goes
away. Its `write` fails then: the server is killed by `SIGPIPE`, or `write_all` returns -1, which
`main` does not look at.

## Main results

- `halfclose_correct`: the server answers after it has read the whole request, and the client
  prints a prefix of the response that is not empty and fits the array with its terminator.
- `halfclose_completes_iff`: every run is finite, and none ends in a deadlock exactly when the
  response is not empty.
-/

namespace TcpShutdownHalfclose

open TransitionSystem

/-- The two texts and the sizes of the kernel's buffers in both directions. -/
structure Config where
  /-- `"request body"` -/
  request : List UInt8
  /-- `"response after EOF"` -/
  response : List UInt8
  upCapacity : ℕ
  downCapacity : ℕ
  nulFree : 0 ∉ response
  up_pos : 1 ≤ upCapacity
  down_pos : 1 ≤ downCapacity

/-- The child: the next statement. -/
inductive ClientPc
  /-- `connect(client, ...)` -/
  | connect
  /-- `write_all(client, "request body", 12)`, which has `left` bytes to write. -/
  | write (left : List UInt8)
  /-- `shutdown(client, SHUT_WR)` -/
  | shutdown
  /-- `read(client, response, sizeof(response) - 1)` -/
  | read
  /-- `response[n] = '\0'` and `printf`, where `response` begins with `data`. -/
  | print (data : List UInt8)
  /-- After `_exit(0)`, having printed `text`. -/
  | exited (text : List UInt8)
  deriving DecidableEq, Repr

/-- The parent: the next statement. -/
inductive ServerPc
  /-- `accept(server, NULL, NULL)` -/
  | accept
  /-- `read(accepted, buffer, sizeof(buffer))` -/
  | read
  /-- `write_all(accepted, "response after EOF", 18)`, which has `left` bytes to write. -/
  | write (left : List UInt8)
  /-- `wait_for_pid(child)` -/
  | wait
  /-- After `return 0`. -/
  | returned
  /-- Killed by `SIGPIPE`. -/
  | killed
  deriving DecidableEq, Repr

structure State where
  client : ClientPc
  server : ServerPc
  /-- From the client to the server. -/
  up : SocketStream UInt8
  /-- From the server to the client. -/
  down : SocketStream UInt8
  /-- What the server's loop has read. -/
  received : List UInt8

/-- A step of one of the processes. `k` is the number of bytes that the kernel moves in a `read` or
`write`. -/
inductive Action
  | client (k : ℕ)
  | server (k : ℕ)
  /-- The server's `write` fails, with `SIGPIPE` or with an error only. -/
  | serverFails (killed : Bool)

/-- `sizeof(response) - 1` in the client. -/
def responseMax : ℕ := 63

/-- `sizeof(buffer)` in the server. -/
def bufferSize : ℕ := 64

/-- The child has called `_exit`. -/
def ClientPc.Exited : ClientPc → Prop
  | .exited _ => True
  | _ => False

instance : DecidablePred ClientPc.Exited
  | .exited _ => .isTrue trivial
  | .connect | .write _ | .shutdown | .read | .print _ => .isFalse id

def clientStep (c : Config) (s : State) (k : ℕ) : Option State :=
  match s.client with
  | .connect => some { s with client := .write c.request }
  | .write [] => some { s with client := .shutdown }
  | .write left =>
    (s.up.send c.upCapacity k left).map fun r => { s with client := .write r.2, up := r.1 }
  | .shutdown => some { s with client := .read, up := s.up.shutdown }
  | .read =>
    if s.down.AtEnd then
      some { s with client := .print [] }
    else
      (s.down.recv responseMax k).map fun r => { s with client := .print r.1, down := r.2 }
  | .print data => some { s with client := .exited (data.takeWhile (· ≠ 0)) }
  | .exited _ => none

def serverStep (c : Config) (s : State) (k : ℕ) : Option State :=
  match s.server with
  -- the connection is in the listen queue since `connect`
  | .accept => if s.client = .connect then none else some { s with server := .read }
  | .read =>
    if s.up.AtEnd then
      some { s with server := .write c.response }
    else
      (s.up.recv bufferSize k).map fun r => { s with up := r.2, received := s.received ++ r.1 }
  | .write [] => some { s with server := .wait }
  | .write left =>
    (s.down.send c.downCapacity k left).map fun r => { s with server := .write r.2, down := r.1 }
  | .wait =>
    if s.client.Exited then some { s with server := .returned, down := s.down.shutdown } else none
  | .returned => none
  | .killed => none

/-- The server's `write` with the client gone. -/
def serverFails (s : State) (killed : Bool) : Option State :=
  match s.server with
  | .write (_ :: _) =>
    if s.client.Exited then
      some { s with
        server := if killed then .killed else .wait
        down := if killed then s.down.shutdown else s.down }
    else
      none
  | _ => none

def init : State where
  client := .connect
  server := .accept
  up := .new
  down := .new
  received := []

/-- The two processes. -/
def system (c : Config) : TransitionSystem State Action where
  init := init
  step s
    | .client k => clientStep c s k
    | .server k => serverStep c s k
    | .serverFails killed => serverFails s killed

/-! ## What the processes can do -/

section Steps

variable {c : Config} {s s' : State} {k : ℕ}

/-- The cases of a step of the client. -/
theorem clientStep_cases (h : clientStep c s k = some s') :
    (s.client = .connect ∧ s' = { s with client := .write c.request }) ∨
    (s.client = .write [] ∧ s' = { s with client := .shutdown }) ∨
    (∃ left rest up, s.client = .write left ∧ s.up.send c.upCapacity k left = some (up, rest) ∧
      s' = { s with client := .write rest, up := up }) ∨
    (s.client = .shutdown ∧ s' = { s with client := .read, up := s.up.shutdown }) ∨
    (s.client = .read ∧ s.down.AtEnd ∧ s' = { s with client := .print [] }) ∨
    (∃ data down, s.client = .read ∧ s.down.recv responseMax k = some (data, down) ∧
      s' = { s with client := .print data, down := down }) ∨
    (∃ data, s.client = .print data ∧
      s' = { s with client := .exited (data.takeWhile (· ≠ 0)) }) := by
  unfold clientStep at h
  split at h
  next hpc => exact .inl ⟨hpc, (Option.some.inj h).symm⟩
  next hpc => exact .inr (.inl ⟨hpc, (Option.some.inj h).symm⟩)
  next left _ hpc =>
    obtain ⟨⟨up, rest⟩, hsend, rfl⟩ := Option.map_eq_some_iff.mp h
    exact .inr (.inr (.inl ⟨left, rest, up, hpc, hsend, rfl⟩))
  next hpc => exact .inr (.inr (.inr (.inl ⟨hpc, (Option.some.inj h).symm⟩)))
  next hpc =>
    split at h
    next hend => exact .inr (.inr (.inr (.inr (.inl ⟨hpc, hend, (Option.some.inj h).symm⟩))))
    next =>
      obtain ⟨⟨data, down⟩, hrecv, rfl⟩ := Option.map_eq_some_iff.mp h
      exact .inr (.inr (.inr (.inr (.inr (.inl ⟨data, down, hpc, hrecv, rfl⟩)))))
  next data hpc =>
    exact .inr (.inr (.inr (.inr (.inr (.inr ⟨data, hpc, (Option.some.inj h).symm⟩)))))
  next => cases h

/-- The cases of a step of the server. -/
theorem serverStep_cases (h : serverStep c s k = some s') :
    (s.server = .accept ∧ s.client ≠ .connect ∧ s' = { s with server := .read }) ∨
    (s.server = .read ∧ s.up.AtEnd ∧ s' = { s with server := .write c.response }) ∨
    (∃ data up, s.server = .read ∧ s.up.recv bufferSize k = some (data, up) ∧
      s' = { s with up := up, received := s.received ++ data }) ∨
    (s.server = .write [] ∧ s' = { s with server := .wait }) ∨
    (∃ left rest down, s.server = .write left ∧
      s.down.send c.downCapacity k left = some (down, rest) ∧
      s' = { s with server := .write rest, down := down }) ∨
    (s.server = .wait ∧ s.client.Exited ∧
      s' = { s with server := .returned, down := s.down.shutdown }) := by
  unfold serverStep at h
  split at h
  next hpc =>
    obtain ⟨hclient, rfl⟩ := by simpa only [Option.ite_none_left_eq_some, Option.some.injEq] using h
    exact .inl ⟨hpc, hclient, rfl⟩
  next hpc =>
    split at h
    next hend => exact .inr (.inl ⟨hpc, hend, (Option.some.inj h).symm⟩)
    next =>
      obtain ⟨⟨data, up⟩, hrecv, rfl⟩ := Option.map_eq_some_iff.mp h
      exact .inr (.inr (.inl ⟨data, up, hpc, hrecv, rfl⟩))
  next hpc => exact .inr (.inr (.inr (.inl ⟨hpc, (Option.some.inj h).symm⟩)))
  next left _ hpc =>
    obtain ⟨⟨down, rest⟩, hsend, rfl⟩ := Option.map_eq_some_iff.mp h
    exact .inr (.inr (.inr (.inr (.inl ⟨left, rest, down, hpc, hsend, rfl⟩))))
  next hpc =>
    obtain ⟨hclient, rfl⟩ := by
      simpa only [Option.ite_none_right_eq_some, Option.some.injEq] using h
    exact .inr (.inr (.inr (.inr (.inr ⟨hpc, hclient, rfl⟩))))
  next => cases h
  next => cases h

/-- The cases of a `write` that fails. -/
theorem serverFails_cases {killed : Bool} (h : serverFails s killed = some s') :
    ∃ left, s.server = .write left ∧ s.client.Exited ∧
      ((s' = { s with server := .killed, down := s.down.shutdown }) ∨
        s' = { s with server := .wait }) := by
  unfold serverFails at h
  split at h
  next byte rest hpc =>
    obtain ⟨hclient, rfl⟩ := by
      simpa only [Option.ite_none_right_eq_some, Option.some.injEq] using h
    refine ⟨byte :: rest, hpc, hclient, ?_⟩
    cases killed with
    | true => exact .inl rfl
    | false => exact .inr rfl
  next => cases h

end Steps

/-! ## The invariant -/

/-- What the client still has to write. -/
def ClientPc.left (c : Config) : ClientPc → List UInt8
  | .connect => c.request
  | .write left => left
  | .shutdown | .read | .print _ | .exited _ => []

/-- The client has shut its side down. -/
def ClientPc.ShutDown : ClientPc → Prop
  | .read | .print _ | .exited _ => True
  | .connect | .write _ | .shutdown => False

/-- The client has read. -/
def ClientPc.HasRead : ClientPc → Prop
  | .print _ | .exited _ => True
  | .connect | .write _ | .shutdown | .read => False

/-- What the client has read. -/
def ClientPc.got : ClientPc → List UInt8
  | .print data => data
  | .exited text => text
  | .connect | .write _ | .shutdown | .read => []

/-- What the server still has to write. -/
def ServerPc.left (c : Config) : ServerPc → List UInt8
  | .accept | .read => c.response
  | .write left => left
  | .wait | .returned | .killed => []

/-- The server has left its loop. -/
def ServerPc.Replying : ServerPc → Prop
  | .accept | .read => False
  | .write _ | .wait | .returned | .killed => True

/-- The server process is gone. -/
def ServerPc.Gone : ServerPc → Prop
  | .accept | .read | .write _ | .wait => False
  | .returned | .killed => True

/-- Both texts are where the program counters say, in their order. -/
structure Inv (c : Config) (s : State) : Prop where
  request_eq : s.received ++ s.up.queued ++ s.client.left c = c.request
  ended_iff : s.up.ended = true ↔ s.client.ShutDown
  replying : s.server.Replying → s.up.AtEnd
  response_eq : ∃ lost, s.client.got ++ s.down.queued ++ s.server.left c ++ lost = c.response ∧
    (¬s.client.Exited → lost = [])
  hasRead : s.client.HasRead → s.client.got ≠ [] ∧ s.client.got.length ≤ responseMax
  down_ended : s.down.ended = true → s.client.Exited
  gone : s.server.Gone → s.client.Exited

section Invariant

variable {c : Config} {s s' : State} {k : ℕ}

theorem Inv.init : Inv c init where
  request_eq := rfl
  ended_iff := by simp [TcpShutdownHalfclose.init, SocketStream.new, ClientPc.ShutDown]
  replying := False.elim
  response_eq := ⟨[], List.append_nil _, fun _ => rfl⟩
  hasRead := False.elim
  down_ended := by simp [TcpShutdownHalfclose.init, SocketStream.new]
  gone := False.elim

/-- `%s` prints all that has been read: the response contains no NUL. -/
theorem Inv.takeWhile_got (h : Inv c s) : s.client.got.takeWhile (· ≠ 0) = s.client.got := by
  obtain ⟨lost, hresponse, -⟩ := h.response_eq
  rw [List.takeWhile_eq_self_iff]
  intro byte hbyte
  have hmem : byte ∈ c.response := by
    rw [← hresponse]
    simp only [List.mem_append]
    exact .inl (.inl (.inl hbyte))
  exact decide_eq_true fun hzero => c.nulFree (hzero ▸ hmem)

/-- The client sends its request, ends its half of the connection, and reads once. -/
theorem Inv.of_clientStep (h : Inv c s) (hs : clientStep c s k = some s') : Inv c s' := by
  have hrequest := h.request_eq
  have hended := h.ended_iff
  have hreplying := h.replying
  have hdown := h.down_ended
  have hgone := h.gone
  obtain ⟨lost, hresponse, hlost⟩ := h.response_eq
  obtain ⟨hpc, rfl⟩ | ⟨hpc, rfl⟩ | ⟨left, rest, up, hpc, hsend, rfl⟩ | ⟨hpc, rfl⟩ |
    ⟨hpc, hend, rfl⟩ | ⟨data, down, hpc, hrecv, rfl⟩ | ⟨data, hpc, rfl⟩ := clientStep_cases hs
  all_goals
    simp only [hpc, ClientPc.left, ClientPc.ShutDown, ClientPc.got, ClientPc.Exited, iff_false,
      iff_true] at hrequest hended hresponse hdown hgone hlost
  · exact ⟨hrequest, by simpa [ClientPc.ShutDown] using hended, hreplying, ⟨lost, hresponse, hlost⟩,
      False.elim, hdown, hgone⟩
  · exact ⟨hrequest, by simpa [ClientPc.ShutDown] using hended, hreplying, ⟨lost, hresponse, hlost⟩,
      False.elim, hdown, hgone⟩
  · obtain ⟨-, hqueued, -, hsame⟩ := SocketStream.spec_of_send hsend
    refine ⟨?_, ?_, ?_, ⟨lost, hresponse, hlost⟩, False.elim, hdown, hgone⟩
    · simpa only [ClientPc.left, List.append_assoc, hqueued] using hrequest
    · simpa [ClientPc.ShutDown, hsame] using hended
    · intro hrep
      exact absurd (hreplying hrep).2 hended
  · refine ⟨hrequest, ?_, ?_, ⟨lost, hresponse, hlost⟩, False.elim, hdown, hgone⟩
    · simp [ClientPc.ShutDown]
    · intro hrep
      exact absurd (hreplying hrep).2 hended
  · -- the server does not close its side while the client is there
    exact absurd hend.2 hdown
  · obtain ⟨hne, hsize, hqueued, hsame⟩ := SocketStream.spec_of_recv hrecv
    refine ⟨hrequest, ?_, hreplying, ⟨lost, ?_, hlost⟩, fun _ => ⟨hne, hsize⟩, ?_, hgone⟩
    · simpa [ClientPc.ShutDown] using hended
    · simpa only [ClientPc.got, hqueued, List.nil_append] using hresponse
    · intro hd
      exact absurd (hsame ▸ hd) hdown
  -- the response has no NUL, so that `%s` prints all that was read
  · have hgot := h.takeWhile_got
    have hread := h.hasRead
    simp only [hpc, ClientPc.got, ClientPc.HasRead] at hgot hread
    refine ⟨hrequest, ?_, hreplying, ⟨lost, ?_, fun hne => absurd trivial hne⟩, ?_,
      fun _ => trivial, fun _ => trivial⟩
    · simpa [ClientPc.ShutDown] using hended
    · simpa only [ClientPc.got, hgot] using hresponse
    · simpa only [ClientPc.got, ClientPc.HasRead, hgot] using hread

/-- The server reads up to the end of file before it answers. -/
theorem Inv.of_serverStep (h : Inv c s) (hs : serverStep c s k = some s') : Inv c s' := by
  have hrequest := h.request_eq
  have hended := h.ended_iff
  have hreplying := h.replying
  have hdown := h.down_ended
  obtain ⟨lost, hresponse, hlost⟩ := h.response_eq
  obtain ⟨hpc, -, rfl⟩ | ⟨hpc, hend, rfl⟩ | ⟨data, up, hpc, hrecv, rfl⟩ | ⟨hpc, rfl⟩ |
    ⟨left, rest, down, hpc, hsend, rfl⟩ | ⟨hpc, hexited, rfl⟩ := serverStep_cases hs
  all_goals simp only [hpc, ServerPc.left, ServerPc.Replying, forall_const] at hresponse hreplying
  · exact ⟨hrequest, hended, False.elim, ⟨lost, hresponse, hlost⟩, h.hasRead, hdown, False.elim⟩
  -- the loop ends at the end of the stream, where the whole request has been read
  · exact ⟨hrequest, hended, fun _ => hend, ⟨lost, hresponse, hlost⟩, h.hasRead, hdown, False.elim⟩
  · obtain ⟨-, -, hqueued, hsame⟩ := SocketStream.spec_of_recv hrecv
    refine ⟨?_, ?_, ?_, ⟨lost, ?_, hlost⟩, h.hasRead, hdown, ?_⟩
    · rw [← hqueued] at hrequest
      simpa only [List.append_assoc] using hrequest
    · exact hsame ▸ hended
    · simp only [hpc, ServerPc.Replying, false_imp_iff]
    · simpa only [hpc, ServerPc.left] using hresponse
    · simp only [hpc, ServerPc.Gone, false_imp_iff]
  · exact ⟨hrequest, hended, fun _ => hreplying, ⟨lost, hresponse, hlost⟩, h.hasRead, hdown,
      False.elim⟩
  · obtain ⟨-, hqueued, -, hsame⟩ := SocketStream.spec_of_send hsend
    refine ⟨hrequest, hended, fun _ => hreplying, ⟨lost, ?_, hlost⟩, h.hasRead, ?_, False.elim⟩
    · rw [List.append_assoc s.client.got, ← hqueued] at hresponse
      simpa only [List.append_assoc, ServerPc.left] using hresponse
    · exact hsame ▸ hdown
  · exact ⟨hrequest, hended, fun _ => hreplying, ⟨lost, hresponse, hlost⟩, h.hasRead,
      fun _ => hexited, fun _ => hexited⟩

/-- A write of the server fails only when the client is gone. -/
theorem Inv.of_serverFails {killed : Bool} (h : Inv c s) (hs : serverFails s killed = some s') :
    Inv c s' := by
  have hreplying := h.replying
  obtain ⟨lost, hresponse, -⟩ := h.response_eq
  obtain ⟨left, hpc, hexited, rfl | rfl⟩ := serverFails_cases hs
  all_goals simp only [hpc, ServerPc.left, ServerPc.Replying, forall_const] at hresponse hreplying
  -- what was left to write will never be written
  · refine ⟨h.request_eq, h.ended_iff, fun _ => hreplying, ⟨left ++ lost, ?_, ?_⟩, h.hasRead,
      fun _ => hexited, fun _ => hexited⟩
    · simpa [ServerPc.left] using hresponse
    · exact fun hne => absurd hexited hne
  · refine ⟨h.request_eq, h.ended_iff, fun _ => hreplying, ⟨left ++ lost, ?_, ?_⟩, h.hasRead,
      h.down_ended, False.elim⟩
    · simpa [ServerPc.left] using hresponse
    · exact fun hne => absurd hexited hne

/-- The invariant holds along every run. -/
theorem inv_of_reachable (h : (system c).Reachable s) : Inv c s := by
  refine h.invariant Inv.init fun s a s' hinv hs => ?_
  cases a with
  | client k => exact hinv.of_clientStep hs
  | server k => exact hinv.of_serverStep hs
  | serverFails killed => exact hinv.of_serverFails hs

/-- The request has been read when the server has left its loop. -/
theorem Inv.received_eq (h : Inv c s) (hreplying : s.server.Replying) :
    s.received = c.request := by
  have hend := h.replying hreplying
  have hrequest := h.request_eq
  have hshut := h.ended_iff.mp hend.2
  have hleft : s.client.left c = [] := by
    cases hpc : s.client <;> simp_all [ClientPc.ShutDown, ClientPc.left]
  rwa [hend.1, hleft, List.append_nil, List.append_nil] at hrequest

/-- Before the server has left its loop nothing has been written to the client. -/
theorem Inv.replying_of_got (h : Inv c s) (hgot : s.client.got ++ s.down.queued ≠ []) :
    s.server.Replying := by
  obtain ⟨lost, hresponse, -⟩ := h.response_eq
  have hleft : s.server.left c ≠ c.response := by
    intro heq
    have hlength := congrArg List.length hresponse
    have hpos := List.length_pos_iff.mpr hgot
    rw [heq, List.length_append, List.length_append] at hlength
    omega
  cases hpc : s.server <;> simp_all [ServerPc.left, ServerPc.Replying]

end Invariant

/-- What the program guarantees in a state. -/
structure Correct (c : Config) (s : State) : Prop where
  /-- The server answers when it has read the whole request and the end of the stream. -/
  request : s.server.Replying → s.received = c.request ∧ s.client.ShutDown
  /-- What the client has read is the beginning of the answer, at least one byte of it, and it
  leaves room for the terminator. -/
  response : s.client.HasRead → s.client.got <+: c.response ∧ s.client.got ≠ [] ∧
    s.client.got.length < bufferSize ∧ s.received = c.request
  /-- The server outlives the client. -/
  outlives : s.server.Gone → s.client.Exited

/-- In every interleaving the server answers after it has read the whole request, and the client
prints a non-empty prefix of the response. -/
theorem halfclose_correct {c : Config} {s : State} (hs : (system c).Reachable s) :
    Correct c s := by
  have h := inv_of_reachable hs
  refine ⟨fun hrep => ⟨h.received_eq hrep, h.ended_iff.mp (h.replying hrep).2⟩, ?_, h.gone⟩
  intro hread
  obtain ⟨hne, hlength⟩ := h.hasRead hread
  obtain ⟨lost, hresponse, -⟩ := h.response_eq
  refine ⟨⟨s.down.queued ++ s.server.left c ++ lost, ?_⟩, hne, Nat.lt_succ_of_le hlength, ?_⟩
  · simpa only [List.append_assoc] using hresponse
  · exact h.received_eq (h.replying_of_got fun hnil => hne (List.append_eq_nil_iff.mp hnil).1)

/-- Two bytes each way through buffers of one byte. -/
def twoBytes : Config where
  request := [63, 64]
  response := [33, 34]
  upCapacity := 1
  downCapacity := 1
  nulFree := by decide
  up_pos := Nat.one_pos
  down_pos := Nat.one_pos

/-- The server reads the request byte by byte, and the client reads the first byte of the response
while the server still has the second one to write. -/
theorem halfclose_correct_two_bytes :
    ∃ s, (system twoBytes).Reachable s ∧ s.client = .print [33] ∧ s.received = [63, 64] := by
  have hrun : ((system twoBytes).run init [.client 0, .client 1, .server 0, .server 1, .client 1,
      .client 0, .client 0, .server 1, .server 0, .server 1, .client 1]).map (·.client) =
      some (.print [33]) := by decide
  obtain ⟨s, hs, hclient⟩ := Option.map_eq_some_iff.mp hrun
  have hreach : (system twoBytes).Reachable s := reachable_of_run hs
  have hread : s.client.HasRead := by rw [hclient]; trivial
  exact ⟨s, hreach, hclient, ((halfclose_correct hreach).response hread).2.2.2⟩

/-! ## Termination and deadlock -/

/-- Both processes are gone. -/
def Finished (s : State) : Prop :=
  s.client.Exited ∧ s.server.Gone

/-- The steps that the client can still make. -/
def ClientPc.rank (c : Config) : ClientPc → ℕ
  | .connect => 2 * c.request.length + 5
  | .write left => 2 * left.length + 4
  | .shutdown => 3
  | .read => 2
  | .print _ => 1
  | .exited _ => 0

/-- The steps that the server can still make outside of its loop. -/
def ServerPc.rank (c : Config) : ServerPc → ℕ
  | .accept => c.response.length + 4
  | .read => c.response.length + 3
  | .write left => left.length + 2
  | .wait => 1
  | .returned | .killed => 0

/-- A bound for the steps that are still to come. -/
def rank (c : Config) (s : State) : ℕ :=
  s.client.rank c + s.up.queued.length + s.server.rank c

section Progress

variable {c : Config} {s s' : State} {k : ℕ}

/-- The client has fewer steps left. -/
theorem rank_of_clientStep (hs : clientStep c s k = some s') : rank c s' < rank c s := by
  obtain ⟨hpc, rfl⟩ | ⟨hpc, rfl⟩ | ⟨left, rest, up, hpc, hsend, rfl⟩ | ⟨hpc, rfl⟩ | ⟨hpc, -, rfl⟩ |
    ⟨data, down, hpc, -, rfl⟩ | ⟨data, hpc, rfl⟩ := clientStep_cases hs
  case inr.inr.inl =>
    obtain ⟨hlt, hqueued, -, -⟩ := SocketStream.spec_of_send hsend
    have hlength := congrArg List.length hqueued
    rw [List.length_append, List.length_append] at hlength
    simp only [rank, hpc, ClientPc.rank]
    omega
  all_goals
    simp only [rank, hpc, ClientPc.rank, SocketStream.queued_shutdown, List.length_nil]
    omega

/-- A byte that the server reads or writes is one less to move. -/
theorem rank_of_serverStep (hs : serverStep c s k = some s') : rank c s' < rank c s := by
  obtain ⟨hpc, -, rfl⟩ | ⟨hpc, -, rfl⟩ | ⟨data, up, hpc, hrecv, rfl⟩ | ⟨hpc, rfl⟩ |
    ⟨left, rest, down, hpc, hsend, rfl⟩ | ⟨hpc, -, rfl⟩ := serverStep_cases hs
  case inr.inr.inl =>
    obtain ⟨hne, -, hqueued, -⟩ := SocketStream.spec_of_recv hrecv
    have hpos := List.length_pos_iff.mpr hne
    have hlength := congrArg List.length hqueued
    rw [List.length_append] at hlength
    simp only [rank]
    omega
  case inr.inr.inr.inr.inl =>
    have hlt := (SocketStream.spec_of_send hsend).1
    simp only [rank, hpc, ServerPc.rank]
    omega
  all_goals
    simp only [rank, hpc, ServerPc.rank]
    omega

/-- Every step, failures included, leaves less to do. -/
theorem rank_of_step {a : Action} (hs : (system c).step s a = some s') : rank c s' < rank c s := by
  cases a with
  | client k => exact rank_of_clientStep hs
  | server k => exact rank_of_serverStep hs
  | serverFails killed =>
    obtain ⟨left, hpc, -, rfl | rfl⟩ := serverFails_cases hs <;>
      simp only [rank, hpc, ServerPc.rank] <;> omega

/-- A client that cannot go on waits for room, waits for the response or has exited. -/
theorem client_of_stuck (h : (system c).Stuck s) :
    (∃ left, s.client = .write left ∧ s.up.queued ≠ []) ∨
      (s.client = .read ∧ s.down.queued = []) ∨ s.client.Exited := by
  have hnone : ∀ k, clientStep c s k = none := fun k => h (.client k)
  cases hpc : s.client with
  | write left =>
    cases left with
    | nil => simp [clientStep, hpc] at hnone
    | cons byte rest =>
      refine .inl ⟨byte :: rest, rfl, fun hempty => ?_⟩
      have hroom : s.up.queued.length < c.upCapacity := by
        rw [hempty]
        exact c.up_pos
      have hsend := SocketStream.isSome_send_one (List.cons_ne_nil byte rest) hroom
      have hstep := hnone 1
      simp only [clientStep, hpc, Option.map_eq_none_iff] at hstep
      simp [hstep] at hsend
  | read =>
    refine .inr (.inl ⟨rfl, ?_⟩)
    by_contra hqueued
    have hrecv := SocketStream.isSome_recv_one (show 1 ≤ responseMax by decide) hqueued
    have hstep := hnone 1
    have hend : ¬s.down.AtEnd := fun hend => hqueued hend.1
    simp only [clientStep, hpc, if_neg hend, Option.map_eq_none_iff] at hstep
    simp [hstep] at hrecv
  | exited text => exact .inr (.inr trivial)
  | connect | shutdown | print _ => simp [clientStep, hpc] at hnone

/-- A server that cannot go on waits for a connection, for the request, for room or for the client,
or is gone. -/
theorem server_of_stuck (h : (system c).Stuck s) :
    (s.server = .accept ∧ s.client = .connect) ∨
      (s.server = .read ∧ s.up.queued = [] ∧ s.up.ended = false) ∨
      (∃ left, s.server = .write left ∧ s.down.queued ≠ [] ∧ ¬s.client.Exited) ∨
      (s.server = .wait ∧ ¬s.client.Exited) ∨ s.server.Gone := by
  have hnone : ∀ k, serverStep c s k = none := fun k => h (.server k)
  cases hpc : s.server with
  | accept =>
    have hstep := hnone 0
    simp only [serverStep, hpc, ite_eq_left_iff, reduceCtorEq, imp_false, not_not] at hstep
    exact .inl ⟨rfl, hstep⟩
  | read =>
    have hstep := hnone 1
    by_cases hend : s.up.AtEnd
    · simp [serverStep, hpc, hend] at hstep
    · simp only [serverStep, hpc, if_neg hend, Option.map_eq_none_iff] at hstep
      have hqueued : s.up.queued = [] := by
        by_contra hqueued
        have hrecv := SocketStream.isSome_recv_one (show 1 ≤ bufferSize by decide) hqueued
        simp [hstep] at hrecv
      exact .inr (.inl ⟨rfl, hqueued, by simpa [SocketStream.AtEnd, hqueued] using hend⟩)
  | write left =>
    cases left with
    | nil => simp [serverStep, hpc] at hnone
    | cons byte rest =>
      refine .inr (.inr (.inl ⟨byte :: rest, rfl, fun hempty => ?_, fun hexited => ?_⟩))
      -- an empty buffer has room for a byte
      · have hroom : s.down.queued.length < c.downCapacity := by
          rw [hempty]
          exact c.down_pos
        have hsend := SocketStream.isSome_send_one (List.cons_ne_nil byte rest) hroom
        have hstep := hnone 1
        simp only [serverStep, hpc, Option.map_eq_none_iff] at hstep
        simp [hstep] at hsend
      -- and once the client is gone, `write` fails
      · have hfails : serverFails s true = none := h (.serverFails true)
        simp [serverFails, hpc, hexited] at hfails
  | wait =>
    have hstep := hnone 0
    simp only [serverStep, hpc, ite_eq_right_iff, reduceCtorEq, imp_false] at hstep
    exact .inr (.inr (.inr (.inl ⟨rfl, hstep⟩)))
  | returned | killed => exact .inr (.inr (.inr (.inr trivial)))

/-- With a response to wait for, only finished states are stuck. -/
theorem finished_of_stuck (hresponse : c.response ≠ []) (hs : (system c).Reachable s)
    (h : (system c).Stuck s) : Finished s := by
  have hinv := inv_of_reachable hs
  have hshut := hinv.ended_iff
  have hgone := hinv.gone
  obtain ⟨left, hpc, hqueued⟩ | ⟨hpc, hqueued⟩ | hexited := client_of_stuck h
  · -- the buffer towards the server is full, so the server is past its loop without having read
    -- the end of the request
    exfalso
    obtain ⟨-, hconnect⟩ | ⟨-, hempty, -⟩ | ⟨_, hserver, -⟩ | ⟨hserver, -⟩ | hserver :=
      server_of_stuck h
    · rw [hpc] at hconnect
      cases hconnect
    · exact hqueued hempty
    · exact hqueued (hinv.replying (by rw [hserver]; trivial)).1
    · exact hqueued (hinv.replying (by rw [hserver]; trivial)).1
    · exact (hpc ▸ hgone hserver : (ClientPc.write left).Exited)
  · -- the client waits, and the request has ended: the server has something to write
    exfalso
    obtain ⟨-, hconnect⟩ | ⟨-, -, hended⟩ | ⟨_, -, hfull, -⟩ | ⟨hserver, hclient⟩ | hserver :=
      server_of_stuck h
    · rw [hpc] at hconnect
      cases hconnect
    · have hshutDown : s.client.ShutDown := by rw [hpc]; trivial
      rw [hshut.mpr hshutDown] at hended
      cases hended
    · exact hfull hqueued
    · obtain ⟨lost, heq, hlost⟩ := hinv.response_eq
      rw [hlost hclient, hpc, hserver, hqueued] at heq
      exact hresponse heq.symm
    · exact (hpc ▸ hgone hserver : ClientPc.read.Exited)
  · obtain ⟨-, hconnect⟩ | ⟨-, -, hended⟩ | ⟨_, -, -, hclient⟩ | ⟨-, hclient⟩ | hserver :=
      server_of_stuck h
    · rw [hconnect] at hexited
      cases hexited
    · have hshutDown : s.client.ShutDown := by
        cases hpc : s.client <;> simp_all [ClientPc.Exited, ClientPc.ShutDown]
      rw [hshut.mpr hshutDown] at hended
      cases hended
    · exact absurd hexited hclient
    · exact absurd hexited hclient
    · exact ⟨hexited, hserver⟩

/-- A request can go through byte by byte. -/
theorem exists_run_request (c : Config) (left received : List UInt8) :
    ∃ as, (system c).run
        { init with client := .write left, server := .read, received := received } as =
      some { init with client := .write [], server := .read, received := received ++ left } := by
  induction left generalizing received with
  | nil => exact ⟨[], by rw [List.append_nil]; rfl⟩
  | cons byte rest ih =>
    obtain ⟨as, has⟩ := ih (received ++ [byte])
    rw [List.append_assoc, List.singleton_append] at has
    refine ⟨.client 1 :: .server 1 :: as, ?_⟩
    rw [run_cons (t := { init with
        client := .write rest
        server := .read
        up := ⟨[byte], false⟩
        received := received }), run_cons (t := { init with
        client := .write rest
        server := .read
        received := received ++ [byte] })]
    · exact has
    · simp [system, serverStep, SocketStream.AtEnd, SocketStream.recv, bufferSize, init,
        SocketStream.new]
    · have hroom := c.up_pos
      simp [system, clientStep, SocketStream.send, init, SocketStream.new, hroom]

/-- Without a response the client waits for the server and the server for the client. -/
theorem exists_stuck_of_response_eq_nil (hresponse : c.response = []) :
    ∃ s, (system c).Reachable s ∧ (system c).Stuck s ∧ ¬Finished s := by
  obtain ⟨as, has⟩ := exists_run_request c c.request []
  have hconnected : (system c).Reachable
      { init with client := .write c.request, server := .read } :=
    Reachable.next (Reachable.next .init (a := .client 0) rfl) (a := .server 0) rfl
  have hsent := hconnected.run has
  have hshut := (hsent.next (a := .client 0) rfl).next (a := .client 0) rfl
  have hended := (hshut.next (a := .server 0) rfl).next (a := .server 0) (by
    simp [system, serverStep, hresponse]
    rfl)
  refine ⟨_, hended, ?_, fun hfin => hfin.1⟩
  intro a
  cases a <;>
    simp [system, clientStep, serverStep, serverFails, SocketStream.AtEnd, SocketStream.recv, init,
      SocketStream.new, ClientPc.Exited]
  omega

/-- Every run ends after a bounded number of steps. Both processes have exited whenever a run cannot
go on, exactly when there is a response: without one the client waits in `read` and the server in
`wait_for_pid`. -/
theorem halfclose_completes_iff (c : Config) :
    (∀ s as, (system c).run init as = some s →
        as.length ≤ 2 * c.request.length + c.response.length + 9) ∧
      ((∀ s, (system c).Reachable s → (system c).Stuck s → Finished s) ↔ c.response ≠ []) := by
  refine ⟨fun s as hrun => ?_, fun h hnil => ?_, fun hresponse s => finished_of_stuck hresponse⟩
  · have hle := Reachable.length_run_le
      (fun s a s' _ (hs : (system c).step s a = some s') => rank_of_step hs) .init hrun
    have hrank : rank c init = 2 * c.request.length + c.response.length + 9 := by
      simp only [rank, init, ClientPc.rank, ServerPc.rank, SocketStream.new, List.length_nil]
      omega
    rw [← hrank]
    exact Nat.le_of_add_right_le hle
  · obtain ⟨s, hs, hstuck, hfin⟩ := exists_stuck_of_response_eq_nil hnil
    exact hfin (h s hs hstuck)

end Progress

end TcpShutdownHalfclose
