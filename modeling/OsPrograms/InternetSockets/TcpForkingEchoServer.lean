import Mathlib.Data.List.TakeWhile
import OsPrograms.Lib.AcceptLoop
import OsPrograms.Lib.SocketStream

/-!
# `tcp_forking_echo_server`

Clients connect, write a text each and close. The parent accepts one connection for every client
and forks a worker for it, which reads once and prints what it has read. `main` has two clients;
here there are `n`, with any texts that are not empty. All `fork` and `accept` calls succeed.

A worker may exit before its client has written everything. The client's `write` then fails with
an error, which `connect_client` does not look at, or with `SIGPIPE`.

## Main results

- `echo_correct`: every worker prints a beginning of the text of its own client, at least one
  character and never more than fits its buffer.
- `echo_complete`: every run is finite, and at its end the parent has left its loop, all clients
  have ended and each connection has had a worker that has printed: `reap_all_children` returns.
-/

namespace TcpForkingEchoServer

open AcceptLoop TransitionSystem

/-- `sizeof(buffer) - 1` in the worker. -/
def bufferMax : ℕ := 63

/-- `"tcp worker echo: "` -/
def label : List Char :=
  ['t', 'c', 'p', ' ', 'w', 'o', 'r', 'k', 'e', 'r', ' ', 'e', 'c', 'h', 'o', ':', ' ']

/-- The text of a client, `"alpha\n"` or `"beta\n"`. -/
structure Message where
  text : List Char
  nulFree : '\x00' ∉ text
  nonempty : text ≠ []

/-- `connect_client`: the next statement after `connect`. -/
inductive ClientPc
  /-- `write_all`, which has `left` bytes to write. -/
  | write (left : List Char)
  /-- `xclose(fd)` -/
  | close
  /-- The process is gone. -/
  | exited
  deriving DecidableEq, Repr

/-- A worker: the next statement. -/
inductive WorkerPc
  /-- `read(client, buffer, sizeof(buffer) - 1)` -/
  | read
  /-- `buffer[n] = '\0'` and `printf`, where `buffer` begins with `data`. -/
  | print (data : List Char)
  /-- After `_exit(0)`, having printed `output`. -/
  | exited (output : List Char)
  deriving DecidableEq, Repr

structure Talk where
  client : ClientPc
  worker : WorkerPc
  /-- From the client to the worker. -/
  up : SocketStream Char

/-- A step of a client or a worker. `k` is the number of bytes that the kernel moves. -/
inductive Act
  | client (k : ℕ)
  /-- The client's `write` fails. -/
  | clientFails (killed : Bool)
  | worker (k : ℕ)

def WorkerPc.Exited : WorkerPc → Prop
  | .exited _ => True
  | .read | .print _ => False

instance : DecidablePred WorkerPc.Exited
  | .exited _ => .isTrue trivial
  | .read | .print _ => .isFalse id

/-- Neither the parent nor the worker has the connection open any more. -/
def HungUp (phase : Phase) (t : Talk) : Prop :=
  phase = .handed ∧ t.worker.Exited

instance (phase : Phase) (t : Talk) : Decidable (HungUp phase t) :=
  inferInstanceAs (Decidable (_ ∧ _))

/-- `connect_client` on an open connection. -/
def clientStep (capacity : ℕ) (phase : Phase) (t : Talk) (k : ℕ) : Option Talk :=
  match t.client with
  | .write [] => some { t with client := .close }
  | .write left =>
    if HungUp phase t then
      none
    else
      (t.up.send capacity k left).map fun r => { t with client := .write r.2, up := r.1 }
  | .close => some { t with client := .exited, up := t.up.shutdown }
  | .exited => none

/-- The client's `write` with the worker gone. -/
def clientFails (phase : Phase) (t : Talk) (killed : Bool) : Option Talk :=
  match t.client with
  | .write (_ :: _) =>
    if HungUp phase t then
      some (if killed then { t with client := .exited, up := t.up.shutdown }
        else { t with client := .close })
    else
      none
  | _ => none

/-- The worker. -/
def workerStep (t : Talk) (k : ℕ) : Option Talk :=
  match t.worker with
  | .read =>
    if t.up.AtEnd then
      some { t with worker := .print [] }
    else
      (t.up.recv bufferMax k).map fun r => { t with worker := .print r.1, up := r.2 }
  | .print data => some { t with worker := .exited (label ++ data.takeWhile (· ≠ '\x00')) }
  | .exited _ => none

/-- The steps of client and worker in each phase of the connection. -/
def own (capacity : ℕ) (phase : Phase) (t : Talk) : Act → Option Talk
  | .client k => if phase = .fresh then none else clientStep capacity phase t k
  | .clientFails killed => clientFails phase t killed
  | .worker k => if phase = .shared ∨ phase = .handed then workerStep t k else none

/-- A conversation before it begins. -/
def Message.start (message : Message) : Talk where
  client := .write message.text
  worker := .read
  up := .new

/-- The parent, with a listen queue of `queueSize` connections and a client for each message. -/
def echo (capacity queueSize : ℕ) {n : ℕ} (messages : Fin n → Message) :
    Config (Fin n) Talk Act where
  own := own capacity
  data i := (messages i).start
  limit := some n
  queueSize := queueSize
  mayFail := false

/-! ## One connection -/

section Connection

variable {capacity : ℕ}

/-- The steps of client and worker, one by one. -/
inductive OwnStep (capacity : ℕ) (phase : Phase) (t : Talk) : Talk → Prop
  | written : t.client = .write [] → OwnStep capacity phase t { t with client := .close }
  | send {left rest up k} : ¬HungUp phase t → t.client = .write left →
      t.up.send capacity k left = some (up, rest) →
      OwnStep capacity phase t { t with client := .write rest, up := up }
  | close : t.client = .close →
      OwnStep capacity phase t { t with client := .exited, up := t.up.shutdown }
  | sigpipe {left} : HungUp phase t → t.client = .write left →
      OwnStep capacity phase t { t with client := .exited, up := t.up.shutdown }
  | writeError {left} : HungUp phase t → t.client = .write left →
      OwnStep capacity phase t { t with client := .close }
  | endOfFile : phase = .shared ∨ phase = .handed → t.worker = .read → t.up.AtEnd →
      OwnStep capacity phase t { t with worker := .print [] }
  | recv {data up k} : phase = .shared ∨ phase = .handed → t.worker = .read →
      t.up.recv bufferMax k = some (data, up) →
      OwnStep capacity phase t { t with worker := .print data, up := up }
  | print {data} : phase = .shared ∨ phase = .handed → t.worker = .print data →
      OwnStep capacity phase t
        { t with worker := .exited (label ++ data.takeWhile (· ≠ '\x00')) }

variable {phase : Phase} {t t' : Talk}

/-- A step of the client or of its worker, with what it needs and what it changes. -/
theorem ownStep_of_own {a : Act} (h : own capacity phase t a = some t') :
    OwnStep capacity phase t t' := by
  cases a with
  | client k =>
    simp only [own, Option.ite_none_left_eq_some] at h
    obtain ⟨-, h⟩ := h
    unfold clientStep at h
    split at h
    next hpc =>
      obtain rfl := Option.some.inj h
      exact .written hpc
    next left _ hpc =>
      simp only [Option.ite_none_left_eq_some, Option.map_eq_some_iff] at h
      obtain ⟨hup, ⟨up, rest⟩, hsend, rfl⟩ := h
      exact .send hup hpc hsend
    next hpc =>
      obtain rfl := Option.some.inj h
      exact .close hpc
    next => cases h
  | clientFails killed =>
    simp only [own, clientFails] at h
    split at h
    next hpc =>
      simp only [Option.ite_none_right_eq_some, Option.some.injEq] at h
      obtain ⟨hup, rfl⟩ := h
      cases killed with
      | true => exact .sigpipe hup hpc
      | false => exact .writeError hup hpc
    next => cases h
  | worker k =>
    simp only [own, Option.ite_none_right_eq_some] at h
    obtain ⟨hphase, h⟩ := h
    unfold workerStep at h
    split at h
    next hpc =>
      split at h
      -- `read` returns 0, and the worker prints an empty text
      next hend =>
        obtain rfl := Option.some.inj h
        exact .endOfFile hphase hpc hend
      next =>
        obtain ⟨⟨data, up⟩, hrecv, rfl⟩ := Option.map_eq_some_iff.mp h
        exact .recv hphase hpc hrecv
    next data hpc =>
      obtain rfl := Option.some.inj h
      exact .print hphase hpc
    next => cases h

/-- What the client still has to write. -/
def ClientPc.left : ClientPc → List Char
  | .write left => left
  | .close | .exited => []

/-- The worker has printed `data`, or is about to. -/
def WorkerPc.Got (data : List Char) : WorkerPc → Prop
  | .read => data = []
  | .print data' => data' = data ∧ data ≠ []
  | .exited output => output = label ++ data ∧ data ≠ []

/-- The text is where the program counters say, in its order. -/
structure Inv (message : Message) (phase : Phase) (t : Talk) : Prop where
  /-- `data` has been read; `lost` is what a failed `write` has left. -/
  upward : ∃ data lost, data ++ t.up.queued ++ t.client.left ++ lost = message.text ∧
    t.worker.Got data ∧ data.length ≤ bufferMax ∧ (¬HungUp phase t → lost = [])
  ended_iff : t.up.ended = true ↔ t.client = .exited
  unstarted : phase ≠ .shared → phase ≠ .handed → t.worker = .read

variable {message : Message}

theorem Inv.start (message : Message) : Inv message .fresh message.start where
  upward := ⟨[], [], by simp [Message.start, SocketStream.new, ClientPc.left], rfl, Nat.zero_le _,
    fun _ => rfl⟩
  ended_iff := by simp [Message.start, SocketStream.new]
  unstarted _ _ := rfl

/-- A move of the server starts or hands over a worker, and leaves the text alone. -/
theorem Inv.move {m : Move} {phase' : Phase} (h : Inv message phase t)
    (hm : phase.move m = some phase') : Inv message phase' t := by
  -- no move leads away from a connection that has hung up
  have hphase : phase ≠ .handed := by
    rintro rfl
    cases m <;> cases hm
  have hstarted : phase = .shared → phase' = .handed := by
    rintro rfl
    cases m <;> cases hm
    rfl
  obtain ⟨data, lost, htext, hgot, hle, hlost⟩ := h.upward
  refine ⟨⟨data, lost, htext, hgot, hle, fun _ => hlost fun hup => hphase hup.1⟩, h.ended_iff, ?_⟩
  intro _ hhanded
  exact h.unstarted (fun hs => hhanded (hstarted hs)) hphase

/-- The text goes from the client through the socket to its worker, in order. -/
theorem Inv.own {a : Act} (h : Inv message phase t) (hs : own capacity phase t a = some t') :
    Inv message phase t' := by
  obtain ⟨data, lost, htext, hgot, hle, hlost⟩ := h.upward
  have hended := h.ended_iff
  -- while the worker has not exited, nothing of the text is lost
  have hrunning : ¬t.worker.Exited → lost = [] := fun hw => hlost fun hup => hw hup.2
  have hstarted : phase = .shared ∨ phase = .handed → phase ≠ .shared → phase ≠ .handed → False :=
    fun hphase hs hh => hphase.elim hs hh
  cases ownStep_of_own hs with
  | written hpc =>
    rw [hpc] at htext
    exact ⟨⟨data, lost, htext, hgot, hle, hlost⟩, by simpa [hpc] using hended, h.unstarted⟩
  | send hup hpc hsend =>
    obtain ⟨-, hqueued, -, hsame⟩ := SocketStream.spec_of_send hsend
    rw [hpc] at htext
    refine ⟨⟨data, lost, ?_, hgot, hle, hlost⟩, ?_, h.unstarted⟩
    · simpa only [ClientPc.left, List.append_assoc, ← hqueued] using htext
    · simpa [hpc, hsame] using hended
  | close hpc =>
    rw [hpc] at htext
    exact ⟨⟨data, lost, htext, hgot, hle, hlost⟩, by simp, h.unstarted⟩
  | sigpipe hup hpc =>
    refine ⟨⟨data, t.client.left ++ lost, ?_, hgot, hle, fun hne => absurd hup hne⟩, by simp,
      h.unstarted⟩
    simpa [ClientPc.left] using htext
  | writeError hup hpc =>
    refine ⟨⟨data, t.client.left ++ lost, ?_, hgot, hle, fun hne => absurd hup hne⟩,
      by simpa [hpc] using hended, h.unstarted⟩
    simpa [ClientPc.left] using htext
  | endOfFile hphase hpc hend =>
    -- the client closes after its whole text, which is not empty
    rw [hpc] at hgot
    have hnil : lost = [] := hrunning (by simp [hpc, WorkerPc.Exited])
    rw [hgot, hend.1, hended.mp hend.2, hnil] at htext
    exact absurd htext.symm message.nonempty
  | recv hphase hpc hrecv =>
    obtain ⟨hne, hsize, hqueued, hsame⟩ := SocketStream.spec_of_recv hrecv
    rw [hpc] at hgot
    have hnil : lost = [] := hrunning (by simp [hpc, WorkerPc.Exited])
    refine ⟨⟨_, lost, ?_, ⟨rfl, hne⟩, hsize, fun _ => hnil⟩, ?_, ?_⟩
    · rw [hgot, List.nil_append, ← hqueued] at htext
      exact htext
    · exact hsame ▸ hended
    · exact fun hs hh => (hstarted hphase hs hh).elim
  | @print data' hphase hpc =>
    rw [hpc] at hgot
    obtain ⟨rfl, hne⟩ := hgot
    have hnil : lost = [] := hrunning (by simp [hpc, WorkerPc.Exited])
    -- `%s` prints all that has been read
    have htake : data'.takeWhile (· ≠ '\x00') = data' := by
      rw [List.takeWhile_eq_self_iff]
      intro ch hch
      refine decide_eq_true fun hzero => message.nulFree (hzero ▸ ?_)
      rw [← htext]
      simp only [List.mem_append]
      exact .inl (.inl (.inl hch))
    refine ⟨⟨data', lost, htext, ⟨by rw [htake], hne⟩, hle, fun _ => hnil⟩, hended, ?_⟩
    exact fun hs hh => (hstarted hphase hs hh).elim

/-- The invariant of one conversation, along every run of it. -/
theorem inv_of_reachable {conn : Conn Talk}
    (h : (one (TcpForkingEchoServer.own capacity) message.start).Reachable conn) :
    Inv message conn.phase conn.data := by
  refine h.invariant (P := fun conn => Inv message conn.phase conn.data) (Inv.start message) ?_
  intro conn event conn' hinv hs
  cases event with
  | move m =>
    obtain ⟨phase, hm, rfl⟩ := Option.map_eq_some_iff.mp hs
    exact hinv.move hm
  | own a =>
    obtain ⟨data, hown, rfl⟩ := Option.map_eq_some_iff.mp hs
    exact hinv.own hown

/-- When neither side of a connection can go on, the client is gone and the worker has printed. -/
theorem Inv.ended_of_stuck (h : Inv message .handed t) (hcapacity : 1 ≤ capacity)
    (hstuck : ∀ a, TcpForkingEchoServer.own capacity .handed t a = none) :
    t.client = .exited ∧ t.worker.Exited := by
  obtain ⟨data, lost, htext, hgot, hle, hlost⟩ := h.upward
  have hclient : ∀ k, clientStep capacity .handed t k = none := fun k => hstuck (.client k)
  have hworker : ∀ k, workerStep t k = none := fun k => hstuck (.worker k)
  have hexited : t.worker.Exited := by
    cases hpc : t.worker with
    | print data => simp [workerStep, hpc] at hworker
    | exited output => trivial
    | read =>
      exfalso
      have hstep := hworker 1
      have hup : ¬HungUp .handed t := by simp [HungUp, hpc, WorkerPc.Exited]
      have hend : ¬t.up.AtEnd := by
        intro hend
        simp [workerStep, hpc, hend] at hstep
      have hqueued : t.up.queued = [] := by
        by_contra hqueued
        have hrecv := SocketStream.isSome_recv_one (show 1 ≤ bufferMax by decide) hqueued
        simp only [workerStep, hpc, if_neg hend, Option.map_eq_none_iff] at hstep
        simp [hstep] at hrecv
      -- nothing has arrived, so the client has room to write
      cases hc : t.client with
      | write left =>
        cases left with
        | nil => simp [clientStep, hc] at hclient
        | cons ch rest =>
          have hroom : t.up.queued.length < capacity := by
            rw [hqueued]
            exact hcapacity
          have hsend := SocketStream.isSome_send_one (List.cons_ne_nil ch rest) hroom
          have hstep := hclient 1
          simp only [clientStep, hc, if_neg hup, Option.map_eq_none_iff] at hstep
          simp [hstep] at hsend
      | close => simp [clientStep, hc] at hclient
      | exited => exact hend ⟨hqueued, h.ended_iff.mpr hc⟩
  refine ⟨?_, hexited⟩
  cases hc : t.client with
  | write left =>
    cases left with
    | nil => simp [clientStep, hc] at hclient
    | cons ch rest =>
      have hfails := hstuck (.clientFails true)
      simp [TcpForkingEchoServer.own, clientFails, hc, HungUp, hexited] at hfails
  | close => simp [clientStep, hc] at hclient
  | exited => rfl

/-- The steps that a client can still make. -/
def ClientPc.rank : ClientPc → ℕ
  | .write left => left.length + 2
  | .close => 1
  | .exited => 0

/-- The steps that a worker can still make. -/
def WorkerPc.rank : WorkerPc → ℕ
  | .read => 2
  | .print _ => 1
  | .exited _ => 0

def Talk.rank (t : Talk) : ℕ :=
  t.client.rank + t.worker.rank

/-- Each write, read and print leaves less of the text to do. -/
theorem rank_own {a : Act} (hs : own capacity phase t a = some t') : t'.rank < t.rank := by
  cases ownStep_of_own hs with
  | written hpc | close hpc | sigpipe _ hpc | writeError _ hpc =>
    simp only [Talk.rank, hpc, ClientPc.rank, List.length_nil]
    omega
  | send _ hpc hsend =>
    have hlt := (SocketStream.spec_of_send hsend).1
    simp only [Talk.rank, hpc, ClientPc.rank]
    omega
  | endOfFile _ hpc | recv _ hpc | print _ hpc =>
    simp only [Talk.rank, hpc, WorkerPc.rank]
    omega

end Connection

/-! ## All connections -/

section Echo

variable {capacity queueSize n : ℕ} {messages : Fin n → Message} {s : State (Fin n) Talk}

/-- What a worker prints is a beginning of the text of its own client. -/
theorem echo_correct (hs : (loop (echo capacity queueSize messages)).Reachable s) (i : Fin n)
    {output : List Char} (hworker : (s.conn i).data.worker = .exited output) :
    ∃ data, output = label ++ data ∧ data ≠ [] ∧ data <+: (messages i).text ∧
      data.length ≤ bufferMax := by
  have hinv := inv_of_reachable (reachable_conn hs i)
  obtain ⟨data, lost, htext, hgot, hle, -⟩ := hinv.upward
  rw [hworker] at hgot
  refine ⟨data, hgot.1, hgot.2, ?_, hle⟩
  rw [← htext]
  simp only [List.append_assoc]
  exact List.prefix_append _ _

end Echo

/-- The two clients of `main`. -/
def alphaBeta (i : Fin 2) : Message where
  text := if i = 0 then ['a', 'l', 'p', 'h', 'a', '\n'] else ['b', 'e', 't', 'a', '\n']
  nulFree := by revert i; decide
  nonempty := by revert i; decide

/-- The worker of the second client reads two characters at once. -/
theorem echo_correct_beta :
    ∃ s, (loop (echo 4 1 alphaBeta)).Reachable s ∧
      (s.conn 1).data.worker = .exited (label ++ ['b', 'e']) ∧
      ['b', 'e'] <+: (alphaBeta 1).text := by
  have hrun : ((loop (echo 4 1 alphaBeta)).run (init (echo 4 1 alphaBeta))
      [.connect 1, .own 1 (.client 4), .accept, .connect 0, .fork, .own 1 (.worker 2), .close,
        .own 1 (.worker 0)]).map (fun s => (s.conn 1).data.worker) =
      some (.exited (label ++ ['b', 'e'])) := by decide
  obtain ⟨s, hs, hworker⟩ := Option.map_eq_some_iff.mp hrun
  have hreach : (loop (echo 4 1 alphaBeta)).Reachable s := reachable_of_run hs
  obtain ⟨data, houtput, -, hprefix, -⟩ := echo_correct hreach 1 hworker
  exact ⟨s, hreach, hworker, List.append_cancel_left houtput ▸ hprefix⟩

section Complete

variable {capacity queueSize n : ℕ} {messages : Fin n → Message}

/-- A run has a bounded number of steps, and it can go on until the parent has left its loop, all
clients have ended and every connection has had a worker that has printed. -/
theorem echo_complete (hcapacity : 1 ≤ capacity) (hqueue : 1 ≤ queueSize) :
    (∀ as s, (loop (echo capacity queueSize messages)).run
        (init (echo capacity queueSize messages)) as = some s →
        as.length ≤ ∑ i, ((messages i).text.length + 8) + 1) ∧
      ∀ s, (loop (echo capacity queueSize messages)).Reachable s →
        (loop (echo capacity queueSize messages)).Stuck s →
        s.pc = .left ∧ ∀ i, (s.conn i).phase = .handed ∧ (s.conn i).data.client = .exited ∧
          (s.conn i).data.worker.Exited := by
  constructor
  · intro as s hrun
    have hle := AcceptLoop.length_run_le Talk.rank (fun _ _ _ _ _ hown => rank_own hown) hrun
    refine hle.trans (Nat.add_le_add_right (Finset.sum_le_sum fun i _ => ?_) 1)
    simp only [echo, Message.start, Talk.rank, ClientPc.rank, WorkerPc.rank]
    omega
  · intro s hs hstuck
    have hlimit : (echo capacity queueSize messages).limit = some (Fintype.card (Fin n)) := by
      rw [Fintype.card_fin]
      rfl
    have hle : ∀ m, (echo capacity queueSize messages).limit = some m → Fintype.card (Fin n) ≤ m :=
      fun m hm => (Option.some.inj (hlimit.symm.trans hm)).le
    have hleft := left_of_stuck hqueue hlimit rfl hs hstuck
    refine ⟨hleft, fun i => ?_⟩
    have hown := (settled_of_idle hqueue hle hs (idle_of_stuck hstuck) i).2
    have hhanded := handed_of_idle hqueue hle hs (idle_of_stuck hstuck) (by simp [hleft]) i
    have hone := inv_of_reachable (reachable_conn hs i)
    rw [hhanded] at hone hown
    exact ⟨hhanded, hone.ended_of_stuck hcapacity hown⟩

end Complete

/-- The two clients with their workers and the parent: a run of 27 steps, and no run of more
than 28. -/
theorem echo_complete_alpha_beta :
    (∃ as s, (loop (echo 6 1 alphaBeta)).run (init (echo 6 1 alphaBeta)) as = some s ∧
        as.length = 27) ∧
      ∀ as s, (loop (echo 6 1 alphaBeta)).run (init (echo 6 1 alphaBeta)) as = some s →
        as.length ≤ 28 := by
  let serve (i : Fin 2) : List (Action (Fin 2) Act) :=
    [.own i (.client 0), .own i (.client 0), .accept, .fork, .close, .own i (.worker 1),
      .own i (.worker 0)]
  have hrun : ((loop (echo 6 1 alphaBeta)).run (init (echo 6 1 alphaBeta))
      (.connect 0 :: List.replicate 6 (.own 0 (.client 1)) ++ serve 0 ++
        .connect 1 :: List.replicate 5 (.own 1 (.client 1)) ++ serve 1)).isSome := by decide
  obtain ⟨s, hs⟩ := Option.isSome_iff_exists.mp hrun
  refine ⟨⟨_, s, hs, rfl⟩, fun as s hrun => ?_⟩
  exact ((echo_complete (by decide) (Nat.le_refl 1)).1 as s hrun).trans (by decide)

end TcpForkingEchoServer
