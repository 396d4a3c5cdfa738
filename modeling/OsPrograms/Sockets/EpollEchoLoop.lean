import Mathlib.Data.Fintype.Card
import OsPrograms.Lib.ProcessTable
import OsPrograms.Sockets.EpollUnixEcho

/-!
# The event loop handles what it was told (`epoll_unix_echo`)

The loop of `EpollUnixEcho` goes through a batch of events while it closes descriptors and accepts
new ones. The events of a batch are about different descriptors, and a descriptor is closed only by
the handler of its own event. So the numbers that are used again within a batch are those of events
that have been handled.

## Main results

- `Batch`: the events that are still to be handled refer to the files they were raised for, which
  are still ready.
- `clients_echoed`: no stray handler, nothing is read or closed twice, and when the loop ends, every
  connection has been read and closed, and every message printed.
-/

namespace EpollUnixEcho

open Printf

/-! ## The events of a batch -/

/-- The events of a batch are about different descriptors, which refer to the files they were raised
for; these are ready. -/
structure Batch {n : ℕ} (s : State n) (events : List (Event n)) : Prop where
  nodup : (events.map (·.fd)).Nodup
  entry : ∀ e ∈ events, s.table.entry e.fd = some e.file
  ready : ∀ e ∈ events, s.Ready e.file

section Events

variable {n : ℕ} {s s' : State n} {e : Event n} {events : List (Event n)}

/-- What keeps a file ready. -/
theorem State.Ready.mono {file : File n} (h : s.Ready file)
    (hserver : file = .server → s.backlog ≠ [] → s'.backlog ≠ [])
    (hinbox : ∀ i, file = .conn i → s.inbox i ≠ [] → s'.inbox i ≠ [])
    (hclient : ∀ i, file = .conn i → s.client i = .exited → s'.client i = .exited) :
    s'.Ready file := by
  cases file with
  | server => exact hserver rfl h
  | conn i => exact h.imp (hinbox i rfl) (hclient i rfl)
  | inherited | epoll => exact h.elim

theorem Batch.nil : Batch s [] :=
  ⟨List.nodup_nil, nofun, nofun⟩

/-- A step after which the descriptors of the batch refer to what they did, and are still ready. -/
theorem Batch.mono (h : Batch s events)
    (hentry : ∀ e ∈ events, s.table.entry e.fd = some e.file → s'.table.entry e.fd = some e.file)
    (hready : ∀ e ∈ events, s.table.entry e.fd = some e.file → s.Ready e.file → s'.Ready e.file) :
    Batch s' events where
  nodup := h.nodup
  entry e he := hentry e he (h.entry e he)
  ready e he := hready e he (h.entry e he) (h.ready e he)

/-- The events that are left are still as they were reported. -/
theorem Batch.tail (h : Batch s (e :: events)) : Batch s events where
  nodup := (List.nodup_cons.mp h.nodup).2
  entry e' he' := h.entry e' (List.mem_cons_of_mem e he')
  ready e' he' := h.ready e' (List.mem_cons_of_mem e he')

/-- The descriptor of an event does not occur again. -/
theorem Batch.head_ne (h : Batch s (e :: events)) {e' : Event n} (he' : e' ∈ events) :
    e'.fd ≠ e.fd := by
  intro hfd
  exact (List.nodup_cons.mp h.nodup).1 (List.mem_map.mpr ⟨e', he', hfd⟩)

end Events

/-! ## The invariant -/

/-- The invariant of all runs. -/
structure Inv (c : Config) (s : State c.n) : Prop where
  stage : ∀ i, ∃ st, At s i st
  backlog_nodup : s.backlog.Nodup
  reads_nodup : s.reads.Nodup
  closes_nodup : s.closes.Nodup
  server : ∀ k, s.table.entry k = some .server ↔ k = serverFd c
  batch : Batch s s.batch
  xclose : ∀ e, s.pc = .xclose e → (∃ i, e.file = .conn i) ∧ ∀ e' ∈ s.batch, e'.fd ≠ e.fd
  replies : s.replies = s.reads.length
  printed : s.printed = s.reads.map fun i => echo (message i)
  finished : s.pc = .finished → c.n ≤ s.replies
  not_stray : s.pc ≠ .stray

section Steps

variable {c : Config} {s s' : State c.n}

/-- Between two events no connection is about to be closed. -/
theorem next_ne_xclose (batch : List (Event c.n)) (replies : ℕ) (e : Event c.n) :
    next c batch replies ≠ .xclose e := by
  unfold next
  split
  · split <;> exact nofun
  · exact nofun

/-- The server does not go on with an event that it does not know. -/
theorem next_ne_stray (batch : List (Event c.n)) (replies : ℕ) :
    next c batch replies ≠ .stray := by
  unfold next
  split
  · split <;> exact nofun
  · exact nofun

/-- The loop ends when there are enough replies. -/
theorem le_of_next_eq_finished (batch : List (Event c.n)) (replies : ℕ)
    (h : next c batch replies = .finished) : c.n ≤ replies := by
  unfold next at h
  split at h
  · split at h
    · cases h
    · exact Nat.le_of_not_lt ‹_›
  · cases h

/-- The two tables before the loop have `server` at its number and no connection. -/
theorem entry_socketTable (k : ℕ) :
    ((socketTable c).entry k = some .server ↔ k = serverFd c) ∧
      ∀ i, (socketTable c).entry k ≠ some (.conn i) := by
  rw [socketTable, Descriptors.entry_set]
  split
  · next hk => simp [hk]
  · next hk =>
    simp only [inheritedTable, Descriptors.ofFinset]
    split <;> simp [hk]

/-- At the start the table has the listening socket and no connection. -/
theorem entry_init (k : ℕ) :
    ((init c).table.entry k = some .server ↔ k = serverFd c) ∧
      ∀ i, (init c).table.entry k ≠ some (.conn i) := by
  simp only [init]
  rw [Descriptors.entry_set]
  split
  · next hk =>
    -- `ep` got a number that was free, so not that of `server`
    have hne : k ≠ serverFd c := by
      intro hserver
      have hfree := (socketTable c).lowestFree_spec
      rw [← hk, (entry_socketTable k).1.mpr hserver] at hfree
      cases hfree
    simp [hne]
  · exact entry_socketTable k

theorem Inv.init : Inv c (init c) where
  stage i := by
    refine ⟨.fresh, by simp [EpollUnixEcho.init], by simp [EpollUnixEcho.init], fun k => ?_,
      by simp [EpollUnixEcho.init], by simp [EpollUnixEcho.init], fun k => ?_,
      by simp [EpollUnixEcho.init]⟩
    · exact iff_of_false ((entry_init k).2 i) (by simp)
    · exact iff_of_false (next_ne_xclose (c := c) [] 0 _) nofun
  backlog_nodup := List.nodup_nil
  reads_nodup := List.nodup_nil
  closes_nodup := List.nodup_nil
  server k := (entry_init k).1
  batch := .nil
  xclose e h := absurd h (next_ne_xclose (c := c) [] 0 e)
  replies := rfl
  printed := rfl
  finished := le_of_next_eq_finished (c := c) [] 0
  not_stray := next_ne_stray (c := c) [] 0

/-- A step of a client leaves alone what the server has. -/
theorem Inv.of_client {client : Fin c.n → ClientPc} {inbox : Fin c.n → List Char}
    {backlog : List (Fin c.n)} (h : Inv c s)
    (hstage : ∀ i, ∃ st, At { s with client := client, inbox := inbox, backlog := backlog } i st)
    (hnodup : backlog.Nodup) (hbacklog : s.backlog ≠ [] → backlog ≠ [])
    (hinbox : ∀ i, s.inbox i ≠ [] → inbox i ≠ [])
    (hclient : ∀ i, s.client i = .exited → client i = .exited) :
    Inv c { s with client := client, inbox := inbox, backlog := backlog } where
  stage := hstage
  backlog_nodup := hnodup
  reads_nodup := h.reads_nodup
  closes_nodup := h.closes_nodup
  server := h.server
  batch := h.batch.mono (fun _ _ => id) fun _ _ _ hready =>
    hready.mono (fun _ => hbacklog) (fun i _ => hinbox i) fun i _ => hclient i
  xclose := h.xclose
  replies := h.replies
  printed := h.printed
  finished := h.finished
  not_stray := h.not_stray

/-- Clients that have exited stay so when another one goes on. -/
theorem exited_update {client : Fin c.n → ClientPc} {i : Fin c.n} {pc : ClientPc}
    (hi : client i ≠ .exited) (j : Fin c.n) (hj : client j = .exited) :
    Function.update client i pc j = .exited := by
  have hji : j ≠ i := by
    rintro rfl
    exact hi hj
  rw [Function.update_of_ne hji]
  exact hj

/-- A client connects, writes its message and exits. -/
theorem Inv.of_clientStep {i : Fin c.n} (h : Inv c s) (hs : clientStep s i = some s') :
    Inv c s' := by
  unfold clientStep at hs
  cases hpc : s.client i <;> simp only [hpc, reduceCtorEq] at hs
  case connect =>
    split at hs <;> simp only [reduceCtorEq, Option.some.injEq] at hs
    subst hs
    obtain ⟨st, hi⟩ := h.stage i
    obtain rfl : st = .fresh := hi.connect.mp hpc
    have hqueued : i ∉ s.backlog := by simp [hi.backlog]
    exact h.of_client (exists_at_connect h.stage hi)
      (h.backlog_nodup.append_singleton hqueued) (fun _ => by simp) (fun _ => id)
      (exited_update (by simp [hpc]))
  case write =>
    obtain rfl := Option.some.inj hs
    refine h.of_client (exists_at_write h.stage hpc (sent_eq i)) h.backlog_nodup id (fun j hj => ?_)
      (exited_update (by simp [hpc]))
    rw [Function.update_apply]
    split
    · simp [sent_eq, message_ne_nil]
    · exact hj
  case exit =>
    obtain rfl := Option.some.inj hs
    exact h.of_client (exists_at_exit h.stage hpc) h.backlog_nodup id (fun _ => id)
      (exited_update (by simp [hpc]))

/-- A step of the server between two handlers. -/
theorem Inv.of_pc (h : Inv c s) (interest : Finset ℕ) {batch : List (Event c.n)} (pc : ServerPc c.n)
    (hbatch : Batch s batch) (hfinished : pc = .finished → c.n ≤ s.replies)
    (hstray : pc ≠ .stray) (hpc : ∀ e, s.pc ≠ .xclose e) (hpc' : ∀ e, pc ≠ .xclose e) :
    Inv c { s with interest := interest, batch := batch, pc := pc } where
  stage i := by
    obtain ⟨st, hi⟩ := h.stage i
    exact ⟨st, hi.of_pc hpc hpc'⟩
  backlog_nodup := h.backlog_nodup
  reads_nodup := h.reads_nodup
  closes_nodup := h.closes_nodup
  server := h.server
  batch := hbatch.mono (fun _ _ => id) fun _ _ _ => id
  xclose e he := absurd he (hpc' e)
  replies := h.replies
  printed := h.printed
  finished := hfinished
  not_stray := hstray

/-- `accept4`, when no other event of the batch is on `server`. -/
theorem Inv.of_accept (h : Inv c s) (hpc : s.pc = .handle)
    (hothers : ∀ e ∈ s.batch, e.fd ≠ serverFd c) : Inv c (accept c s) := by
  have hclosing : ∀ e, s.pc ≠ .xclose e := by simp [hpc]
  unfold accept
  split
  · exact h.of_pc s.interest _ h.batch (le_of_next_eq_finished s.batch s.replies)
      (next_ne_stray s.batch s.replies) hclosing (next_ne_xclose s.batch s.replies)
  · next i backlog hbacklog =>
    have hfree := s.table.lowestFree_spec
    have hnodup : backlog.Nodup := by
      have := h.backlog_nodup
      rw [hbacklog] at this
      exact (List.nodup_cons.mp this).2
    -- the descriptor of the new connection is one that was not open
    have hopen : ∀ k file, s.table.entry k = some file → k ≠ s.table.lowestFree := by
      rintro k file hk rfl
      rw [hfree] at hk
      cases hk
    refine ⟨exists_at_accept h.stage hbacklog h.backlog_nodup hfree hclosing, hnodup,
      h.reads_nodup, h.closes_nodup, fun k => ?_, h.batch.mono ?_ ?_, nofun, h.replies, h.printed,
      nofun, nofun⟩
    · rw [Descriptors.entry_set, ← h.server]
      split
      · next hk => simp [hk, hfree]
      · rfl
    · -- the new connection takes no number away from the rest of the batch
      intro e he hentry
      rw [Descriptors.entry_set_of_ne (hopen _ _ hentry)]
      exact hentry
    · -- the backlog may be empty now, which would matter to another event on `server` only
      intro e he hentry hready
      refine hready.mono (fun hfile => ?_) (fun _ _ => id) fun _ _ => id
      rw [hfile, h.server] at hentry
      exact absurd hentry (hothers e he)

/-- `read` for an event on a connection. -/
theorem Inv.of_readConn {k : ℕ} {i : Fin c.n} (h : Inv c s) (hpc : s.pc = .handle)
    (hentry : s.table.entry k = some (.conn i)) (hready : s.Ready (.conn i))
    (hothers : ∀ e ∈ s.batch, e.fd ≠ k) : Inv c (readConn c s ⟨k, .conn i⟩ i) := by
  have hclosing : ∀ e, s.pc ≠ .xclose e := by simp [hpc]
  obtain ⟨st, hi⟩ := h.stage i
  -- the connection is open and has not been read
  obtain rfl : st = .opened k := by
    rcases (hi.table k).mp hentry with rfl | rfl
    · rfl
    · exact absurd ((hi.xclose k).mpr rfl) (hclosing _)
  have hunread : i ∉ s.reads := by simp [hi.reads]
  -- it is ready, so the client has written, and all that it writes
  have hinbox : s.inbox i = message i := by
    have hinbox := hi.inbox hunread
    split at hinbox
    · next hpc' =>
      rcases hready with hready | hready
      · exact absurd hinbox hready
      · simp [hready] at hpc'
    · exact hinbox
  have hdata : (s.inbox i).take 63 = message i := by
    rw [hinbox, List.take_of_length_le ((length_message_le i).trans (by decide))]
  simp only [readConn, hdata, if_neg (message_ne_nil i), cString_terminated (nul_notMem_message i)]
  refine ⟨exists_at_read h.stage hi hclosing, h.backlog_nodup,
    h.reads_nodup.append_singleton hunread, h.closes_nodup, h.server,
    h.batch.mono (fun _ _ => id) ?_, ?_, ?_, ?_, nofun, nofun⟩
  · -- the other events are about other connections, which have not been touched
    intro e he hentry' hready'
    refine hready'.mono (fun _ => id) (fun j hfile hj => ?_) fun _ _ => id
    have hji : j ≠ i := by
      rintro rfl
      rw [hfile] at hentry'
      rcases (hi.table e.fd).mp hentry' with hk | hk
      · exact hothers e he (Stage.opened.inj hk).symm
      · cases hk
    simpa [hji] using hj
  · rintro e he
    obtain rfl := ServerPc.xclose.inj he
    exact ⟨⟨i, rfl⟩, hothers⟩
  · simp [h.replies]
  · simp [h.printed]

/-- `xclose` for an event on a connection. -/
theorem Inv.of_close {e : Event c.n} (h : Inv c s) (hpc : s.pc = .xclose e) :
    Inv c (close c s e) := by
  obtain ⟨k, file⟩ := e
  obtain ⟨⟨i, hfile⟩, hothers⟩ := h.xclose _ hpc
  obtain rfl : file = .conn i := hfile
  obtain ⟨st, hi⟩ := h.stage i
  obtain rfl : st = .read k := (hi.xclose k).mp hpc
  have hentry : s.table.entry k = some (.conn i) := (hi.table k).mpr (.inr rfl)
  have hopen : i ∉ s.closes := by simp [hi.closes]
  simp only [close, hentry, if_true]
  refine ⟨exists_at_close h.stage hpc (next_ne_xclose s.batch s.replies), h.backlog_nodup,
    h.reads_nodup, h.closes_nodup.append_singleton hopen, fun l => ?_,
    h.batch.mono ?_ fun _ _ _ hready => hready.mono (fun _ => id) (fun _ _ => id) fun _ _ => id,
    fun e he => absurd he (next_ne_xclose s.batch s.replies e), h.replies, h.printed,
    le_of_next_eq_finished s.batch s.replies, next_ne_stray s.batch s.replies⟩
  · rw [Descriptors.entry_set, ← h.server]
    split
    · next hl => simp [hl, hentry]
    · rfl
  · intro e he hentry'
    rw [Descriptors.entry_set_of_ne (hothers e he)]
    exact hentry'

/-- The handler of an event of the batch. -/
theorem Inv.of_handle {e : Event c.n} {rest : List (Event c.n)} (h : Inv c s)
    (hpc : s.pc = .handle) (hbatch : s.batch = e :: rest) :
    Inv c (handle c { s with batch := rest } e) := by
  have hevents := h.batch
  rw [hbatch] at hevents
  have hentry := hevents.entry e List.mem_cons_self
  have hready := hevents.ready e List.mem_cons_self
  have hrest : Inv c { s with batch := rest } :=
    h.of_pc s.interest s.pc hevents.tail (by simp [hpc]) (by simp [hpc]) (by simp [hpc])
      (by simp [hpc])
  obtain ⟨k, file⟩ := e
  simp only [handle, hentry, if_true]
  split
  · next hserver =>
    refine hrest.of_accept hpc fun e he => ?_
    rw [← hserver]
    exact hevents.head_ne he
  · next hserver =>
    -- only the listening socket and connections are ever ready
    cases file with
    | conn i => exact hrest.of_readConn hpc hentry hready fun e he => hevents.head_ne he
    | server => exact absurd ((h.server k).mp hentry) hserver
    | inherited => exact hready.elim
    | epoll => exact hready.elim

/-- The server accepts, reads and closes, each event once. -/
theorem Inv.of_serverStep (h : Inv c s) (hs : serverStep c s = some s') : Inv c s' := by
  unfold serverStep at hs
  cases hpc : s.pc <;> simp only [hpc, reduceCtorEq, Option.some.injEq] at hs
  case handle =>
    cases hbatch : s.batch <;> simp only [hbatch, reduceCtorEq, Option.some.injEq] at hs
    subst hs
    exact h.of_handle hpc hbatch
  case epollCtl client =>
    subst hs
    exact h.of_pc _ _ h.batch (le_of_next_eq_finished s.batch s.replies)
      (next_ne_stray s.batch s.replies) (by simp [hpc]) (next_ne_xclose s.batch s.replies)
  case xclose e =>
    subst hs
    exact h.of_close hpc

/-- `epoll_wait` reports descriptors that are ready, each once. -/
theorem Inv.of_epollWait {events : List (Event c.n)} (h : Inv c s) (hpc : s.pc = .epollWait)
    (hreports : s.Reports events) : Inv c { s with batch := events, pc := .handle } := by
  obtain ⟨-, -, hnodup, hready⟩ := hreports
  refine h.of_pc s.interest .handle ⟨hnodup, ?_, ?_⟩ nofun nofun (by simp [hpc]) nofun
  · exact fun e he => (hready e he).2.1
  · exact fun e he => (hready e he).2.2

/-- The invariant holds along every run. -/
theorem inv_of_reachable (h : (system c).Reachable s) : Inv c s := by
  refine h.invariant Inv.init fun s a s' hinv hstep => ?_
  cases a with
  | client i => exact hinv.of_clientStep hstep
  | epollWait events =>
    simp only [system, Option.ite_none_right_eq_some, Option.some.injEq] at hstep
    obtain ⟨⟨hpc, hreports⟩, rfl⟩ := hstep
    exact hinv.of_epollWait hpc hreports
  | timeout =>
    simp only [system, Option.ite_none_right_eq_some, Option.some.injEq] at hstep
    obtain ⟨hpc, rfl⟩ := hstep
    exact hinv.of_pc s.interest .died hinv.batch nofun nofun (by simp [hpc]) nofun
  | server => exact hinv.of_serverStep hstep

end Steps

/-! ## What the loop guarantees -/

/-- What holds in a state of a run. -/
structure Correct (c : Config) (s : State c.n) : Prop where
  /-- The descriptor of the event that is handled next refers to the file it was raised for. -/
  handles : s.pc = .handle → ∀ e rest, s.batch = e :: rest → s.table.entry e.fd = some e.file
  /-- So does the descriptor that is closed next. -/
  closes : ∀ e, s.pc = .xclose e → s.table.entry e.fd = some e.file
  not_stray : s.pc ≠ .stray
  /-- No connection is read twice. -/
  reads_nodup : s.reads.Nodup
  /-- No connection is closed twice. -/
  closes_nodup : s.closes.Nodup
  /-- After the loop, every connection has been read and closed, once, and every message printed,
  once. -/
  finished : s.pc = .finished →
    s.reads.Perm (List.finRange c.n) ∧ s.closes.Perm (List.finRange c.n) ∧
      s.printed.Perm ((List.finRange c.n).map fun i => echo (message i)) ∧ s.printed.Nodup

section Results

variable {c : Config} {s : State c.n}

/-- When `n` connections have been read, all have. -/
theorem mem_of_nodup_of_le_length {n : ℕ} {l : List (Fin n)} (hnodup : l.Nodup)
    (hlength : n ≤ l.length) (i : Fin n) : i ∈ l := by
  have hcard : l.toFinset.card = Fintype.card (Fin n) := by
    refine le_antisymm (Finset.card_le_univ _) ?_
    rw [Fintype.card_fin, List.toFinset_card_of_nodup hnodup]
    exact hlength
  rw [← List.mem_toFinset, (Finset.card_eq_iff_eq_univ _).mp hcard]
  exact Finset.mem_univ i

/-- When the loop is through, each client has been read, closed and printed once. -/
theorem Inv.finished_perm (h : Inv c s) (hpc : s.pc = .finished) :
    s.reads.Perm (List.finRange c.n) ∧ s.closes.Perm (List.finRange c.n) ∧
      s.printed.Perm ((List.finRange c.n).map fun i => echo (message i)) ∧
      s.printed.Nodup := by
  have hlength : c.n ≤ s.reads.length := h.replies ▸ h.finished hpc
  have hread := mem_of_nodup_of_le_length h.reads_nodup hlength
  have hreads := h.reads_nodup.perm_finRange hread
  refine ⟨hreads, h.closes_nodup.perm_finRange fun i => ?_, ?_, ?_⟩
  · -- no `xclose` is pending, so what was read is closed
    obtain ⟨st, hi⟩ := h.stage i
    rcases hi.reads.mp (hread i) with rfl | ⟨k, rfl⟩
    · exact hi.closes.mpr rfl
    · have hclosing := (hi.xclose k).mpr rfl
      rw [hpc] at hclosing
      cases hclosing
  · rw [h.printed]
    exact hreads.map _
  · rw [h.printed]
    exact h.reads_nodup.map echo_message_injective

/-- What `Correct` says holds along every interleaving of `n` clients with the event loop, for any
descriptors that the process has inherited. -/
theorem clients_echoed (c : Config) (s : State c.n) (hs : (system c).Reachable s) :
    Correct c s := by
  have h := inv_of_reachable hs
  refine ⟨fun _ e rest hbatch => ?_, fun e hpc => ?_, h.not_stray, h.reads_nodup, h.closes_nodup,
    h.finished_perm⟩
  · exact h.batch.entry e (by simp [hbatch])
  · obtain ⟨k, file⟩ := e
    obtain ⟨⟨i, hfile⟩, -⟩ := h.xclose _ hpc
    obtain rfl : file = .conn i := hfile
    obtain ⟨st, hi⟩ := h.stage i
    exact (hi.table k).mpr (.inr ((hi.xclose k).mp hpc))

/-- The two clients of the source, with the standard descriptors open. -/
def twoClients : Config where
  n := 2
  n_lt := by norm_num
  opened := {0, 1, 2}

/-- The second client connects before the connection of the first, descriptor 5, is closed; in the
batch in which that happens it is accepted, as descriptor 5. -/
theorem clients_echoed_two : ∃ s, (system twoClients).Reachable s ∧ s.pc = .finished ∧
    Correct twoClients s := by
  let first : Fin twoClients.n := ⟨0, by decide⟩
  let second : Fin twoClients.n := ⟨1, by decide⟩
  have hrun : ((system twoClients).run (init twoClients)
      [.client first, .client first, .epollWait [⟨3, .server⟩], .server, .server, .client second,
        .epollWait [⟨5, .conn first⟩, ⟨3, .server⟩], .server, .server, .server, .server,
        .client second, .epollWait [⟨5, .conn second⟩], .server, .server]).map (·.pc) =
      some .finished := by
    decide +kernel
  obtain ⟨s, hrun, hpc⟩ := Option.map_eq_some_iff.mp hrun
  have hs := TransitionSystem.reachable_of_run hrun
  exact ⟨s, hs, hpc, clients_echoed twoClients s hs⟩

end Results

end EpollUnixEcho
