import OsPrograms.Lib.ProcessTable
import OsPrograms.Sockets.EpollEchoLoop

/-!
# The event loop ends (`epoll_unix_echo`)

`clients_echoed` says what the loop has done when it ends. Here it is shown to end, unless
`epoll_wait` gives up: all connections that are open are in the epoll set, so as long as replies are
missing either a client can go on or `epoll_wait` has something to report.

## Main results

- `Watched`: nothing that the loop still has to handle is outside the epoll set.
- `echo_loop_completes`: a run has at most `9 * n + 2` steps, and one that can only time out is at
  its end.
-/

namespace EpollUnixEcho

open TransitionSystem

section Cases

variable {c : Config} {s s' : State c.n}

/-- While no descriptor is being closed, connections that are open have not been read. -/
theorem Inv.notMem_reads {k : ℕ} {i : Fin c.n} (h : Inv c s) (hpc : s.pc = .handle)
    (hentry : s.table.entry k = some (.conn i)) : i ∉ s.reads := by
  obtain ⟨st, hi⟩ := h.stage i
  obtain rfl | rfl := (hi.table k).mp hentry
  · simp [hi.reads]
  · have hclosing := (hi.xclose k).mpr rfl
    rw [hpc] at hclosing
    cases hclosing

/-- What the server can do next. An event on `server` finds a connection in the backlog, and one on
a connection finds it unread. -/
theorem Inv.serverStep_cases (h : Inv c s) (hs : serverStep c s = some s') :
    (∃ e rest i backlog, s.pc = .handle ∧ s.batch = e :: rest ∧ s.backlog = i :: backlog ∧
      s' = { s with
        batch := rest
        backlog := backlog
        table := s.table.set s.table.lowestFree (some (.conn i))
        pc := .epollCtl s.table.lowestFree }) ∨
    (∃ k i rest, s.pc = .handle ∧ s.batch = ⟨k, .conn i⟩ :: rest ∧ i ∉ s.reads ∧
      s' = readConn c { s with batch := rest } ⟨k, .conn i⟩ i) ∨
    (∃ k, s.pc = .epollCtl k ∧
      s' = { s with interest := insert k s.interest, pc := next c s.batch s.replies }) ∨
    (∃ k i, s.pc = .xclose ⟨k, .conn i⟩ ∧ s.table.entry k = some (.conn i) ∧
      s' = { s with
        table := s.table.set k none
        interest := s.interest.erase k
        closes := s.closes ++ [i]
        pc := next c s.batch s.replies }) := by
  unfold serverStep at hs
  cases hpc : s.pc <;> simp only [hpc, reduceCtorEq, Option.some.injEq] at hs
  case handle =>
    cases hbatch : s.batch <;> simp only [hbatch, reduceCtorEq, Option.some.injEq] at hs
    rename_i e rest
    -- the batch is still true: no event of it is about a descriptor that was closed meanwhile
    have hentry := h.batch.entry e (by simp [hbatch])
    have hready := h.batch.ready e (by simp [hbatch])
    obtain ⟨k, file⟩ := e
    simp only [handle, hentry, if_true] at hs
    cases file with
    | server =>
      rw [if_pos ((h.server k).mp hentry)] at hs
      -- so `accept4` does not fail
      obtain ⟨i, backlog, hbacklog⟩ := List.exists_cons_of_ne_nil hready
      simp only [accept, hbacklog] at hs
      exact .inl ⟨_, rest, i, backlog, rfl, rfl, hbacklog, hs.symm⟩
    | conn i =>
      have hserver : k ≠ serverFd c := by
        intro hk
        rw [(h.server k).mpr hk] at hentry
        cases hentry
      rw [if_neg hserver] at hs
      exact .inr (.inl ⟨k, i, rest, rfl, rfl, h.notMem_reads hpc hentry, hs.symm⟩)
    | inherited | epoll => exact hready.elim
  case epollCtl k => exact .inr (.inr (.inl ⟨k, rfl, hs.symm⟩))
  case xclose e =>
    obtain ⟨⟨i, hfile⟩, -⟩ := h.xclose e hpc
    obtain ⟨k, file⟩ := e
    obtain rfl : file = .conn i := hfile
    obtain ⟨st, hi⟩ := h.stage i
    have hentry : s.table.entry k = some (.conn i) := (hi.table k).mpr (.inr ((hi.xclose k).mp hpc))
    simp only [close, hentry, if_true] at hs
    exact .inr (.inr (.inr ⟨k, i, rfl, hentry, hs.symm⟩))

/-- The server goes on with the batch, with the loop, or is through. -/
theorem next_cases (c : Config) (batch : List (Event c.n)) (replies : ℕ) :
    (batch ≠ [] ∧ next c batch replies = .handle) ∨
      (replies < c.n ∧ next c batch replies = .epollWait) ∨
      next c batch replies = .finished := by
  unfold next
  split
  · split
    · exact .inr (.inl ⟨‹_›, rfl⟩)
    · exact .inr (.inr rfl)
  · exact .inl ⟨‹_›, rfl⟩

end Cases

/-! ## The epoll set -/

/-- What the loop still has to handle is in the epoll set. -/
structure Watched (c : Config) (s : State c.n) : Prop where
  server : serverFd c ∈ s.interest
  conn : ∀ k i, s.table.entry k = some (.conn i) → s.pc ≠ .epollCtl k → k ∈ s.interest
  epollWait : s.pc = .epollWait → s.replies < c.n
  handle : s.pc = .handle → s.batch ≠ []

section Watched

variable {c : Config} {s s' : State c.n} {a : Action c.n}

/-- The server waits again only while replies are missing. -/
theorem epollWait_of_next (batch : List (Event c.n)) (replies : ℕ)
    (h : next c batch replies = .epollWait) : replies < c.n := by
  obtain ⟨-, hnext⟩ | ⟨hlt, -⟩ | hnext := next_cases c batch replies
  · simp [h] at hnext
  · exact hlt
  · simp [h] at hnext

/-- The server handles an event only if there is one left. -/
theorem handle_of_next (batch : List (Event c.n)) (replies : ℕ)
    (h : next c batch replies = .handle) : batch ≠ [] := by
  obtain ⟨hne, -⟩ | ⟨-, hnext⟩ | hnext := next_cases c batch replies
  · exact hne
  · simp [h] at hnext
  · simp [h] at hnext

theorem watched_init (c : Config) : Watched c (init c) where
  server := Finset.mem_singleton_self _
  conn k i hentry := absurd hentry ((entry_init k).2 i)
  epollWait := epollWait_of_next (c := c) [] 0
  handle := handle_of_next (c := c) [] 0

/-- A connection is added to the epoll set before the server waits again. -/
theorem Watched.serverStep (h : Watched c s) (hinv : Inv c s) (hs : serverStep c s = some s') :
    Watched c s' := by
  obtain ⟨e, rest, i, backlog, hpc, -, -, rfl⟩ | ⟨k, i, rest, hpc, -, -, rfl⟩ | ⟨k, hpc, rfl⟩ |
    ⟨k, i, hpc, hentry, rfl⟩ := hinv.serverStep_cases hs
  · refine ⟨h.server, fun l j hl hne => ?_, by simp, by simp⟩
    -- the new descriptor is about to be added, the others are not new
    have hne' : l ≠ s.table.lowestFree := fun hl => hne (by rw [hl])
    rw [Descriptors.entry_set_of_ne hne'] at hl
    exact h.conn l j hl (by simp [hpc])
  · exact ⟨h.server, fun l j hl _ => h.conn l j hl (by simp [hpc]), by simp [readConn],
      by simp [readConn]⟩
  · refine ⟨Finset.mem_insert_of_mem h.server, fun l j hl _ => ?_, epollWait_of_next _ _,
      handle_of_next _ _⟩
    by_cases hk : l = k
    · exact hk ▸ Finset.mem_insert_self l s.interest
    · refine Finset.mem_insert_of_mem (h.conn l j hl ?_)
      rw [hpc]
      exact fun h => hk (ServerPc.epollCtl.inj h).symm
  · have hserver : serverFd c ≠ k := by
      rintro rfl
      rw [(hinv.server _).mpr rfl] at hentry
      cases hentry
    refine ⟨Finset.mem_erase.mpr ⟨hserver, h.server⟩, fun l j hl _ => ?_, epollWait_of_next _ _,
      handle_of_next _ _⟩
    rw [Descriptors.entry_set] at hl
    split at hl
    next => cases hl
    next hk => exact Finset.mem_erase.mpr ⟨hk, h.conn l j hl (by simp [hpc])⟩

/-- This holds along every run. -/
theorem watched_of_reachable (h : (system c).Reachable s) : Watched c s := by
  refine h.invariant' (watched_init c) fun s a s' hreach hw hs => ?_
  cases a with
  | client i =>
    simp only [system, clientStep] at hs
    split at hs
    next =>
      simp only [Option.ite_none_right_eq_some, Option.some.injEq] at hs
      obtain ⟨-, rfl⟩ := hs
      exact ⟨hw.server, hw.conn, hw.epollWait, hw.handle⟩
    next =>
      obtain rfl := Option.some.inj hs
      exact ⟨hw.server, hw.conn, hw.epollWait, hw.handle⟩
    next =>
      obtain rfl := Option.some.inj hs
      exact ⟨hw.server, hw.conn, hw.epollWait, hw.handle⟩
    next => cases hs
  | epollWait events =>
    simp only [system, Option.ite_none_right_eq_some, Option.some.injEq] at hs
    obtain ⟨⟨hpc, hreports⟩, rfl⟩ := hs
    exact ⟨hw.server, fun k i hk _ => hw.conn k i hk (by simp [hpc]), by simp,
      fun _ => hreports.1⟩
  | timeout =>
    simp only [system, Option.ite_none_right_eq_some, Option.some.injEq] at hs
    obtain ⟨hpc, rfl⟩ := hs
    exact ⟨hw.server, fun k i hk _ => hw.conn k i hk (by simp [hpc]), by simp, by simp⟩
  | server => exact hw.serverStep (inv_of_reachable hreach) hs

/-! ## Progress -/

/-- A connection that is no longer open has been read. -/
theorem Inv.mem_reads_of_closed {i : Fin c.n} (h : Inv c s) (hclient : s.client i ≠ .connect)
    (hbacklog : i ∉ s.backlog) (htable : ∀ k, s.table.entry k ≠ some (.conn i)) :
    i ∈ s.reads := by
  obtain ⟨st, hi⟩ := h.stage i
  cases st with
  | fresh => exact absurd (hi.connect.mpr rfl) hclient
  | queued => exact absurd (hi.backlog.mpr rfl) hbacklog
  | opened k => exact absurd ((hi.table k).mpr (.inl rfl)) (htable k)
  | read k => exact absurd ((hi.table k).mpr (.inr rfl)) (htable k)
  | closed => exact hi.reads.mpr (.inl rfl)

/-- A client that cannot go on has exited, or waits for a place in the backlog. -/
theorem exited_of_clientStep_eq_none {i : Fin c.n} (h : clientStep s i = none) :
    s.client i = .exited ∨ s.client i = .connect ∧ s.backlog ≠ [] := by
  unfold clientStep at h
  cases hpc : s.client i with
  | connect =>
    refine .inr ⟨rfl, ?_⟩
    rintro hnil
    simp [hpc, hnil] at h
  | write | exit => simp [hpc] at h
  | exited => exact .inl rfl

/-- When replies are missing and the clients cannot go on, `epoll_wait` has an event to report. -/
theorem exists_reports (hinv : Inv c s) (hw : Watched c s) (hpc : s.pc = .epollWait)
    (hclients : ∀ i, clientStep s i = none) : ∃ events, s.Reports events := by
  by_cases hbacklog : s.backlog = []
  · -- nobody waits for the backlog, so all have exited, and a connection has not been read
    have hexited : ∀ i, s.client i = .exited := fun i =>
      (exited_of_clientStep_eq_none (hclients i)).resolve_right fun h => h.2 hbacklog
    have hmissing : ∃ i, i ∉ s.reads := by
      by_contra hall
      have hlength : c.n ≤ s.reads.length := by
        have hperm := hinv.reads_nodup.perm_finRange fun i => not_not.mp fun hi => hall ⟨i, hi⟩
        rw [hperm.length_eq, List.length_finRange]
      have hreplies := hw.epollWait hpc
      rw [hinv.replies] at hreplies
      exact Nat.not_le_of_lt hreplies hlength
    obtain ⟨i, hi⟩ := hmissing
    have hopen : ∃ k, s.table.entry k = some (.conn i) := by
      by_contra hclosed
      refine hi (hinv.mem_reads_of_closed (by simp [hexited i]) (by simp [hbacklog]) fun k hk => ?_)
      exact hclosed ⟨k, hk⟩
    obtain ⟨k, hk⟩ := hopen
    refine ⟨[⟨k, .conn i⟩], by simp, by simp, by simp, ?_⟩
    simp only [List.mem_singleton, forall_eq]
    exact ⟨hw.conn k i hk (by simp [hpc]), hk, .inr (hexited i)⟩
  · refine ⟨[⟨serverFd c, .server⟩], by simp, by simp, by simp, ?_⟩
    simp only [List.mem_singleton, forall_eq]
    exact ⟨hw.server, (hinv.server _).mpr rfl, hbacklog⟩

/-- If nothing can happen but that `epoll_wait` times out, the loop has ended and with it all
clients, or it has been left before by `die`. -/
theorem finished_of_stuck (h : (system c).Reachable s)
    (hstuck : ∀ a, a ≠ .timeout → (system c).step s a = none) :
    s.pc = .died ∨ s.pc = .finished ∧ ∀ i, s.client i = .exited := by
  have hinv := inv_of_reachable h
  have hw := watched_of_reachable h
  have hclients : ∀ i, clientStep s i = none := fun i => hstuck (.client i) (by simp)
  have hserver : serverStep c s = none := hstuck .server (by simp)
  cases hpc : s.pc with
  | epollWait =>
    obtain ⟨events, hreports⟩ := exists_reports hinv hw hpc hclients
    have hnone := hstuck (.epollWait events) (by simp)
    simp [system, hpc, hreports] at hnone
  | handle =>
    obtain ⟨e, rest, hbatch⟩ := List.exists_cons_of_ne_nil (hw.handle hpc)
    simp [serverStep, hpc, hbatch] at hserver
  | epollCtl k => simp [serverStep, hpc] at hserver
  | xclose e => simp [serverStep, hpc] at hserver
  | stray => exact absurd hpc hinv.not_stray
  | died => exact .inl rfl
  | finished =>
    refine .inr ⟨rfl, fun i => (exited_of_clientStep_eq_none (hclients i)).resolve_right ?_⟩
    -- a client that has not connected would not have been read
    rintro ⟨hconnect, -⟩
    obtain ⟨st, hi⟩ := hinv.stage i
    have hread : i ∈ s.reads := (hinv.finished_perm hpc).1.mem_iff.mpr (List.mem_finRange i)
    have hfresh := hi.connect.mp hconnect
    subst hfresh
    simp [hi.reads] at hread

end Watched

/-! ## Termination -/

/-- The weight of a client's next statement: before its connection is accepted, the server has work
with it that is still to come. -/
def ClientPc.rank : ClientPc → ℕ
  | .connect => 6
  | .write => 2
  | .exit => 1
  | .exited => 0

/-- The weight of the server's next statement. -/
def ServerPc.rank {n : ℕ} : ServerPc n → ℕ
  | .epollCtl _ | .xclose _ => 3
  | .epollWait => 2
  | .handle => 1
  | .finished | .died | .stray => 0

/-- Every step lowers the rank: a connection that is accepted leaves the backlog, and one that is
read is read for the first time. -/
def State.rank (c : Config) (s : State c.n) : ℕ :=
  ∑ i, (s.client i).rank + 3 * s.backlog.length + 3 * (c.n - s.reads.length) + s.pc.rank

section Termination

variable {c : Config} {s s' : State c.n} {a : Action c.n}

theorem rank_next_le (batch : List (Event c.n)) (replies : ℕ) :
    (next c batch replies).rank ≤ 2 := by
  obtain ⟨-, hnext⟩ | ⟨-, hnext⟩ | hnext := next_cases c batch replies <;>
    simp [hnext, ServerPc.rank]

/-- The client has fewer steps left. -/
theorem rank_clientStep {i : Fin c.n} (hs : clientStep s i = some s') : s'.rank c < s.rank c := by
  unfold clientStep at hs
  cases hpc : s.client i <;> simp only [hpc, reduceCtorEq] at hs
  case connect =>
    simp only [Option.ite_none_right_eq_some, Option.some.injEq] at hs
    obtain ⟨-, rfl⟩ := hs
    have hsum := Finset.sum_update_add ClientPc.rank s.client i .write
    simp only [hpc, ClientPc.rank, State.rank, List.length_append, List.length_singleton] at hsum ⊢
    omega
  case write =>
    obtain rfl := Option.some.inj hs
    have hsum := Finset.sum_update_add ClientPc.rank s.client i .exit
    simp only [hpc, ClientPc.rank, State.rank] at hsum ⊢
    omega
  case exit =>
    obtain rfl := Option.some.inj hs
    have hsum := Finset.sum_update_add ClientPc.rank s.client i .exited
    simp only [hpc, ClientPc.rank, State.rank] at hsum ⊢
    omega

/-- An event that is handled, or a connection that is closed, is one less. -/
theorem rank_serverStep (h : Inv c s) (hs : serverStep c s = some s') : s'.rank c < s.rank c := by
  obtain ⟨e, rest, i, backlog, hpc, -, hbacklog, rfl⟩ | ⟨k, i, rest, hpc, -, hi, rfl⟩ |
    ⟨k, hpc, rfl⟩ | ⟨k, i, hpc, -, rfl⟩ := h.serverStep_cases hs
  · simp only [State.rank, hpc, hbacklog, List.length_cons, ServerPc.rank]
    omega
  · have hlength : (s.reads ++ [i]).length ≤ c.n := by
      have hnodup := h.reads_nodup.append_singleton hi
      simpa using hnodup.length_le_card
    rw [List.length_append, List.length_singleton] at hlength
    simp only [State.rank, readConn, hpc, List.length_append, List.length_singleton, ServerPc.rank]
    omega
  · have hnext := rank_next_le (c := c) s.batch s.replies
    simp only [State.rank]
    rw [hpc, ServerPc.rank]
    omega
  · have hnext := rank_next_le (c := c) s.batch s.replies
    simp only [State.rank]
    rw [hpc, ServerPc.rank]
    omega

/-- Every step leaves less to do. -/
theorem rank_step (h : (system c).Reachable s) (hs : (system c).step s a = some s') :
    s'.rank c < s.rank c := by
  cases a with
  | client i => exact rank_clientStep hs
  | epollWait events =>
    simp only [system, Option.ite_none_right_eq_some, Option.some.injEq] at hs
    obtain ⟨⟨hpc, -⟩, rfl⟩ := hs
    simp only [State.rank, hpc, ServerPc.rank]
    omega
  | timeout =>
    simp only [system, Option.ite_none_right_eq_some, Option.some.injEq] at hs
    obtain ⟨hpc, rfl⟩ := hs
    simp only [State.rank, hpc, ServerPc.rank]
    omega
  | server => exact rank_serverStep (inv_of_reachable h) hs

/-- All runs end, after `9 * n + 2` steps at most. A run that can only go on with a timeout of
`epoll_wait`, or not at all, has seen one before, or is at the end of the loop, with all clients
exited. -/
theorem echo_loop_completes (c : Config) :
    (∀ as s, (system c).run (init c) as = some s → as.length ≤ 9 * c.n + 2) ∧
      ∀ s, (system c).Reachable s → (∀ a, a ≠ .timeout → (system c).step s a = none) →
        s.pc = .died ∨ s.pc = .finished ∧ ∀ i, s.client i = .exited := by
  refine ⟨fun as s hrun => ?_, fun s => finished_of_stuck⟩
  have hle := Reachable.length_run_le
    (fun s a s' hs (hstep : (system c).step s a = some s') => rank_step hs hstep) .init hrun
  have hinit : (init c).rank c ≤ 9 * c.n + 2 := by
    have hnext := rank_next_le (c := c) [] 0
    simp only [State.rank, init, ClientPc.rank, Finset.sum_const, Finset.card_univ,
      Fintype.card_fin, smul_eq_mul, List.length_nil]
    omega
  have hbound : as.length + s.rank c ≤ (init c).rank c := hle
  omega

end Termination

end EpollUnixEcho
