import OsPrograms.Sockets.CalcConversation

/-!
# `unix_calc_server` with many clients

The main process accepts connections and forks a child for each; a failing `accept` or `fork` ends
it with `die_errno`, while children that are running go on. Any number of clients connect, each with
an expression of its own. That `SIGCHLD` interrupts `accept` is the subject of `CalcServerReap`; the
handler is installed with `SA_RESTART`, and it touches no connection.

## Main results

- `sessions_correct`: whatever the other clients, their children and the main process do, a client
  prints a beginning of the reply to a beginning of its own expression, by its own child.
- `sessions_complete`: every run is finite, and when nothing can go on, all clients and children
  have ended, and a server that has not died waits for the next client.
-/

namespace UnixCalc

open AcceptLoop TransitionSystem

section Sessions

variable {α : Type} [Add α] [Sub α] [Mul α] [Div α] [Neg α] {ι : Type*} [DecidableEq ι]

/-- The server, with a listen queue of `queueSize` connections and a client for each job. -/
def sessions (c : Setup α) (queueSize : ℕ) (jobs : ι → Job) : Config ι Talk Act where
  own := own c
  data i := (jobs i).start
  limit := none
  queueSize := queueSize
  mayFail := true

variable {c : Setup α} {queueSize : ℕ} {jobs : ι → Job} {s : State ι Talk}

/-- In every interleaving of the server, its children and the clients, what a client prints comes
from its own expression and its own child. -/
theorem sessions_correct (hs : (loop (sessions c queueSize jobs)).Reachable s) (i : ι) :
    Correct c (jobs i) (s.conn i) :=
  correct_of_one (reachable_conn hs i)

end Sessions

/-- A finite double with the integer part of a small number. -/
def integer64 (v : ℚ) : Printf.Binary64 where
  negative := v < 0
  mantissa := v.num.natAbs / v.den % 0x20000000000000
  exponent := 0
  mantissa_lt := Nat.mod_lt _ (by decide)
  le_exponent := by decide
  exponent_le := by decide

/-- The calculator on integers. -/
def integers : Setup ℚ where
  strtod := strtodDecimal
  format pid v := reply pid (integer64 v)
  upCapacity := 1
  downCapacity := 512
  format_ne_nil _ _ := by simp [reply, replyText]
  format_nulFree pid v := nulFree_reply pid _
  format_fits pid v := (length_reply_le pid.isLt _).trans_lt (by decide)
  up_pos := Nat.one_pos

/-- A client with the expression `7`, and one with `7+`. -/
def twoJobs (i : Fin 2) : Job where
  expression := if i.val = 0 then ['7'.toUInt8] else ['7'.toUInt8, '+'.toUInt8]
  nulFree := by revert i; decide
  pid := if i.val = 0 then 41 else 42
  junk := []

/-- With both clients connected, the first has read five bytes of its reply. -/
theorem sessions_correct_two_clients :
    ∃ s, (loop (sessions integers 1 twoJobs)).Reachable s ∧
      (s.conn 0).data.client = .exited [112, 105, 100, 61, 52] ∧
      ∃ request v, request <+: ['7'.toUInt8] ∧ Input strtodDecimal request v := by
  have hrun : ((loop (sessions integers 1 twoJobs)).run (init (sessions integers 1 twoJobs))
      [.connect 0, .accept, .connect 1, .own 0 (.client 1), .fork, .own 0 (.worker 1),
        .own 0 (.client 0), .own 0 (.client 0), .own 0 (.worker 5), .own 0 (.client 5)]).map
      (fun s => (s.conn 0).data.client) = some (.exited [112, 105, 100, 61, 52]) := by
    decide +kernel
  obtain ⟨s, hs, hclient⟩ := Option.map_eq_some_iff.mp hrun
  have hreach : (loop (sessions integers 1 twoJobs)).Reachable s := reachable_of_run hs
  obtain ⟨request, v, -, hprefix, -, hv, -⟩ :=
    (sessions_correct hreach 0).printed _ hclient (by decide)
  exact ⟨s, hreach, hclient, request, v, hprefix, hv⟩

section Progress

variable {α : Type} [Add α] [Sub α] [Mul α] [Div α] [Neg α] {ι : Type*} [DecidableEq ι]
  {c : Setup α} {queueSize : ℕ} {jobs : ι → Job}

/-- A run has a bounded number of steps. When nothing can happen any more but that a call of the
server fails, all clients are gone and all children have exited, and the server waits in `accept`
with nobody in its listen queue, having given each client a child, or has died. -/
theorem sessions_complete [Fintype ι] (hroom : bufferSize ≤ c.downCapacity)
    (hqueue : 1 ≤ queueSize) :
    (∀ as s, (loop (sessions c queueSize jobs)).run (init (sessions c queueSize jobs)) as = some s →
        as.length ≤ ∑ i, ((jobs i).expression.length + 521) + 1) ∧
      ∀ s, (loop (sessions c queueSize jobs)).Reachable s →
        (∀ a, a ≠ .fails → (loop (sessions c queueSize jobs)).step s a = none) →
        (s.pc = .accept ∧ s.backlog = [] ∧ (∀ i, (s.conn i).phase = .handed) ∨ s.pc = .died) ∧
          ∀ i, (s.conn i).data.client.Gone ∧
            ((s.conn i).phase = .handed → (s.conn i).data.worker = .exited) := by
  constructor
  · intro as s hrun
    have hle := AcceptLoop.length_run_le Talk.rank (fun _ _ _ _ _ hown => rank_own hown) hrun
    refine hle.trans (Nat.add_le_add_right (Finset.sum_le_sum fun i _ => ?_) 1)
    simp only [sessions, Job.start, Talk.rank, ClientPc.rank, WorkerPc.rank, bufferSize]
    omega
  · intro s hs hidle
    have hnever : (sessions c queueSize jobs).limit = none := rfl
    have hlimit : ∀ n, (sessions c queueSize jobs).limit = some n → Fintype.card ι ≤ n :=
      fun n hn => by simp [hnever] at hn
    refine ⟨?_, fun i => ?_⟩
    · obtain ⟨hpc, hbacklog⟩ | hleft | hdied := Idle.pc_eq hidle
      · exact .inl ⟨hpc, hbacklog, handed_of_idle hqueue hlimit hs hidle (by simp [hpc])⟩
      · -- the loop has no end
        have hend := (AcceptLoop.inv_of_reachable hs).left hleft
        simp [hnever] at hend
      · exact .inr hdied
    · obtain ⟨hsettled, hown⟩ := settled_of_idle hqueue hlimit hs hidle i
      exact (inv_of_reachable (reachable_conn hs i)).ended_of_stuck hroom hsettled hown

/-- The server waits in `accept`, and has served everybody. -/
def AllServed (s : State ι Talk) : Prop :=
  s.pc = .accept ∧ s.backlog = [] ∧ ∀ i, (s.conn i).phase = .handed ∧
    (s.conn i).data.worker = .exited ∧ (s.conn i).data.client.Gone

instance [Fintype ι] (s : State ι Talk) : Decidable (AllServed s) :=
  inferInstanceAs (Decidable (s.pc = .accept ∧ s.backlog = [] ∧ ∀ _, _))

/-- Nobody has anything left to do then. -/
theorem AllServed.idle {s : State ι Talk} (h : AllServed s) :
    Idle (sessions c queueSize jobs) s := by
  obtain ⟨hpc, hbacklog, hconn⟩ := h
  intro a ha
  cases a with
  | connect i => simp [loop, AcceptLoop.step, (hconn i).1]
  | accept => simp [loop, AcceptLoop.step, hbacklog]
  | fork => simp [loop, AcceptLoop.step, hpc]
  | close => simp [loop, AcceptLoop.step, hpc]
  | fails => exact absurd rfl ha
  | own i a =>
    obtain ⟨hphase, hworker, hgone⟩ := hconn i
    -- a client that is gone and a child that has exited make no steps
    have hown : own c (s.conn i).phase (s.conn i).data a = none := by
      rw [hphase]
      cases hclient : (s.conn i).data.client <;> simp only [hclient, ClientPc.Gone] at hgone <;>
        cases a <;> simp [own, clientStep, workerStep, hclient, hworker]
    simp [loop, AcceptLoop.step, sessions, hown]

end Progress

/-- The two clients with their children and the server take at most 1046 steps. In one run both get
their replies, and the server waits for the next client. -/
theorem sessions_complete_two_clients :
    (∀ as s, (loop (sessions integers 1 twoJobs)).run (init (sessions integers 1 twoJobs)) as =
        some s → as.length ≤ 1046) ∧
      ∃ s, (loop (sessions integers 1 twoJobs)).Reachable s ∧
        (∀ a, a ≠ .fails → (loop (sessions integers 1 twoJobs)).step s a = none) ∧
        s.pc ≠ .died ∧ ∀ i, (s.conn i).data.worker = .exited := by
  have hroom : bufferSize ≤ integers.downCapacity := by decide
  refine ⟨fun as s hrun =>
    ((sessions_complete hroom (Nat.le_refl 1)).1 as s hrun).trans (by decide), ?_⟩
  let serve (i : Fin 2) : List (Action (Fin 2) Act) :=
    [.connect i, .accept, .fork, .close, .own i (.client 1), .own i (.worker 1),
      .own i (.worker 20), .own i (.worker 0), .own i (.worker 0)]
  have hrun : ((loop (sessions integers 1 twoJobs)).run (init (sessions integers 1 twoJobs))
      (serve 0 ++ [.own 0 (.client 0), .own 0 (.client 0), .own 0 (.client 20)] ++ serve 1 ++
        [.own 1 (.clientFails false), .own 1 (.client 0), .own 1 (.client 20)])).map
          (fun s => decide (AllServed s)) = some true := by
    decide +kernel
  obtain ⟨s, hs, hdecide⟩ := Option.map_eq_some_iff.mp hrun
  have hreach : (loop (sessions integers 1 twoJobs)).Reachable s := reachable_of_run hs
  have hserved : AllServed s := of_decide_eq_true hdecide
  have hend := ((sessions_complete hroom (Nat.le_refl 1)).2 s hreach hserved.idle).2
  exact ⟨s, hreach, hserved.idle, by simp [hserved.1], fun i => (hend i).2 (hserved.2.2 i).1⟩

end UnixCalc
