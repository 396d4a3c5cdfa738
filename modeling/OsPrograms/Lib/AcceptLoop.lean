import Mathlib.Algebra.Order.BigOperators.Group.Finset
import Mathlib.Data.Fintype.BigOperators
import OsPrograms.Lib.ProcessTable
import OsPrograms.Lib.Refinement

/-!
# Servers that fork a worker for each connection

The main process of such a server accepts a connection, forks a worker for it and closes its own
descriptor, over and over or a fixed number of times. Meanwhile clients connect, and the clients and
workers of all connections run. What a client and its worker do to each other is a parameter: a type
`T` of states of their conversation with actions `A`. It may depend on the `Phase` of the
connection, since a peer sees the end of the stream only when the last descriptor is closed.

* `one` is a single connection with a server that serves nobody else.
* `projection`: whatever the others do, each connection of `loop` does what it could do alone.
* `settled_of_idle`: when nothing can go on, every connection has been handed to a worker or lost
  with the server, and its client and worker cannot go on by themselves. A call that fails is not
  something that has to happen (`Idle`).
* `length_run_le`: bounded conversations make bounded runs.
-/

namespace AcceptLoop

open TransitionSystem

/-- Where a connection is, seen from the server's main process. -/
inductive Phase
  /-- The client has not called `connect`. -/
  | fresh
  /-- In the listen queue. -/
  | queued
  /-- Returned by `accept`. -/
  | accepted
  /-- Open in the main process and in the worker. -/
  | shared
  /-- Open in the worker only. -/
  | handed
  /-- The server died before the client called `connect`. -/
  | refused
  /-- The server died with the connection. -/
  | dropped
  deriving DecidableEq, Repr

/-- What the main process does to a connection. -/
inductive Move
  | connect
  | accept
  | fork
  | close
  /-- The server dies. -/
  | lose
  deriving DecidableEq, Repr

def Phase.move : Phase → Move → Option Phase
  | .fresh, .connect => some .queued
  | .queued, .accept => some .accepted
  | .accepted, .fork => some .shared
  | .shared, .close => some .handed
  | .fresh, .lose => some .refused
  | .queued, .lose => some .dropped
  | .accepted, .lose => some .dropped
  | _, _ => none

/-- The phase after the server's death. -/
def Phase.lost (phase : Phase) : Phase :=
  (phase.move .lose).getD phase

/-- A connection: its phase and the conversation on it. -/
structure Conn (T : Type*) where
  phase : Phase
  data : T

/-- What can happen to one connection. -/
inductive Event (A : Type*)
  | move (m : Move)
  /-- A step of the client or of the worker. -/
  | own (a : A)

/-- One connection alone. -/
def one {T A : Type*} (own : Phase → T → A → Option T) (data : T) :
    TransitionSystem (Conn T) (Event A) where
  init := ⟨.fresh, data⟩
  step c
    | .move m => (c.phase.move m).map fun phase => { c with phase := phase }
    | .own a => (own c.phase c.data a).map fun data => { c with data := data }

/-- The main process: the next statement of its loop. -/
inductive Pc (ι : Type*)
  | accept
  | fork (i : ι)
  | close (i : ι)
  /-- After the loop. -/
  | left
  | died
  deriving DecidableEq, Repr

structure State (ι T : Type*) where
  pc : Pc ι
  /-- How many connections have been accepted. -/
  count : ℕ
  /-- The listen queue. -/
  backlog : List ι
  conn : ι → Conn T

/-- A server and its clients. -/
structure Config (ι T A : Type*) where
  /-- The steps of a client and its worker. -/
  own : Phase → T → A → Option T
  /-- The conversations before they begin. -/
  data : ι → T
  /-- The number of connections after which the loop ends, `none` if it does not. -/
  limit : Option ℕ
  /-- The length of the listen queue. -/
  queueSize : ℕ
  /-- A failing `accept` or `fork` ends the server. -/
  mayFail : Bool

inductive Action (ι A : Type*)
  | connect (i : ι)
  | accept
  | fork
  | close
  | fails
  | own (i : ι) (a : A)

section Loop

variable {ι T A : Type*} [DecidableEq ι] (c : Config ι T A)

/-- The test of the loop. -/
def Config.next (count : ℕ) : Pc ι :=
  if c.limit = some count then .left else .accept

/-- The connection of `i` enters a phase. -/
def State.setPhase (s : State ι T) (i : ι) (phase : Phase) : ι → Conn T :=
  Function.update s.conn i { s.conn i with phase := phase }

/-- The server dies. -/
def State.die (s : State ι T) : State ι T where
  pc := .died
  count := s.count
  backlog := []
  conn i := { s.conn i with phase := (s.conn i).phase.lost }

def init : State ι T where
  pc := c.next 0
  count := 0
  backlog := []
  conn i := ⟨.fresh, c.data i⟩

def step (s : State ι T) : Action ι A → Option (State ι T)
  | .connect i =>
    if s.pc ≠ .died ∧ (s.conn i).phase = .fresh ∧ s.backlog.length < c.queueSize then
      some { s with backlog := s.backlog ++ [i], conn := s.setPhase i .queued }
    else
      none
  | .accept =>
    match s.pc, s.backlog with
    | .accept, i :: rest =>
      some { s with
        pc := .fork i
        count := s.count + 1
        backlog := rest
        conn := s.setPhase i .accepted }
    | _, _ => none
  | .fork =>
    match s.pc with
    | .fork i => some { s with pc := .close i, conn := s.setPhase i .shared }
    | _ => none
  | .close =>
    match s.pc with
    | .close i => some { s with pc := c.next s.count, conn := s.setPhase i .handed }
    | _ => none
  | .fails =>
    match s.pc with
    | .accept | .fork _ => if c.mayFail then some s.die else none
    | _ => none
  | .own i a =>
    (c.own (s.conn i).phase (s.conn i).data a).map fun data =>
      { s with conn := Function.update s.conn i { s.conn i with data := data } }

/-- The server with all its clients and workers. -/
def loop : TransitionSystem (State ι T) (Action ι A) where
  init := init c
  step := step c

variable {c} {s s' : State ι T} {i j : ι}

@[simp]
theorem setPhase_self (s : State ι T) (i : ι) (phase : Phase) :
    s.setPhase i phase i = { s.conn i with phase := phase } :=
  Function.update_self ..

theorem setPhase_of_ne (h : j ≠ i) (phase : Phase) : s.setPhase i phase j = s.conn j :=
  Function.update_of_ne h ..

/-- Only connection `i` changes its phase. -/
theorem phase_setPhase (s : State ι T) (i j : ι) (phase : Phase) :
    (s.setPhase i phase j).phase = if j = i then phase else (s.conn j).phase := by
  rw [State.setPhase, Function.update_apply]
  split <;> rfl

/-- A step of the conversation does not change phases. -/
theorem phase_update (s : State ι T) (i j : ι) (data : T) :
    (Function.update s.conn i { s.conn i with data := data } j).phase = (s.conn j).phase := by
  by_cases h : j = i
  · subst h
    rw [Function.update_self]
  · rw [Function.update_of_ne h]

omit [DecidableEq ι] in
/-- After `count` connections the server leaves its loop, or accepts again. -/
theorem next_eq (c : Config ι T A) (count : ℕ) : c.next count = .left ∧ c.limit = some count ∨
    c.next count = .accept ∧ c.limit ≠ some count := by
  unfold Config.next
  split
  next h => exact .inl ⟨rfl, h⟩
  next h => exact .inr ⟨rfl, h⟩

/-- The cases of a step. -/
theorem step_cases {a : Action ι A} (hs : step c s a = some s') :
    (∃ i, a = .connect i ∧ s.pc ≠ .died ∧ (s.conn i).phase = .fresh ∧
      s' = { s with backlog := s.backlog ++ [i], conn := s.setPhase i .queued }) ∨
    (∃ i rest, a = .accept ∧ s.pc = .accept ∧ s.backlog = i :: rest ∧
      s' = ⟨.fork i, s.count + 1, rest, s.setPhase i .accepted⟩) ∨
    (∃ i, a = .fork ∧ s.pc = .fork i ∧
      s' = { s with pc := .close i, conn := s.setPhase i .shared }) ∨
    (∃ i, a = .close ∧ s.pc = .close i ∧
      s' = { s with pc := c.next s.count, conn := s.setPhase i .handed }) ∨
    (a = .fails ∧ (s.pc = .accept ∨ ∃ i, s.pc = .fork i) ∧ c.mayFail = true ∧ s' = s.die) ∨
    (∃ i b data, a = .own i b ∧ c.own (s.conn i).phase (s.conn i).data b = some data ∧
      s' = { s with conn := Function.update s.conn i { s.conn i with data := data } }) := by
  cases a with
  | connect i =>
    simp only [step, Option.ite_none_right_eq_some, Option.some.injEq] at hs
    obtain ⟨⟨hpc, hfresh, -⟩, rfl⟩ := hs
    exact .inl ⟨i, rfl, hpc, hfresh, rfl⟩
  | accept =>
    simp only [step] at hs
    split at hs
    next i rest hpc hbacklog =>
      exact .inr (.inl ⟨i, rest, rfl, hpc, hbacklog, (Option.some.inj hs).symm⟩)
    next => cases hs
  | fork =>
    simp only [step] at hs
    split at hs
    next i hpc => exact .inr (.inr (.inl ⟨i, rfl, hpc, (Option.some.inj hs).symm⟩))
    next => cases hs
  | close =>
    simp only [step] at hs
    split at hs
    next i hpc => exact .inr (.inr (.inr (.inl ⟨i, rfl, hpc, (Option.some.inj hs).symm⟩)))
    next => cases hs
  | fails =>
    simp only [step] at hs
    split at hs
    next hpc =>
      simp only [Option.ite_none_right_eq_some, Option.some.injEq] at hs
      exact .inr (.inr (.inr (.inr (.inl ⟨rfl, .inl hpc, hs.1, hs.2.symm⟩))))
    next i hpc =>
      simp only [Option.ite_none_right_eq_some, Option.some.injEq] at hs
      exact .inr (.inr (.inr (.inr (.inl ⟨rfl, .inr ⟨i, hpc⟩, hs.1, hs.2.symm⟩))))
    next => cases hs
  | own i b =>
    obtain ⟨data, hown, rfl⟩ := Option.map_eq_some_iff.mp hs
    exact .inr (.inr (.inr (.inr (.inr ⟨i, b, data, rfl, hown, rfl⟩))))

/-! ## The phases and the main process -/

/-- The phases of all connections fit the main process. -/
structure Inv (c : Config ι T A) (s : State ι T) : Prop where
  nodup : s.backlog.Nodup
  mem_backlog : ∀ i, i ∈ s.backlog ↔ (s.conn i).phase = .queued
  accepted_iff : ∀ i, (s.conn i).phase = .accepted ↔ s.pc = .fork i
  shared_iff : ∀ i, (s.conn i).phase = .shared ↔ s.pc = .close i
  died : s.pc = .died →
    c.mayFail = true ∧ ∀ i, (s.conn i).phase ≠ .fresh ∧ (s.conn i).phase ≠ .queued
  lost : ∀ i, (s.conn i).phase = .refused ∨ (s.conn i).phase = .dropped → s.pc = .died
  left : s.pc = .left → c.limit = some s.count
  accept : s.pc = .accept → c.limit ≠ some s.count

omit [DecidableEq ι] in
theorem Inv.init : Inv c (init c) := by
  have hnext := next_eq c 0
  refine ⟨List.nodup_nil, ?_, ?_, ?_, ?_, ?_, ?_, ?_⟩
  · simp [AcceptLoop.init]
  · obtain ⟨h, -⟩ | ⟨h, -⟩ := hnext <;> simp [AcceptLoop.init, h]
  · obtain ⟨h, -⟩ | ⟨h, -⟩ := hnext <;> simp [AcceptLoop.init, h]
  · obtain ⟨h, -⟩ | ⟨h, -⟩ := hnext <;> simp [AcceptLoop.init, h]
  · simp [AcceptLoop.init]
  · obtain ⟨-, hlimit⟩ | ⟨h, -⟩ := hnext
    · exact fun _ => hlimit
    · simp [AcceptLoop.init, h]
  · obtain ⟨h, -⟩ | ⟨-, hlimit⟩ := hnext
    · simp [AcceptLoop.init, h]
    · exact fun _ => hlimit

/-- The main process moves one connection `i` on to `phase`. -/
theorem Inv.moved {pc : Pc ι} {count : ℕ} {backlog : List ι} {phase : Phase} (h : Inv c s)
    (hnodup : backlog.Nodup) (hself : i ∈ backlog ↔ phase = .queued)
    (hothers : ∀ j, j ≠ i → (j ∈ backlog ↔ j ∈ s.backlog))
    (hfork : ∀ j, j ≠ i → (pc = .fork j ↔ s.pc = .fork j))
    (hclose : ∀ j, j ≠ i → (pc = .close j ↔ s.pc = .close j))
    (haccepted : phase = .accepted ↔ pc = .fork i) (hshared : phase = .shared ↔ pc = .close i)
    (halive : s.pc ≠ .died) (hdied : pc ≠ .died) (hlost : phase ≠ .refused ∧ phase ≠ .dropped)
    (hleft : pc = .left → c.limit = some count) (haccept : pc = .accept → c.limit ≠ some count) :
    Inv c ⟨pc, count, backlog, s.setPhase i phase⟩ := by
  refine ⟨hnodup, fun j => ?_, fun j => ?_, fun j => ?_, fun hd => absurd hd hdied, fun j => ?_,
    hleft, haccept⟩
  all_goals
    rw [phase_setPhase]
    by_cases hj : j = i
  · rwa [if_pos hj, hj]
  · rw [if_neg hj, hothers j hj, h.mem_backlog]
  · rwa [if_pos hj, hj]
  · rw [if_neg hj, hfork j hj, h.accepted_iff]
  · rwa [if_pos hj, hj]
  · rw [if_neg hj, hclose j hj, h.shared_iff]
  · rw [if_pos hj]
    exact fun hor => absurd hor (not_or.mpr hlost)
  · rw [if_neg hj]
    exact fun hor => absurd (h.lost j hor) halive

omit [DecidableEq ι] in
/-- A failed call ends the server between two connections or with one that it has accepted, and what
waits for it is lost. -/
theorem Inv.die (h : Inv c s) (hpc : s.pc = .accept ∨ ∃ i, s.pc = .fork i)
    (hfail : c.mayFail = true) : Inv c s.die := by
  have hshared : ∀ i, (s.conn i).phase ≠ .shared := by
    intro i hi
    have hclose := (h.shared_iff i).mp hi
    obtain hpc | ⟨j, hpc⟩ := hpc <;> simp [hpc] at hclose
  -- a phase that is left is not one that waits for the main process
  have hphase : ∀ i, (s.conn i).phase.lost ≠ .fresh ∧ (s.conn i).phase.lost ≠ .queued ∧
      (s.conn i).phase.lost ≠ .accepted ∧ (s.conn i).phase.lost ≠ .shared := by
    intro i
    have hi := hshared i
    cases hp : (s.conn i).phase <;> simp_all [Phase.lost, Phase.move]
  refine ⟨List.nodup_nil, fun i => ?_, fun i => ?_, fun i => ?_, fun _ => ⟨hfail, fun i => ?_⟩,
    fun _ _ => rfl, fun hleft => ?_, fun haccept => ?_⟩
  · simpa [State.die] using (hphase i).2.1
  · simpa [State.die] using (hphase i).2.2.1
  · simpa [State.die] using (hphase i).2.2.2
  · exact ⟨(hphase i).1, (hphase i).2.1⟩
  · simp [State.die] at hleft
  · simp [State.die] at haccept

/-- The phases of the connections agree with what the server does with them. -/
theorem Inv.step {a : Action ι A} (h : Inv c s) (hs : step c s a = some s') : Inv c s' := by
  obtain ⟨i, -, hpc, hfresh, rfl⟩ | ⟨i, rest, -, hpc, hbacklog, rfl⟩ | ⟨i, -, hpc, rfl⟩ |
    ⟨i, -, hpc, rfl⟩ | ⟨-, hpc, hfail, rfl⟩ | ⟨i, b, data, -, -, rfl⟩ := step_cases hs
  -- a new connection is at no other place
  · have hi : i ∉ s.backlog := by simp [h.mem_backlog, hfresh]
    have hfork : s.pc ≠ .fork i := fun hpc => by simp [(h.accepted_iff i).mpr hpc] at hfresh
    have hclose : s.pc ≠ .close i := fun hpc => by simp [(h.shared_iff i).mpr hpc] at hfresh
    refine h.moved ?_ (by simp) (fun j hj => by simp [hj]) (fun _ _ => Iff.rfl)
      (fun _ _ => Iff.rfl) (by simp [hfork]) (by simp [hclose]) hpc hpc (by simp) h.left h.accept
    exact h.nodup.append_singleton hi
  · have hnodup := List.nodup_cons.mp (hbacklog ▸ h.nodup)
    refine h.moved hnodup.2 (by simp [hnodup.1]) (fun j hj => by simp [hbacklog, hj]) ?_ ?_
      (by simp) (by simp) (by simp [hpc]) (by simp) (by simp) (by simp) (by simp)
    · exact fun j hj => by simp [hpc, hj.symm]
    · exact fun j hj => by simp [hpc]
  · have hi : i ∉ s.backlog := by simp [h.mem_backlog, (h.accepted_iff i).mpr hpc]
    refine h.moved h.nodup (by simp [hi]) (fun _ _ => Iff.rfl) ?_ ?_ (by simp) (by simp)
      (by simp [hpc]) (by simp) (by simp) (by simp) (by simp)
    · exact fun j hj => by simp [hpc, hj.symm]
    · exact fun j hj => by simp [hpc, hj.symm]
  · have hi : i ∉ s.backlog := by simp [h.mem_backlog, (h.shared_iff i).mpr hpc]
    -- after `close` the server goes back to `accept`, or leaves the loop at the limit
    have hnext := next_eq c s.count
    refine h.moved h.nodup (by simp [hi]) (fun _ _ => Iff.rfl) ?_ ?_ ?_ ?_ (by simp [hpc]) ?_
      (by simp) ?_ ?_
    · intro j hj
      obtain ⟨hn, -⟩ | ⟨hn, -⟩ := hnext <;> simp [hn, hpc]
    · intro j hj
      obtain ⟨hn, -⟩ | ⟨hn, -⟩ := hnext <;> simp [hn, hpc, hj.symm]
    · obtain ⟨hn, -⟩ | ⟨hn, -⟩ := hnext <;> simp [hn]
    · obtain ⟨hn, -⟩ | ⟨hn, -⟩ := hnext <;> simp [hn]
    · obtain ⟨hn, -⟩ | ⟨hn, -⟩ := hnext <;> simp [hn]
    · obtain ⟨-, hlimit⟩ | ⟨hn, -⟩ := hnext
      · exact fun _ => hlimit
      · simp [hn]
    · obtain ⟨hn, -⟩ | ⟨-, hlimit⟩ := hnext
      · simp [hn]
      · exact fun _ => hlimit
  · exact h.die hpc hfail
  · refine ⟨h.nodup, ?_, ?_, ?_, ?_, ?_, h.left, h.accept⟩
    all_goals simp only [phase_update]
    · exact h.mem_backlog
    · exact h.accepted_iff
    · exact h.shared_iff
    · exact h.died
    · exact h.lost

/-- The invariant holds along every run. -/
theorem inv_of_reachable (hs : (loop c).Reachable s) : Inv c s :=
  hs.invariant Inv.init fun _ _ _ h hstep => h.step hstep

/-! ## Every connection by itself -/

/-- What a step does to connection `i`. -/
def event (i : ι) (s : State ι T) : Action ι A → List (Event A)
  | .connect j => if j = i then [.move .connect] else []
  | .accept => if s.backlog.head? = some i then [.move .accept] else []
  | .fork => if s.pc = .fork i then [.move .fork] else []
  | .close => if s.pc = .close i then [.move .close] else []
  | .fails => if ((s.conn i).phase.move .lose).isSome then [.move .lose] else []
  | .own j a => if j = i then [.own a] else []

/-- A connection that the main process moves on goes there by itself, and the others stay. -/
theorem run_setPhase {own : Phase → T → A → Option T} {data : T} {m : Move} {phase : Phase}
    (h : (s.conn j).phase.move m = some phase) :
    (one own data).run (s.conn i) (if j = i then [.move m] else []) =
      some (s.setPhase j phase i) := by
  by_cases hj : j = i
  · subst hj
    rw [if_pos rfl, setPhase_self]
    exact run_cons (by simp [one, h])
  · rw [if_neg hj, setPhase_of_ne (Ne.symm hj)]
    rfl

/-- For one connection a step of the whole is a step of its own, or nothing. -/
theorem run_event {a : Action ι A} (h : Inv c s) (hs : step c s a = some s') :
    (one c.own (c.data i)).run (s.conn i) (event i s a) = some (s'.conn i) := by
  obtain ⟨j, rfl, hpc, hfresh, rfl⟩ | ⟨j, rest, rfl, hpc, hbacklog, rfl⟩ | ⟨j, rfl, hpc, rfl⟩ |
    ⟨j, rfl, hpc, rfl⟩ | ⟨rfl, hpc, hfail, rfl⟩ | ⟨j, b, data, rfl, hown, rfl⟩ := step_cases hs
  · exact run_setPhase (by rw [hfresh]; rfl)
  · have hqueued : (s.conn j).phase = .queued :=
      (h.mem_backlog j).mp (by rw [hbacklog]; exact List.mem_cons_self)
    simp only [event, hbacklog, List.head?_cons, Option.some.injEq]
    exact run_setPhase (by rw [hqueued]; rfl)
  · simp only [event, hpc, Pc.fork.injEq]
    exact run_setPhase (by rw [(h.accepted_iff j).mpr hpc]; rfl)
  · simp only [event, hpc, Pc.close.injEq]
    exact run_setPhase (by rw [(h.shared_iff j).mpr hpc]; rfl)
  · cases hm : (s.conn i).phase.move .lose with
    | none => simp [event, State.die, Phase.lost, hm]
    | some phase => simp [event, State.die, Phase.lost, hm, run, one]
  · by_cases hj : j = i
    · subst hj
      simp [event, hown, run, one]
    · simp [event, hj, Function.update_of_ne (Ne.symm hj)]

/-- Each connection does what it could do if it were the only one. -/
def projection (c : Config ι T A) (i : ι) : Refinement (loop c) (one c.own (c.data i)) where
  abs s := s.conn i
  event := event i
  abs_init := rfl
  run_event hs hstep := run_event (inv_of_reachable hs) hstep

/-- What the whole can reach is reachable for each connection on its own. -/
theorem reachable_conn (hs : (loop c).Reachable s) (i : ι) :
    (one c.own (c.data i)).Reachable (s.conn i) :=
  (projection c i).reachable_abs hs

/-! ## Progress -/

/-- The main process has nothing more to do with the connection. -/
def Phase.Settled : Phase → Prop
  | .handed | .refused | .dropped => True
  | .fresh | .queued | .accepted | .shared => False

/-- 1 for a connection that `accept` has returned. -/
def Phase.taken : Phase → ℕ
  | .accepted | .shared | .handed => 1
  | .fresh | .queued | .refused | .dropped => 0

/-- What the main process still has to do to a connection. -/
def Phase.rank : Phase → ℕ
  | .fresh => 4
  | .queued => 3
  | .accepted => 2
  | .shared => 1
  | .handed | .refused | .dropped => 0

variable [Fintype ι]

/-- A quantity of all connections changes by the change of its phase when one is moved on. -/
theorem sum_setPhase (f : Conn T → ℕ) (s : State ι T) (i : ι) (phase : Phase) :
    ∑ j, f (s.setPhase i phase j) + f (s.conn i) =
      ∑ j, f (s.conn j) + f { s.conn i with phase := phase } :=
  Finset.sum_update_add f s.conn i _

/-- `count` counts the connections that have been accepted. -/
theorem count_eq (hs : (loop c).Reachable s) (hpc : s.pc ≠ .died) :
    ∑ i, (s.conn i).phase.taken = s.count := by
  refine hs.invariant' (P := fun s => s.pc ≠ .died → ∑ i, (s.conn i).phase.taken = s.count) ?_ ?_
    hpc
  · intro _
    simp [loop, init, Phase.taken]
  · intro s a s' hreach ih hstep _
    have h := inv_of_reachable hreach
    have hmoved := sum_setPhase (fun conn => conn.phase.taken) s
    obtain ⟨j, rfl, hpc, hfresh, rfl⟩ | ⟨j, rest, rfl, hpc, hbacklog, rfl⟩ | ⟨j, rfl, hpc, rfl⟩ |
      ⟨j, rfl, hpc, rfl⟩ | ⟨rfl, hpc, -, rfl⟩ | ⟨j, b, data, rfl, hown, rfl⟩ := step_cases hstep
    -- only the second case changes `taken`, and `count` with it
    · have hj := hmoved j .queued
      have hsum := ih hpc
      simp only [hfresh, Phase.taken] at hj hsum ⊢
      omega
    · have hqueued : (s.conn j).phase = .queued :=
        (h.mem_backlog j).mp (by rw [hbacklog]; exact List.mem_cons_self)
      have hj := hmoved j .accepted
      have hsum := ih (by simp [hpc])
      simp only [hqueued, Phase.taken] at hj hsum ⊢
      omega
    · have hj := hmoved j .shared
      have hsum := ih (by simp [hpc])
      simp only [(h.accepted_iff j).mpr hpc, Phase.taken] at hj hsum ⊢
      omega
    · have hj := hmoved j .handed
      have hsum := ih (by simp [hpc])
      simp only [(h.shared_iff j).mpr hpc, Phase.taken] at hj hsum ⊢
      omega
    · contradiction
    · simp only [phase_update]
      exact ih ‹_›

/-- Nothing can happen in `s` but that a call of the main process fails. -/
def Idle (c : Config ι T A) (s : State ι T) : Prop :=
  ∀ a, a ≠ .fails → (loop c).step s a = none

omit [Fintype ι] in
/-- Where nothing can happen, nothing but a failure can. -/
theorem idle_of_stuck (h : (loop c).Stuck s) : Idle c s :=
  fun a _ => h a

omit [Fintype ι] in
/-- A main process that cannot go on waits for a connection, has left its loop or has died. -/
theorem Idle.pc_eq (h : Idle c s) :
    s.pc = .accept ∧ s.backlog = [] ∨ s.pc = .left ∨ s.pc = .died := by
  cases hpc : s.pc with
  | accept =>
    have haccept : step c s .accept = none := h .accept (by simp)
    cases hbacklog : s.backlog with
    | nil => exact .inl ⟨rfl, rfl⟩
    | cons i rest => simp [step, hpc, hbacklog] at haccept
  | fork i =>
    have hfork : step c s .fork = none := h .fork (by simp)
    simp [step, hpc] at hfork
  | close i =>
    have hclose : step c s .close = none := h .close (by simp)
    simp [step, hpc] at hclose
  | left => exact .inr (.inl rfl)
  | died => exact .inr (.inr rfl)

/-- When the loop accepts all clients, nothing holds a connection up but its own client and
worker. -/
theorem settled_of_idle (hqueue : 1 ≤ c.queueSize)
    (hlimit : ∀ n, c.limit = some n → Fintype.card ι ≤ n) (hs : (loop c).Reachable s)
    (h : Idle c s) (i : ι) :
    (s.conn i).phase.Settled ∧ ∀ a, c.own (s.conn i).phase (s.conn i).data a = none := by
  have hinv := inv_of_reachable hs
  have hown : ∀ a, c.own (s.conn i).phase (s.conn i).data a = none := by
    intro a
    have hstep : step c s (.own i a) = none := h (.own i a) (by simp)
    simpa [step] using hstep
  refine ⟨?_, hown⟩
  have haccepted := hinv.accepted_iff i
  have hshared := hinv.shared_iff i
  have hqueued := hinv.mem_backlog i
  obtain ⟨hpc, hbacklog⟩ | hpc | hpc := h.pc_eq
  · -- the listen queue has room, so nobody is left to connect
    have hfresh : (s.conn i).phase ≠ .fresh := by
      intro hfresh
      have hconnect : step c s (.connect i) = none := h (.connect i) (by simp)
      simp [step, hpc, hfresh, hbacklog] at hconnect
      omega
    rw [hpc] at haccepted hshared
    rw [hbacklog] at hqueued
    cases hp : (s.conn i).phase <;> simp_all [Phase.Settled]
  · -- all connections have been accepted
    have hcount := count_eq hs (by simp [hpc])
    have hle := hlimit s.count (hinv.left hpc)
    have htaken : (s.conn i).phase.taken = 1 := by
      by_contra hne
      have hlt : ∑ j, (s.conn j).phase.taken < ∑ _j : ι, 1 := by
        refine Finset.sum_lt_sum (fun j _ => ?_) ⟨i, Finset.mem_univ i, ?_⟩
        · cases (s.conn j).phase <;> simp [Phase.taken]
        · cases hp : (s.conn i).phase <;> simp_all [Phase.taken]
      rw [Finset.sum_const, Finset.card_univ, smul_eq_mul, mul_one] at hlt
      omega
    rw [hpc] at haccepted hshared
    cases hp : (s.conn i).phase <;> simp_all [Phase.Settled, Phase.taken]
  -- a server that has died has refused or dropped what it had not handed over
  · have hwaits := (hinv.died hpc).2 i
    rw [hpc] at haccepted hshared
    cases hp : (s.conn i).phase <;> simp_all [Phase.Settled]

/-- As long as the main process lives, it hands every connection to a worker. -/
theorem handed_of_idle (hqueue : 1 ≤ c.queueSize)
    (hlimit : ∀ n, c.limit = some n → Fintype.card ι ≤ n) (hs : (loop c).Reachable s)
    (h : Idle c s) (halive : s.pc ≠ .died) (i : ι) : (s.conn i).phase = .handed := by
  have hsettled := (settled_of_idle hqueue hlimit hs h i).1
  have hlost := (inv_of_reachable hs).lost i
  cases hp : (s.conn i).phase <;> simp_all [Phase.Settled]

/-- A loop with a connection for each client is left. -/
theorem left_of_stuck (hqueue : 1 ≤ c.queueSize) (hlimit : c.limit = some (Fintype.card ι))
    (hfail : c.mayFail = false) (hs : (loop c).Reachable s) (h : (loop c).Stuck s) :
    s.pc = .left := by
  have hinv := inv_of_reachable hs
  have hle : ∀ n, c.limit = some n → Fintype.card ι ≤ n := fun n hn =>
    (Option.some.inj (hlimit.symm.trans hn)).le
  obtain ⟨hpc, -⟩ | hpc | hpc := (idle_of_stuck h).pc_eq
  · -- all connections have been handed to workers, so the count is at the limit
    exfalso
    have hcount := count_eq hs (by simp [hpc])
    have htaken : ∀ i, (s.conn i).phase.taken = 1 := by
      intro i
      rw [handed_of_idle hqueue hle hs (idle_of_stuck h) (by simp [hpc]) i]
      rfl
    rw [Finset.sum_congr rfl fun i _ => htaken i, Finset.sum_const, Finset.card_univ, smul_eq_mul,
      mul_one] at hcount
    exact hinv.accept hpc (hcount ▸ hlimit)
  · exact hpc
  · have hdied := (hinv.died hpc).1
    rw [hfail] at hdied
    cases hdied

/-- A bound for the steps that are still to come, when `rank` is one for each conversation. -/
def State.rank (rank : T → ℕ) (s : State ι T) : ℕ :=
  ∑ i, ((s.conn i).phase.rank + rank (s.conn i).data) + if s.pc = .died then 0 else 1

/-- The death of the server lowers the rank. -/
theorem rank_die (rank : T → ℕ) (hpc : s.pc ≠ .died) : s.die.rank rank < s.rank rank := by
  have hle : ∑ i, ((s.die.conn i).phase.rank + rank (s.die.conn i).data) ≤
      ∑ i, ((s.conn i).phase.rank + rank (s.conn i).data) := by
    refine Finset.sum_le_sum fun i _ => Nat.add_le_add_right ?_ _
    cases hp : (s.conn i).phase <;> simp [State.die, Phase.lost, Phase.move, Phase.rank, hp]
  have hdied : s.die.pc = .died := rfl
  rw [State.rank, State.rank, if_pos hdied, if_neg hpc]
  omega

/-- A connection moves on to its next phase, or its conversation goes on. -/
theorem rank_step (rank : T → ℕ)
    (hrank : ∀ i conn a data, (one c.own (c.data i)).Reachable conn →
      c.own conn.phase conn.data a = some data → rank data < rank conn.data)
    {a : Action ι A} (hs : (loop c).Reachable s) (hstep : step c s a = some s') :
    s'.rank rank < s.rank rank := by
  have h := inv_of_reachable hs
  have hmoved := sum_setPhase (fun conn => conn.phase.rank + rank conn.data) s
  obtain ⟨j, rfl, hpc, hfresh, rfl⟩ | ⟨j, rest, rfl, hpc, hbacklog, rfl⟩ | ⟨j, rfl, hpc, rfl⟩ |
    ⟨j, rfl, hpc, rfl⟩ | ⟨rfl, hpc, -, rfl⟩ | ⟨j, b, data, rfl, hown, rfl⟩ := step_cases hstep
  · have hj := hmoved j .queued
    simp only [State.rank, hfresh, Phase.rank] at hj ⊢
    omega
  · have hqueued : (s.conn j).phase = .queued :=
      (h.mem_backlog j).mp (by rw [hbacklog]; exact List.mem_cons_self)
    have hj := hmoved j .accepted
    simp only [State.rank, hqueued, hpc, Phase.rank, reduceCtorEq] at hj ⊢
    omega
  · have hj := hmoved j .shared
    simp only [State.rank, (h.accepted_iff j).mpr hpc, hpc, Phase.rank, reduceCtorEq] at hj ⊢
    omega
  -- wherever the server goes on, it counts for 1 at most
  · have hj := hmoved j .handed
    have hnext : (if c.next s.count = .died then 0 else 1) ≤ 1 := by split <;> omega
    simp only [State.rank, (h.shared_iff j).mpr hpc, hpc, Phase.rank, reduceCtorEq,
      ↓reduceIte] at hj ⊢
    omega
  · refine rank_die rank ?_
    obtain hpc | ⟨i, hpc⟩ := hpc <;> simp [hpc]
  · have hj := Finset.sum_update_add (fun conn : Conn T => conn.phase.rank + rank conn.data) s.conn
      j { s.conn j with data := data }
    have hlt := hrank j (s.conn j) b data (reachable_conn hs j) hown
    simp only [State.rank] at hj ⊢
    omega

/-- Bounded conversations make bounded runs. -/
theorem length_run_le (rank : T → ℕ)
    (hrank : ∀ i conn a data, (one c.own (c.data i)).Reachable conn →
      c.own conn.phase conn.data a = some data → rank data < rank conn.data)
    {as : List (Action ι A)} (hrun : (loop c).run (loop c).init as = some s) :
    as.length ≤ ∑ i, (4 + rank (c.data i)) + 1 := by
  have hle := Reachable.length_run_le
    (fun s a s' hs (hstep : (loop c).step s a = some s') => rank_step rank hrank hs hstep)
    .init hrun
  refine (Nat.le_of_add_right_le hle).trans ?_
  have hinit : (loop c).init.rank rank =
      ∑ i, (4 + rank (c.data i)) + if (loop c).init.pc = .died then 0 else 1 := rfl
  rw [hinit]
  split <;> omega

end Loop

end AcceptLoop
