import OsPrograms.Lib.Printf
import OsPrograms.Lib.TransitionSystem

/-!
# `unix_dgram_logger`

The parent sends lines as datagrams to a socket from which its child receives as many datagrams as
there are lines, prints each and exits. `main` has three lines; here there are any number, and the
socket queues `capacity` datagrams. A `sendto` to a full queue waits. It waits for ever once the
child has exited: the parent has the receiving socket open itself, so the datagrams stay queued.

The socket has a name in the file system, under which other processes may send to it, too.

## Main results

- `logger_correct`: left alone, the child prints the parent's lines, all of them, once and in order.
- `logger_completes_iff`: runs are finite in the number of foreign datagrams; they always end with
  both processes having ended exactly when nobody else sends, or there is nothing to send.
-/

namespace UnixDgramLogger

open Printf TransitionSystem

structure Config where
  /-- The number of lines, 3 in `main`. -/
  lines : ℕ
  /-- The number of datagrams that the socket queues. -/
  capacity : ℕ
  /-- Other processes send to the socket. -/
  foreign : Bool
  lines_lt : lines < 0x80000000
  capacity_pos : 1 ≤ capacity

/-- What `"event=%d source=client\n"` formats. -/
def event (i : ℕ) : List Char :=
  ['e', 'v', 'e', 'n', 't', '='] ++ decimal i ++
    [' ', 's', 'o', 'u', 'r', 'c', 'e', '=', 'c', 'l', 'i', 'e', 'n', 't', '\n']

/-- The datagram of the parent's iteration `i`, from the array `line`. -/
def datagram (i : ℕ) : List Char :=
  let (len, line) := snprintf 64 (event (i + 1))
  (line ++ ['\x00']).take len

/-- `"logger received: "` -/
def label : List Char :=
  ['l', 'o', 'g', 'g', 'e', 'r', ' ', 'r', 'e', 'c', 'e', 'i', 'v', 'e', 'd', ':', ' ']

/-- What the child prints of a datagram, from the array `buffer`. -/
def report (text : List Char) : List Char :=
  label ++ cString (text.take 127 ++ ['\x00'])

/-- The parent: the next statement. -/
inductive ParentPc
  /-- The loop, in iteration `i`. -/
  | sendto (i : ℕ)
  /-- `wait_for_pid(child)` -/
  | wait
  | returned
  deriving DecidableEq, Repr

/-- The child: the next statement. -/
inductive ChildPc
  /-- The loop, in iteration `i`. -/
  | recv (i : ℕ)
  /-- `fflush(stdout)` and `_exit(0)` -/
  | exit
  | exited
  deriving DecidableEq, Repr

structure State where
  parent : ParentPc
  child : ChildPc
  /-- The datagrams in the socket. -/
  queue : List (List Char)
  /-- What the child has printed. -/
  printed : List (List Char)

inductive Action
  | parent
  | child
  /-- Another process sends `text`. -/
  | foreign (text : List Char)

/-- The test of the parent's loop. -/
def sendTest (c : Config) (i : ℕ) : ParentPc :=
  if i < c.lines then .sendto i else .wait

/-- The test of the child's loop. -/
def recvTest (c : Config) (i : ℕ) : ChildPc :=
  if i < c.lines then .recv i else .exit

def init (c : Config) : State where
  parent := sendTest c 0
  child := recvTest c 0
  queue := []
  printed := []

def parentStep (c : Config) (s : State) : Option State :=
  match s.parent with
  | .sendto i =>
    if s.queue.length < c.capacity then
      some { s with parent := sendTest c (i + 1), queue := s.queue ++ [datagram i] }
    else
      none
  | .wait => if s.child = .exited then some { s with parent := .returned } else none
  | .returned => none

def childStep (c : Config) (s : State) : Option State :=
  match s.child with
  | .recv i =>
    match s.queue with
    | text :: rest =>
      some { s with
        child := recvTest c (i + 1)
        queue := rest
        printed := s.printed ++ [report text] }
    | [] => none
  | .exit => some { s with child := .exited }
  | .exited => none

/-- Parent, child and the rest of the world. -/
def system (c : Config) : TransitionSystem State Action where
  init := init c
  step s
    | .parent => parentStep c s
    | .child => childStep c s
    | .foreign text =>
      if c.foreign ∧ s.queue.length < c.capacity then
        some { s with queue := s.queue ++ [text] }
      else
        none

/-! ## The lines -/

/-- A line fits the buffer of the parent. -/
theorem length_event_le {i : ℕ} (hi : i ≤ 0x80000000) : (event i).length ≤ 31 := by
  have hdigits : (decimal i).length ≤ 10 := (length_decimal_le_iff (by decide)).mpr (by omega)
  simp only [event, List.length_append, List.length_cons, List.length_nil]
  omega

/-- A line is a string. -/
theorem nul_notMem_event (i : ℕ) : '\x00' ∉ event i := by
  have hdigits : '\x00' ∉ decimal i := fun h => absurd (isDigit_of_mem_decimal h) (by decide)
  simp [event, hdigits]

/-- `line` holds the whole text. -/
theorem datagram_eq {i : ℕ} (hi : i < 0x80000000) : datagram i = event (i + 1) := by
  have hlength : (event (i + 1)).length ≤ 31 := length_event_le hi
  have hstored : (snprintf 64 (event (i + 1))).2 = event (i + 1) :=
    (snprintf_stored_eq_iff (by decide)).mpr (by omega)
  change ((snprintf 64 (event (i + 1))).2 ++ ['\x00']).take (event (i + 1)).length = _
  rw [hstored, List.take_left]

/-- `buffer` holds the whole datagram. -/
theorem report_datagram {i : ℕ} (hi : i < 0x80000000) :
    report (datagram i) = label ++ event (i + 1) := by
  have hlength : (event (i + 1)).length ≤ 31 := length_event_le hi
  rw [report, datagram_eq hi, List.take_of_length_le (by omega),
    cString_terminated (nul_notMem_event (i + 1))]

/-! ## Without other senders -/

/-- The number of datagrams that the parent has sent. -/
def ParentPc.sent (c : Config) : ParentPc → ℕ
  | .sendto i => i
  | .wait | .returned => c.lines

/-- The number of datagrams that the child has received. -/
def ChildPc.received (c : Config) : ChildPc → ℕ
  | .recv i => i
  | .exit | .exited => c.lines

/-- A loop is not entered beyond its bound. -/
structure InBounds (c : Config) (s : State) : Prop where
  parent : ∀ i, s.parent = .sendto i → i < c.lines
  child : ∀ i, s.child = .recv i → i < c.lines
  /-- `wait_for_pid` returns after the child has exited. -/
  returned : s.parent = .returned → s.child = .exited

section Steps

variable {c : Config} {s s' : State} {a : Action}

/-- The parent sends as long as lines are left. -/
theorem sendTest_cases (c : Config) (i : ℕ) :
    (i < c.lines ∧ sendTest c i = .sendto i) ∨ (c.lines ≤ i ∧ sendTest c i = .wait) := by
  unfold sendTest
  split
  next h => exact .inl ⟨h, rfl⟩
  next h => exact .inr ⟨not_lt.mp h, rfl⟩

/-- The child receives as long as lines are missing. -/
theorem recvTest_cases (c : Config) (i : ℕ) :
    (i < c.lines ∧ recvTest c i = .recv i) ∨ (c.lines ≤ i ∧ recvTest c i = .exit) := by
  unfold recvTest
  split
  next h => exact .inl ⟨h, rfl⟩
  next h => exact .inr ⟨not_lt.mp h, rfl⟩

theorem sent_sendTest {i : ℕ} (hi : i ≤ c.lines) : (sendTest c i).sent c = i := by
  obtain ⟨-, h⟩ | ⟨hle, h⟩ := sendTest_cases c i
  · rw [h]
    rfl
  · rw [h]
    exact le_antisymm hle hi

theorem received_recvTest {i : ℕ} (hi : i ≤ c.lines) : (recvTest c i).received c = i := by
  obtain ⟨-, h⟩ | ⟨hle, h⟩ := recvTest_cases c i
  · rw [h]
    rfl
  · rw [h]
    exact le_antisymm hle hi

/-- The cases of a step. -/
theorem step_cases (hs : (system c).step s a = some s') :
    (∃ i, a = .parent ∧ s.parent = .sendto i ∧ s.queue.length < c.capacity ∧
      s' = { s with parent := sendTest c (i + 1), queue := s.queue ++ [datagram i] }) ∨
    (a = .parent ∧ s.parent = .wait ∧ s.child = .exited ∧ s' = { s with parent := .returned }) ∨
    (∃ i text rest, a = .child ∧ s.child = .recv i ∧ s.queue = text :: rest ∧
      s' = ⟨s.parent, recvTest c (i + 1), rest, s.printed ++ [report text]⟩) ∨
    (a = .child ∧ s.child = .exit ∧ s' = { s with child := .exited }) ∨
    (∃ text, a = .foreign text ∧ c.foreign = true ∧ s.queue.length < c.capacity ∧
      s' = { s with queue := s.queue ++ [text] }) := by
  cases a with
  | parent =>
    simp only [system, parentStep] at hs
    split at hs
    next i hpc =>
      simp only [Option.ite_none_right_eq_some, Option.some.injEq] at hs
      exact .inl ⟨i, rfl, hpc, hs.1, hs.2.symm⟩
    next hpc =>
      simp only [Option.ite_none_right_eq_some, Option.some.injEq] at hs
      exact .inr (.inl ⟨rfl, hpc, hs.1, hs.2.symm⟩)
    next => cases hs
  | child =>
    simp only [system, childStep] at hs
    split at hs
    next i hpc =>
      split at hs
      next text rest hqueue =>
        exact .inr (.inr (.inl ⟨i, text, rest, rfl, hpc, hqueue, (Option.some.inj hs).symm⟩))
      next => cases hs
    next hpc => exact .inr (.inr (.inr (.inl ⟨rfl, hpc, (Option.some.inj hs).symm⟩)))
    next => cases hs
  | foreign text =>
    simp only [system, Option.ite_none_right_eq_some, Option.some.injEq] at hs
    exact .inr (.inr (.inr (.inr ⟨text, rfl, hs.1.1, hs.1.2, hs.2.symm⟩)))

/-- The loops stay in their bounds along every run. -/
theorem inBounds_of_reachable (h : (system c).Reachable s) : InBounds c s := by
  refine h.invariant ⟨fun i hi => ?_, fun i hi => ?_, fun hr => ?_⟩ fun s a s' hb hs => ?_
  · obtain ⟨hlt, hpc⟩ | ⟨-, hpc⟩ := sendTest_cases c 0 <;> simp_all [system, init]
  · obtain ⟨hlt, hpc⟩ | ⟨-, hpc⟩ := recvTest_cases c 0 <;> simp_all [system, init]
  · obtain ⟨-, hpc⟩ | ⟨-, hpc⟩ := sendTest_cases c 0 <;> simp_all [system, init]
  · obtain ⟨hparent, hchild, hreturned⟩ := hb
    obtain ⟨i, -, hpc, -, rfl⟩ | ⟨-, hpc, hexited, rfl⟩ | ⟨i, text, rest, -, hpc, -, rfl⟩ |
      ⟨-, hpc, rfl⟩ | ⟨text, -, -, -, rfl⟩ := step_cases hs
    · obtain ⟨hlt, htest⟩ | ⟨-, htest⟩ := sendTest_cases c (i + 1) <;>
        refine ⟨?_, hchild, ?_⟩ <;> simp_all
    · exact ⟨by simp, hchild, fun _ => hexited⟩
    · obtain ⟨hlt, htest⟩ | ⟨-, htest⟩ := recvTest_cases c (i + 1) <;>
        refine ⟨hparent, ?_, ?_⟩ <;> simp_all
    · exact ⟨hparent, by simp, fun _ => rfl⟩
    · exact ⟨hparent, hchild, hreturned⟩

/-- What has been sent has been received or is queued. -/
structure Inv (c : Config) (s : State) : Prop where
  received_le : s.child.received c ≤ s.parent.sent c
  queue_eq : s.queue =
    (List.range' (s.child.received c) (s.parent.sent c - s.child.received c)).map datagram
  printed_eq : s.printed = (List.range (s.child.received c)).map fun i => report (datagram i)

/-- Left alone, what is sent is in the queue or has been received, in order. -/
theorem inv_of_reachable (hforeign : c.foreign = false) (h : (system c).Reachable s) :
    Inv c s := by
  refine h.invariant' ?_ fun s a s' hreach hinv hs => ?_
  · have hsent : (sendTest c 0).sent c = 0 := sent_sendTest (Nat.zero_le _)
    have hreceived : (recvTest c 0).received c = 0 := received_recvTest (Nat.zero_le _)
    exact ⟨by simp [system, init, hsent, hreceived], by simp [system, init, hsent, hreceived],
      by simp [system, init, hreceived]⟩
  · obtain ⟨hle, hqueue, hprinted⟩ := hinv
    have hb := inBounds_of_reachable hreach
    obtain ⟨i, -, hpc, -, rfl⟩ | ⟨-, hpc, -, rfl⟩ | ⟨i, text, rest, -, hpc, hcons, rfl⟩ |
      ⟨-, hpc, rfl⟩ | ⟨text, -, hf, -, rfl⟩ := step_cases hs
    · have hsent : (sendTest c (i + 1)).sent c = i + 1 := sent_sendTest (hb.parent i hpc)
      rw [hpc] at hle hqueue
      simp only [ParentPc.sent] at hle hqueue
      refine ⟨?_, ?_, hprinted⟩
      · simp only [hsent]
        omega
      · have hcount : i + 1 - s.child.received c = i - s.child.received c + 1 := by omega
        have hlast : s.child.received c + (i - s.child.received c) = i := by omega
        simp only [hsent, hqueue, hcount, List.range'_1_concat, List.map_append, hlast,
          List.map_singleton]
    · rw [hpc] at hle hqueue
      exact ⟨hle, hqueue, hprinted⟩
    · have hreceived : (recvTest c (i + 1)).received c = i + 1 :=
        received_recvTest (hb.child i hpc)
      rw [hpc] at hle hqueue hprinted
      simp only [ChildPc.received] at hle hqueue hprinted
      -- the queue is not empty, so the next datagram has been sent
      have hlt : i < s.parent.sent c := by
        by_contra hge
        have hzero : s.parent.sent c - i = 0 := by omega
        rw [hcons, hzero] at hqueue
        cases hqueue
      have hcount : s.parent.sent c - i = s.parent.sent c - (i + 1) + 1 := by omega
      rw [hcons, hcount, List.range'_succ, List.map_cons, List.cons.injEq] at hqueue
      refine ⟨?_, ?_, ?_⟩
      · simp only [hreceived]
        exact hlt
      · simp only [hreceived]
        exact hqueue.2
      · simp only [hreceived, List.range_succ, List.map_append, List.map_singleton, hprinted,
          hqueue.1]
    · rw [hpc] at hle hqueue hprinted
      exact ⟨hle, hqueue, hprinted⟩
    · rw [hforeign] at hf
      cases hf

/-- Left alone, the child prints the lines of the parent in order, each once, and when the parent
has returned it has printed all of them. -/
theorem logger_correct (hforeign : c.foreign = false) (h : (system c).Reachable s) :
    (∃ k ≤ c.lines, s.printed = (List.range k).map fun i => label ++ event (i + 1)) ∧
      (s.parent = .returned → s.printed.length = c.lines ∧ s.queue = []) := by
  have hinv := inv_of_reachable hforeign h
  have hb := inBounds_of_reachable h
  have hle : s.child.received c ≤ c.lines := by
    cases hpc : s.child with
    | recv i => exact (hb.child i hpc).le
    | exit | exited => exact le_refl _
  refine ⟨⟨s.child.received c, hle, ?_⟩, fun hreturned => ?_⟩
  · rw [hinv.printed_eq]
    refine List.map_congr_left fun i hi => report_datagram ?_
    have hlt := List.mem_range.mp hi
    have hmax := c.lines_lt
    omega
  · have hqueue := hinv.queue_eq
    have hprinted := hinv.printed_eq
    rw [hreturned, hb.returned hreturned] at hqueue
    rw [hb.returned hreturned] at hprinted
    simp only [ParentPc.sent, ChildPc.received, Nat.sub_self, List.range'_zero, List.map_nil]
      at hqueue hprinted
    rw [hprinted, List.length_map, List.length_range]
    exact ⟨rfl, hqueue⟩

end Steps

/-- Two lines through a queue of one datagram. -/
def twoLines : Config where
  lines := 2
  capacity := 1
  foreign := false
  lines_lt := by decide
  capacity_pos := Nat.one_pos

/-- The second line is sent when the child has received the first. -/
theorem logger_correct_two_lines :
    ∃ s, (system twoLines).Reachable s ∧ s.parent = .returned ∧ s.printed.length = 2 := by
  have hrun : ((system twoLines).run (init twoLines)
      [.parent, .child, .parent, .child, .child, .parent]).map (·.parent) =
      some .returned := by decide
  obtain ⟨s, hs, hparent⟩ := Option.map_eq_some_iff.mp hrun
  have hreach : (system twoLines).Reachable s := reachable_of_run hs
  exact ⟨s, hreach, hparent, ((logger_correct rfl hreach).2 hparent).1⟩

/-! ## Termination and deadlock -/

/-- Both processes have ended. -/
def Finished (s : State) : Prop :=
  s.parent = .returned ∧ s.child = .exited

/-- A step of one of the two processes. -/
def Action.isOwn : Action → Bool
  | .parent | .child => true
  | .foreign _ => false

/-- The steps that the parent will still make. -/
def ParentPc.rank (c : Config) : ParentPc → ℕ
  | .sendto i => c.lines - i + 1
  | .wait => 1
  | .returned => 0

/-- The steps that the child will still make. -/
def ChildPc.rank (c : Config) : ChildPc → ℕ
  | .recv i => c.lines - i + 1
  | .exit => 1
  | .exited => 0

section Progress

variable {c : Config} {s s' : State} {a : Action}

theorem rank_sendTest (c : Config) (i : ℕ) : (sendTest c i).rank c = c.lines - i + 1 := by
  obtain ⟨-, h⟩ | ⟨hle, h⟩ := sendTest_cases c i
  · rw [h]
    rfl
  · rw [h, Nat.sub_eq_zero_of_le hle]
    rfl

theorem rank_recvTest (c : Config) (i : ℕ) : (recvTest c i).rank c = c.lines - i + 1 := by
  obtain ⟨-, h⟩ | ⟨hle, h⟩ := recvTest_cases c i
  · rw [h]
    rfl
  · rw [h, Nat.sub_eq_zero_of_le hle]
    rfl

/-- A step of the parent or of the child is one of those that were counted. -/
theorem rank_step (h : (system c).Reachable s) (hs : (system c).step s a = some s') :
    (if a.isOwn then 1 else 0) + (s'.parent.rank c + s'.child.rank c) =
      s.parent.rank c + s.child.rank c := by
  have hb := inBounds_of_reachable h
  obtain ⟨i, rfl, hpc, -, rfl⟩ | ⟨rfl, hpc, -, rfl⟩ | ⟨i, text, rest, rfl, hpc, -, rfl⟩ |
    ⟨rfl, hpc, rfl⟩ | ⟨text, rfl, -, -, rfl⟩ := step_cases hs
  · have hlt := hb.parent i hpc
    have hrank : s.parent.rank c = c.lines - i + 1 := by rw [hpc]; rfl
    simp only [rank_sendTest, hrank, Action.isOwn, if_true]
    omega
  · simp only [hpc, ParentPc.rank, Action.isOwn, if_true]
    omega
  · have hlt := hb.child i hpc
    have hrank : s.child.rank c = c.lines - i + 1 := by rw [hpc]; rfl
    simp only [rank_recvTest, hrank, Action.isOwn, if_true]
    omega
  · simp only [hpc, ChildPc.rank, Action.isOwn, if_true]
    omega
  · exact Nat.zero_add _

/-- A child that cannot go on waits for a datagram or has exited. -/
theorem child_of_stuck (h : (system c).Stuck s) :
    (∃ i, s.child = .recv i ∧ s.queue = []) ∨ s.child = .exited := by
  have hchild : childStep c s = none := h .child
  cases hpc : s.child with
  | recv i =>
    cases hqueue : s.queue with
    | nil => exact .inl ⟨i, rfl, rfl⟩
    | cons text rest => simp [childStep, hpc, hqueue] at hchild
  | exit => simp [childStep, hpc] at hchild
  | exited => exact .inr rfl

/-- Left alone, the two processes do not wait for each other. -/
theorem finished_of_stuck (hforeign : c.foreign = false) (hs : (system c).Reachable s)
    (h : (system c).Stuck s) : Finished s := by
  have hinv := inv_of_reachable hforeign hs
  have hb := inBounds_of_reachable hs
  have hparent : parentStep c s = none := h .parent
  have hle := hinv.received_le
  have hqueue := hinv.queue_eq
  cases hpc : s.parent with
  | sendto i =>
    exfalso
    have hfull : c.capacity ≤ s.queue.length := by
      simpa [parentStep, hpc] using hparent
    have hcapacity := c.capacity_pos
    obtain ⟨j, -, hempty⟩ | hexited := child_of_stuck h
    · rw [hempty, List.length_nil] at hfull
      omega
    · -- the child has received more than was sent
      have hlt := hb.parent i hpc
      rw [hpc, hexited] at hle
      exact absurd hle (not_le.mpr hlt)
  | wait =>
    exfalso
    obtain ⟨j, hchild, hempty⟩ | hexited := child_of_stuck h
    -- everything has been sent, and what the child has not received is in the queue
    · have hlt := hb.child j hchild
      have hlength := congrArg List.length hqueue
      rw [hempty, hpc, hchild, List.length_map, List.length_range'] at hlength
      simp only [ParentPc.sent, ChildPc.received, List.length_nil] at hlength
      omega
    · simp [parentStep, hpc, hexited] at hparent
  | returned => exact ⟨hpc, hb.returned hpc⟩

/-- Without lines there is nothing to wait for. -/
theorem finished_of_no_lines (hlines : c.lines = 0) (hs : (system c).Reachable s)
    (h : (system c).Stuck s) : Finished s := by
  have hb := inBounds_of_reachable hs
  have hparent : parentStep c s = none := h .parent
  have hexited : s.child = .exited := by
    obtain ⟨j, hchild, -⟩ | hexited := child_of_stuck h
    · exact absurd (hb.child j hchild) (by omega)
    · exact hexited
  cases hpc : s.parent with
  | sendto i => exact absurd (hb.parent i hpc) (by omega)
  | wait => simp [parentStep, hpc, hexited] at hparent
  | returned => exact ⟨hpc, hexited⟩

/-- Other processes can feed the child before the parent sends anything. -/
theorem exists_fed (hforeign : c.foreign = true) (hlines : 0 < c.lines) {k : ℕ}
    (hk : k ≤ c.lines) :
    ∃ s, (system c).Reachable s ∧ s.parent = .sendto 0 ∧ s.child = recvTest c k ∧
      s.queue = [] := by
  induction k with
  | zero => exact ⟨init c, .init, if_pos hlines, rfl, rfl⟩
  | succ k ih =>
    obtain ⟨s, hs, hparent, hchild, hqueue⟩ := ih (by omega)
    have hrecv : s.child = .recv k := hchild.trans (if_pos hk)
    have hroom : s.queue.length < c.capacity := by
      rw [hqueue]
      exact c.capacity_pos
    have hsend : (system c).step s (.foreign []) = some { s with queue := s.queue ++ [[]] } :=
      if_pos ⟨hforeign, hroom⟩
    have hrecv : (system c).step { s with queue := s.queue ++ [[]] } .child =
        some ⟨s.parent, recvTest c (k + 1), [], s.printed ++ [report []]⟩ := by
      simp [system, childStep, hrecv, hqueue]
    exact ⟨_, (hs.next hsend).next hrecv, hparent, rfl, rfl⟩

/-- After that they can fill the queue. -/
theorem exists_full (hforeign : c.foreign = true) (hlines : 0 < c.lines) {k : ℕ}
    (hk : k ≤ c.capacity) :
    ∃ s, (system c).Reachable s ∧ s.parent = .sendto 0 ∧ s.child = .exited ∧
      s.queue.length = k := by
  induction k with
  | zero =>
    obtain ⟨s, hs, hparent, hchild, hqueue⟩ := exists_fed hforeign hlines (le_refl c.lines)
    have hexit : s.child = .exit := hchild.trans (if_neg (lt_irrefl _))
    have hgone : (system c).step s .child = some { s with child := .exited } := by
      simp [system, childStep, hexit]
    exact ⟨_, hs.next hgone, hparent, rfl, by simp [hqueue]⟩
  | succ k ih =>
    obtain ⟨s, hs, hparent, hchild, hlength⟩ := ih (by omega)
    have hsend : (system c).step s (.foreign []) = some { s with queue := s.queue ++ [[]] } :=
      if_pos ⟨hforeign, hlength.trans_lt hk⟩
    exact ⟨_, hs.next hsend, hparent, hchild, by simp [hlength]⟩

/-- The two processes make at most two steps for each line and two more. Whatever run they make, it
can go on until both have ended, exactly when nobody else sends to the socket or there is nothing to
send: others may have the child exit early and fill the queue, and `sendto` waits for ever. -/
theorem logger_completes_iff (c : Config) :
    (∀ as s, (system c).run (init c) as = some s → as.countP Action.isOwn ≤ 2 * c.lines + 2) ∧
      ((∀ s, (system c).Reachable s → (system c).Stuck s → Finished s) ↔
        c.foreign = false ∨ c.lines = 0) := by
  refine ⟨fun as s hrun => ?_, fun h => ?_, ?_⟩
  · have hcount := Reachable.countP_run_eq (fun s => s.parent.rank c + s.child.rank c) Action.isOwn
      (fun s a s' hs (hstep : (system c).step s a = some s') => rank_step hs hstep) .init hrun
    have hinit : (init c).parent.rank c + (init c).child.rank c = 2 * c.lines + 2 := by
      simp only [init, rank_sendTest, rank_recvTest]
      omega
    have hsum : as.countP Action.isOwn + (s.parent.rank c + s.child.rank c) =
        (init c).parent.rank c + (init c).child.rank c := hcount
    omega
  · by_contra hneither
    obtain ⟨hforeign, hlines⟩ := not_or.mp hneither
    obtain ⟨s, hs, hparent, hchild, hlength⟩ := exists_full (k := c.capacity)
      (by simpa using hforeign) (Nat.pos_of_ne_zero hlines) (le_refl _)
    have hstuck : (system c).Stuck s := by
      intro a
      cases a <;> simp [system, parentStep, childStep, hparent, hchild, hlength]
    rw [(h s hs hstuck).1] at hparent
    cases hparent
  · rintro (hforeign | hlines) s hs hstuck
    · exact finished_of_stuck hforeign hs hstuck
    · exact finished_of_no_lines hlines hs hstuck

end Progress

end UnixDgramLogger
