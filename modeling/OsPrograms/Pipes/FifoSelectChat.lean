import OsPrograms.Lib.MessageLog
import OsPrograms.Lib.Printf
import OsPrograms.Lib.TransitionSystem

/-!
# Chat over two FIFOs (`fifo_select_chat`)

The parent is `peer-A`, its child `peer-B`. Each writes to its own FIFO and reads the other one:

```
for (i = 0; i < n; i++) { write_all(message i + 1); select(rx); read(rx, in, 95); }
```

and the parent waits for the child afterwards, with its write end still open. One `read` takes
all the messages that are there, so a peer may need fewer reads than the other one has written
messages. The parent can afford this, because the child closes its FIFO when it exits. The child
cannot: once it has taken two messages at once, it is one message short in its last round, and
waits in `select` for a parent that waits for it.

* `Inv` relates the bytes in the FIFOs and the text printed to the rounds of both peers, along
  every run.
* `Inv.not_deadlocked`: no deadlock is possible unless the child has taken more messages than it
  has made reads.
* `exists_lagging_of_le`, `Lagging.deadlocked`: the deadlocking schedule, for any number of rounds
  from two on.
-/

namespace FifoSelectChat

/-- The two peers. -/
inductive Side
  /-- `peer-A`, the parent. -/
  | A
  /-- `peer-B`, the child. -/
  | B
  deriving DecidableEq, Repr

/-- The peer at the other end. -/
def Side.other : Side → Side
  | A => B
  | B => A

/-- The first argument of `peer`. -/
def Side.name : Side → List Char
  | A => "peer-A".toList
  | B => "peer-B".toList

/-- The next statement of a process. -/
inductive Pc
  /-- `open(rx_path, O_RDONLY | O_NONBLOCK)` -/
  | openRx
  /-- `open(tx_path, O_WRONLY)` -/
  | openTx
  | write
  | select
  | read
  /-- `peer` has returned; the child is about to exit, the parent in `wait_for_pid`. -/
  | returned
  /-- The parent removes the FIFOs. -/
  | unlink
  | exited
  deriving DecidableEq, Repr

/-- A process in `peer`. -/
structure Peer where
  pc : Pc
  /-- The loop variable. -/
  i : ℕ
  /-- The contents of `in` that were printed. -/
  printed : List (List Char)
  deriving DecidableEq, Repr

/-- The state of both processes. -/
structure State where
  /-- The unread bytes of the FIFO that a peer writes. -/
  fifo : Side → List Char
  peer : Side → Peer

/-- The number of rounds, an `int`. -/
structure Rounds where
  n : ℕ
  one_le : 1 ≤ n
  lt : n < 2 ^ 31

/-! ## The program -/

/-- What `snprintf` makes of `"%s message %d\n"`. -/
def message (x : Side) (k : ℕ) : List Char :=
  x.name ++ " message ".toList ++ Printf.decimal k ++ ['\n']

/-- The peer has its end of the FIFO it reads open. -/
def Pc.RxOpen (pc : Pc) : Prop :=
  pc ≠ openRx ∧ pc ≠ exited

instance (pc : Pc) : Decidable pc.RxOpen :=
  inferInstanceAs (Decidable (_ ∧ _))

/-- A peer at the test of its loop. -/
def loopTest (n i : ℕ) : Pc :=
  if i < n then .write else .returned

/-- The peer after its `read` has stored `input` in `in`. -/
def Peer.receive (n : ℕ) (p : Peer) (input : List Char) : Peer where
  pc := loopTest n (p.i + 1)
  i := p.i + 1
  printed := if input = [] then p.printed else p.printed ++ [input]

def init : State where
  fifo := fun _ => []
  peer := fun _ => { pc := .openRx, i := 0, printed := [] }

/-- Process `x` goes on at `pc`. -/
def State.goto (s : State) (x : Side) (pc : Pc) : State :=
  { s with peer := Function.update s.peer x { s.peer x with pc := pc } }

/-- The next statement of process `x`, `none` while it is blocked and after its exit. -/
def step (n : ℕ) (s : State) (x : Side) : Option State :=
  match (s.peer x).pc with
  -- with `O_NONBLOCK` a read end opens without waiting for a writer
  | .openRx => some (s.goto x .openTx)
  | .openTx =>
    -- blocks until the FIFO has a reader
    if (s.peer x.other).pc.RxOpen then some (s.goto x (loopTest n 0)) else none
  | .write =>
    if (s.peer x.other).pc.RxOpen then
      some
        { fifo := Function.update s.fifo x (s.fifo x ++ message x ((s.peer x).i + 1))
          peer := Function.update s.peer x { s.peer x with pc := .select } }
    else
      some (s.goto x .exited) -- killed by `SIGPIPE`
  | .select =>
    -- `rx` is ready when it has data, and at end of file, when its writer has exited
    if s.fifo x.other ≠ [] ∨ (s.peer x.other).pc = .exited then some (s.goto x .read) else none
  | .read =>
    some
      { fifo := Function.update s.fifo x.other ((s.fifo x.other).drop 95)
        peer := Function.update s.peer x ((s.peer x).receive n ((s.fifo x.other).take 95)) }
  | .returned =>
    match x with
    -- `wait_for_pid`, with both descriptors of the parent still open
    | .A => if (s.peer .B).pc = .exited then some (s.goto .A .unlink) else none
    | .B => some (s.goto .B .exited)
  | .unlink => some (s.goto x .exited)
  | .exited => none

/-- Both processes, interleaved; an action is the process that moves. -/
def chat (r : Rounds) : TransitionSystem State Side where
  init := init
  step := step r.n

/-- A process has not terminated, and none can take a step. -/
def Deadlocked (r : Rounds) (s : State) : Prop :=
  (∃ x, (s.peer x).pc ≠ .exited) ∧ (chat r).Stuck s

/-- The step, if it is a `read` of the child, finds at most one message in its FIFO. -/
def ReadsSingly (s : State) (x : Side) : Prop :=
  x = .B → (s.peer .B).pc = .read → (s.fifo .A).count '\n' ≤ 1

/-! ## Messages -/

theorem message_ne_nil (x : Side) (k : ℕ) : message x k ≠ [] := by
  simp [message]

/-- A message fits `out[96]`. -/
theorem length_message_le (x : Side) {k : ℕ} (hk : k < 2 ^ 31) : (message x k).length ≤ 26 := by
  -- an `int` has at most ten digits
  have hdigits : (Printf.decimal k).length ≤ 10 :=
    (Printf.length_decimal_le_iff (by decide)).mpr (by omega)
  have hname : x.name.length = 6 := by cases x <;> rfl
  simp only [message, List.length_append, hname]
  simp
  omega

/-- A message is one line. -/
theorem count_message (x : Side) (k : ℕ) : (message x k).count '\n' = 1 := by
  have hdigits : (Printf.decimal k).count '\n' = 0 :=
    List.count_eq_zero.mpr fun hmem => absurd (Printf.isDigit_of_mem_decimal hmem) (by decide)
  have hname : x.name.count '\n' = 0 := by cases x <;> decide
  simp only [message, List.count_append, hdigits, hname]
  decide

/-! ## The invariant -/

namespace Peer

/-- The peer has written a message and not yet read in this round. -/
def Waiting (p : Peer) : Prop :=
  p.pc = .select ∨ p.pc = .read

instance (p : Peer) : Decidable p.Waiting :=
  inferInstanceAs (Decidable (_ ∨ _))

/-- The number of messages the peer has written. -/
def sent (p : Peer) : ℕ :=
  p.i + if p.Waiting then 1 else 0

/-- The number of messages the peer has read. -/
def taken (p : Peer) : ℕ :=
  p.printed.flatten.count '\n'

/-- The range of the loop variable. -/
def Bound (n : ℕ) (p : Peer) : Prop :=
  match p.pc with
  | .openRx | .openTx => p.i = 0
  | .write | .select | .read => p.i < n
  | .returned | .unlink | .exited => p.i = n

theorem sent_le (p : Peer) : p.sent ≤ p.i + 1 := by
  unfold sent
  split_ifs <;> omega

theorem le_sent (p : Peer) : p.i ≤ p.sent :=
  Nat.le_add_right _ _

/-- A peer sends one message in each round. -/
theorem Bound.sent_le {n : ℕ} {p : Peer} (h : p.Bound n) : p.sent ≤ n := by
  obtain ⟨pc, i, printed⟩ := p
  cases pc <;> simp_all [Bound, sent, Waiting]
  all_goals omega

end Peer

/-- What holds of peer `x` in the state `p` while the other peer is in the state `q`, and `inbox`
is in the FIFO between them. -/
structure Half (n : ℕ) (x : Side) (p q : Peer) (inbox : List Char) : Prop where
  inbox_eq : inbox = MessageLog.span (message x.other) p.taken q.sent
  printed_eq : p.printed.flatten = MessageLog.span (message x.other) 0 p.taken
  taken_le : p.taken ≤ q.sent
  /-- Every read has taken at least one message. -/
  round_le : p.i ≤ p.taken
  bound : p.Bound n
  /-- `select` has returned for a reason. -/
  ready : p.pc = .read → p.taken < q.sent ∨ q.pc = .exited
  /-- The write end is opened after the other peer's read end. -/
  opened : p.pc ≠ .openRx → p.pc ≠ .openTx → q.pc ≠ .openRx
  /-- The parent exits after the child. -/
  order : p.pc = .unlink ∨ p.pc = .exited → x = .B ∨ q.pc = .exited

/-- The invariant of all runs. -/
structure Inv (n : ℕ) (s : State) : Prop where
  half : ∀ x, Half n x (s.peer x) (s.peer x.other) (s.fifo x.other)
  /-- Peers that both wait have a message on its way. -/
  pending : ∀ x, (s.peer x).Waiting → (s.peer x.other).Waiting →
    (s.peer x).taken < (s.peer x.other).sent ∨ (s.peer x.other).taken < (s.peer x).sent

section Half

variable {n : ℕ} {x : Side} {p p' q q' : Peer} {inbox : List Char}

/-- The other peer may move on without writing. -/
theorem Half.of_other (h : Half n x p q inbox) (hsent : q'.sent = q.sent)
    (hopen : q'.pc ≠ .openRx) (hexit : q.pc ≠ .exited) : Half n x p q' inbox where
  inbox_eq := by rw [hsent]; exact h.inbox_eq
  printed_eq := h.printed_eq
  taken_le := by rw [hsent]; exact h.taken_le
  round_le := h.round_le
  bound := h.bound
  ready hread := by
    rw [hsent]
    exact .inl ((h.ready hread).resolve_right hexit)
  opened _ _ := hopen
  order hend := .inl ((h.order hend).resolve_right hexit)

/-- The other peer may write its next message. -/
theorem Half.of_other_writes (h : Half n x p q inbox) (hpc : q.pc = .write) :
    Half n x p { q with pc := .select } (inbox ++ message x.other (q.i + 1)) := by
  have hsent : q.sent = q.i := by simp [Peer.sent, Peer.Waiting, hpc]
  have hsent' : ({ q with pc := .select } : Peer).sent = q.i + 1 := rfl
  have htaken := hsent ▸ h.taken_le
  refine
    { inbox_eq := ?_
      printed_eq := h.printed_eq
      taken_le := ?_
      round_le := h.round_le
      bound := h.bound
      ready := ?_
      opened := nofun
      order := ?_ }
  · rw [hsent', MessageLog.span_succ _ htaken, ← hsent, ← h.inbox_eq]
  · rw [hsent']
    exact htaken.trans (Nat.le_succ _)
  · rw [hsent']
    exact fun _ => .inl (Nat.lt_succ_of_le htaken)
  · intro hend
    refine .inl ((h.order hend).resolve_right ?_)
    rw [hpc]
    exact nofun

/-- The peer itself may move on without reading. -/
theorem Half.goto {pc : Pc} (h : Half n x p q inbox) (hbound : Peer.Bound n { p with pc := pc })
    (hready : pc = .read → p.taken < q.sent ∨ q.pc = .exited)
    (hopened : pc ≠ .openRx → pc ≠ .openTx → q.pc ≠ .openRx)
    (horder : pc = .unlink ∨ pc = .exited → x = .B ∨ q.pc = .exited) :
    Half n x { p with pc := pc } q inbox where
  inbox_eq := h.inbox_eq
  printed_eq := h.printed_eq
  taken_le := h.taken_le
  round_le := h.round_le
  bound := hbound
  ready := hready
  opened := hopened
  order := horder

/-- The inbox holds at most two messages. -/
theorem Half.sent_le {inbox' : List Char} (h : Half n x p q inbox)
    (h' : Half n x.other q p inbox') : q.sent ≤ p.taken + 2 := by
  -- each peer writes once in a round, and in each round it has taken at least one message
  have := q.sent_le
  have := h'.round_le
  have := h'.taken_le
  have := p.sent_le
  have := h.round_le
  omega

/-- One `read` takes the whole inbox. -/
theorem Half.length_inbox_le {inbox' : List Char} (h : Half n x p q inbox)
    (h' : Half n x.other q p inbox') (hlt : n < 2 ^ 31) : inbox.length ≤ 95 := by
  have hsent := h'.bound.sent_le
  have hmsg : ∀ k ≤ q.sent, (message x.other k).length ≤ 26 :=
    fun k hk => length_message_le _ (by omega)
  have hlen := MessageLog.length_span_le _ hmsg h.taken_le
  have hunread := h.sent_le h'
  rw [h.inbox_eq]
  omega

/-- The inbox is empty when all messages have been taken. -/
theorem Half.inbox_eq_nil_iff (h : Half n x p q inbox) : inbox = [] ↔ q.sent ≤ p.taken := by
  rw [h.inbox_eq, MessageLog.span_eq_nil_iff _ (message_ne_nil _)]

/-- At the test of its loop a peer is within the bounds of the loop. -/
theorem loopTest_bound {i : ℕ} (printed : List (List Char)) (hi : i ≤ n) :
    Peer.Bound n { pc := loopTest n i, i := i, printed := printed } := by
  unfold Peer.Bound loopTest
  split_ifs with hlt
  · exact hlt
  · exact le_antisymm hi (not_lt.mp hlt)

/-- After the test of its loop a peer writes, or has finished. -/
theorem loopTest_cases (n i : ℕ) : loopTest n i = .write ∨ loopTest n i = .returned := by
  unfold loopTest
  split_ifs <;> simp

/-- A peer that reads prints its whole inbox. -/
theorem flatten_printed_receive (hlen : inbox.length ≤ 95) :
    (p.receive n (inbox.take 95)).printed.flatten = p.printed.flatten ++ inbox := by
  rw [List.take_of_length_le hlen]
  by_cases hnil : inbox = []
  · simp [Peer.receive, hnil]
  · simp [Peer.receive, hnil]

/-- A peer that reads takes all messages that were sent. -/
theorem Half.taken_receive (h : Half n x p q inbox) (hlen : inbox.length ≤ 95) :
    (p.receive n (inbox.take 95)).taken = q.sent := by
  have hcount := MessageLog.count_span (message x.other) (count_message x.other) h.taken_le
  rw [← h.inbox_eq] at hcount
  rw [Peer.taken, flatten_printed_receive hlen, List.count_append, hcount]
  exact Nat.add_sub_cancel' h.taken_le

/-- The peer itself may read. -/
theorem Half.read (h : Half n x p q inbox) (hlen : inbox.length ≤ 95) (hpc : p.pc = .read)
    (hexited : q.pc = .exited → p.i + 1 ≤ q.sent) :
    Half n x (p.receive n (inbox.take 95)) q (inbox.drop 95) := by
  have htaken := h.taken_receive hlen
  have hi : p.i < n := by simpa only [Peer.Bound, hpc] using h.bound
  refine
    { inbox_eq := ?_
      printed_eq := ?_
      taken_le := htaken.le
      round_le := ?_
      bound := loopTest_bound _ hi
      ready := ?_
      opened := fun _ _ => h.opened (by rw [hpc]; exact nofun) (by rw [hpc]; exact nofun)
      order := ?_ }
  · rw [htaken, MessageLog.span_self, List.drop_eq_nil_of_le hlen]
  · have hsplit := MessageLog.span_append (message x.other) p.taken.zero_le h.taken_le
    rw [flatten_printed_receive hlen, htaken, h.printed_eq, ← hsplit, ← h.inbox_eq]
  · -- a read that finds nothing is one after the other peer has exited
    rw [htaken]
    rcases h.ready hpc with hlt | hend
    · exact Nat.succ_le_of_lt (h.round_le.trans_lt hlt)
    · exact hexited hend
  · show loopTest n (p.i + 1) = .read → _
    rcases loopTest_cases n (p.i + 1) with hpc' | hpc' <;> rw [hpc'] <;> exact nofun
  · show loopTest n (p.i + 1) = .unlink ∨ loopTest n (p.i + 1) = .exited → _
    rcases loopTest_cases n (p.i + 1) with hpc' | hpc' <;> simp [hpc']

end Half

section Step

variable {n : ℕ} {s s' : State} {x : Side}

@[simp]
theorem Side.other_other (x : Side) : x.other.other = x := by
  cases x <;> rfl

@[simp]
theorem Side.other_ne (x : Side) : x.other ≠ x := by
  cases x <;> simp [Side.other]

/-- There are no other peers. -/
theorem Side.eq_or_eq_other (x y : Side) : y = x ∨ y = x.other := by
  cases x <;> cases y <;> simp [Side.other]

/-- The invariant, from the point of view of one of the peers. -/
theorem Inv.of_halves (x : Side)
    (hself : Half n x (s.peer x) (s.peer x.other) (s.fifo x.other))
    (hother : Half n x.other (s.peer x.other) (s.peer x) (s.fifo x))
    (hpending : (s.peer x).Waiting → (s.peer x.other).Waiting →
      (s.peer x).taken < (s.peer x.other).sent ∨ (s.peer x.other).taken < (s.peer x).sent) :
    Inv n s where
  half y := by
    rcases Side.eq_or_eq_other x y with rfl | rfl
    · exact hself
    · rw [Side.other_other]
      exact hother
  pending y hy hy' := by
    rcases Side.eq_or_eq_other x y with rfl | rfl
    · exact hpending hy hy'
    · rw [Side.other_other] at hy' ⊢
      exact (hpending hy' hy).symm

/-- The invariant, seen from the other end. -/
theorem Inv.other (h : Inv n s) (x : Side) :
    Half n x.other (s.peer x.other) (s.peer x) (s.fifo x) := by
  simpa using h.half x.other

/-- A process may move on without reading or writing. -/
theorem Inv.goto {pc : Pc} (h : Inv n s)
    (hbound : Peer.Bound n { s.peer x with pc := pc })
    (hsent : ({ s.peer x with pc := pc } : Peer).sent = (s.peer x).sent)
    (hready : pc = .read → (s.peer x).taken < (s.peer x.other).sent ∨
      (s.peer x.other).pc = .exited)
    (hopened : pc ≠ .openRx → pc ≠ .openTx → (s.peer x.other).pc ≠ .openRx)
    (horder : pc = .unlink ∨ pc = .exited → x = .B ∨ (s.peer x.other).pc = .exited)
    (hpc : pc ≠ .openRx) (hexit : (s.peer x).pc ≠ .exited)
    (hwaiting : pc = .select ∨ pc = .read → (s.peer x).Waiting) : Inv n (s.goto x pc) := by
  refine .of_halves x ?_ ?_ ?_ <;>
    simp only [State.goto, Function.update_self, Function.update_of_ne x.other_ne]
  · exact (h.half x).goto hbound hready hopened horder
  · exact (h.other x).of_other hsent hpc hexit
  · rw [hsent]
    exact fun hself => h.pending x (hwaiting hself)

/-- An exited peer has sent all its messages, and the other one has them or will get them. -/
theorem Inv.lt_sent_of_exited (h : Inv n s) (hexited : (s.peer x.other).pc = .exited)
    (hpc : (s.peer x).pc = .write ∨ (s.peer x).Waiting) :
    (s.peer x).pc ≠ .write ∧ (s.peer x).i + 1 ≤ (s.peer x.other).sent := by
  have hi : (s.peer x).i < n := by
    have hbound := (h.half x).bound
    rcases hpc with hpc | hpc | hpc <;> simpa only [Peer.Bound, hpc] using hbound
  have hn : (s.peer x.other).i = n := by
    simpa only [Peer.Bound, hexited] using (h.other x).bound
  constructor
  · -- the other peer has taken `n` messages, so this one has no round left to write in
    intro hwrite
    have hsent : (s.peer x).sent = (s.peer x).i := by simp [Peer.sent, Peer.Waiting, hwrite]
    have := (h.other x).round_le
    have := (h.other x).taken_le
    omega
  · have := (s.peer x.other).le_sent
    omega

/-- A peer writes whole messages and takes all that is there. -/
theorem Inv.step (h : Inv n s) (hn : 1 ≤ n) (hlt : n < 2 ^ 31)
    (hs : step n s x = some s') : Inv n s' := by
  have hbound := (h.half x).bound
  unfold FifoSelectChat.step at hs
  cases hpc : (s.peer x).pc <;>
    simp only [hpc, Option.some.injEq, Option.ite_none_right_eq_some, reduceCtorEq] at hs <;>
    simp only [Peer.Bound, hpc] at hbound
  case openRx =>
    subst hs
    refine h.goto hbound ?_ nofun ?_ ?_ nofun ?_ ?_ <;> simp [Peer.sent, Peer.Waiting, hpc]
  case openTx =>
    obtain ⟨hrx, rfl⟩ := hs
    have hwrite : loopTest n 0 = .write := if_pos hn
    rw [hwrite]
    refine h.goto ?_ ?_ nofun (fun _ _ => hrx.1) ?_ nofun ?_ ?_ <;>
      simp [Peer.sent, Peer.Waiting, Peer.Bound, hpc, hbound]
    omega
  case write =>
    -- `SIGPIPE` never happens: the reader has opened its end and not exited
    have hrx : (s.peer x.other).pc.RxOpen :=
      ⟨(h.half x).opened (by simp [hpc]) (by simp [hpc]),
        fun hexited => (h.lt_sent_of_exited hexited (.inl hpc)).1 hpc⟩
    rw [if_pos hrx, Option.some.injEq] at hs
    subst hs
    refine .of_halves x ?_ ?_ ?_ <;>
      simp only [Function.update_self, Function.update_of_ne x.other_ne]
    · exact (h.half x).goto hbound nofun (fun _ _ => hrx.1) nofun
    · simpa using (h.other x).of_other_writes hpc
    · -- the message just written is on its way
      intro _ _
      have := (h.other x).taken_le
      have hsent : (s.peer x).sent = (s.peer x).i := by simp [Peer.sent, Peer.Waiting, hpc]
      refine .inr (show (s.peer x.other).taken < (s.peer x).i + 1 from ?_)
      omega
  case select =>
    -- `select` returns for a message or for the end of the other peer
    obtain ⟨hready, rfl⟩ := hs
    rw [ne_eq, (h.half x).inbox_eq_nil_iff, not_le] at hready
    refine h.goto hbound ?_ (fun _ => hready) ?_ nofun nofun ?_ ?_
    · simp [Peer.sent, Peer.Waiting, hpc]
    · exact fun _ _ => (h.half x).opened (by simp [hpc]) (by simp [hpc])
    · simp [hpc]
    · exact fun _ => .inl hpc
  case read =>
    subst hs
    have hwaiting : (s.peer x).Waiting := .inr hpc
    -- the 95 bytes asked for are enough for everything in the FIFO
    have hlen := (h.half x).length_inbox_le (h.other x) hlt
    have hexited : (s.peer x.other).pc = .exited → (s.peer x).i + 1 ≤ (s.peer x.other).sent :=
      fun hexited => (h.lt_sent_of_exited hexited (.inr hwaiting)).2
    have hnot : ¬((s.peer x).receive n ((s.fifo x.other).take 95)).Waiting := by
      rcases loopTest_cases n ((s.peer x).i + 1) with hpc' | hpc' <;>
        simp [Peer.Waiting, Peer.receive, hpc']
    have hsent : ((s.peer x).receive n ((s.fifo x.other).take 95)).sent = (s.peer x).sent := by
      rw [Peer.sent, if_neg hnot, Peer.sent, if_pos hwaiting]
      rfl
    refine .of_halves x ?_ ?_ ?_ <;>
      simp only [Function.update_self, Function.update_of_ne x.other_ne,
        Function.update_of_ne x.other_ne.symm]
    · exact (h.half x).read hlen hpc hexited
    · refine (h.other x).of_other hsent ?_ (by simp [hpc])
      rcases loopTest_cases n ((s.peer x).i + 1) with hpc' | hpc' <;>
        simp [Peer.receive, hpc']
    · exact fun hself => absurd hself hnot
  case returned =>
    have hopened := (h.half x).opened (by simp [hpc]) (by simp [hpc])
    have hsent : ∀ pc, ¬(pc = Pc.select ∨ pc = .read) →
        ({ s.peer x with pc := pc } : Peer).sent = (s.peer x).sent := by
      intro pc hne
      simp [Peer.sent, Peer.Waiting, hpc, hne]
    cases x
    · simp only [Option.ite_none_right_eq_some, Option.some.injEq] at hs
      obtain ⟨hexited, rfl⟩ := hs
      exact h.goto hbound (hsent _ nofun) nofun (fun _ _ => hopened) (fun _ => .inr hexited) nofun
        (by simp [hpc]) nofun
    · obtain rfl : s.goto .B .exited = s' := Option.some.inj hs
      exact h.goto hbound (hsent _ nofun) nofun (fun _ _ => hopened) (fun _ => .inl rfl) nofun
        (by simp [hpc]) nofun
  case unlink =>
    subst hs
    refine h.goto hbound ?_ nofun ?_ ?_ nofun ?_ nofun
    · simp [Peer.sent, Peer.Waiting, hpc]
    · exact fun _ _ => (h.half x).opened (by simp [hpc]) (by simp [hpc])
    · exact fun _ => (h.half x).order (.inl hpc)
    · simp [hpc]

theorem Inv.init : Inv n init := by
  refine .of_halves .A ?_ ?_ nofun <;>
  exact
    { inbox_eq := rfl
      printed_eq := rfl
      taken_le := le_rfl
      round_le := le_rfl
      bound := rfl
      ready := nofun
      opened := fun hne => absurd rfl hne
      order := nofun }

/-- The invariant holds along every run. -/
theorem inv_of_reachable {r : Rounds} (h : (chat r).Reachable s) : Inv r.n s :=
  h.invariant Inv.init fun _ _ _ hinv hs => hinv.step r.one_le r.lt hs

/-! ## Deadlock freedom -/

/-- The ways in which a process can have no step. -/
theorem blocked_of_step_eq_none (h : step n s x = none) :
    ((s.peer x).pc = .openTx ∧ ¬(s.peer x.other).pc.RxOpen) ∨
      ((s.peer x).pc = .select ∧ s.fifo x.other = [] ∧ (s.peer x.other).pc ≠ .exited) ∨
      ((s.peer x).pc = .returned ∧ x = .A ∧ (s.peer x.other).pc ≠ .exited) ∨
      (s.peer x).pc = .exited := by
  unfold FifoSelectChat.step at h
  cases hpc : (s.peer x).pc <;> simp only [hpc, reduceCtorEq] at h
  case openTx =>
    refine .inl ⟨rfl, fun hrx => ?_⟩
    simp [hrx] at h
  case write =>
    split_ifs at h
  case select =>
    simp only [ite_eq_right_iff, reduceCtorEq, imp_false, not_or, not_not] at h
    exact .inr (.inl ⟨rfl, h⟩)
  case returned =>
    rcases x with _ | _
    · simp only [ite_eq_right_iff, reduceCtorEq, imp_false] at h
      exact .inr (.inr (.inl ⟨rfl, rfl, h⟩))
    · simp at h
  case exited => exact .inr (.inr (.inr rfl))

/-- A process that opens its write end waits for a process that can move. -/
theorem Inv.not_openTx_of_stuck {r : Rounds} (h : Inv r.n s) (hstuck : (chat r).Stuck s)
    (hpc : (s.peer x).pc = .openTx) : (s.peer x.other).pc.RxOpen := by
  have hone := r.one_le
  constructor
  · intro hopen
    have hstep := hstuck x.other
    simp [chat, FifoSelectChat.step, hopen] at hstep
  · -- an exited process has taken messages, and the first one is not yet sent
    intro hexited
    have hn : (s.peer x.other).i = r.n := by
      simpa only [Peer.Bound, hexited] using (h.other x).bound
    have hi : (s.peer x).i = 0 := by
      simpa only [Peer.Bound, hpc] using (h.half x).bound
    have hsent : (s.peer x).sent = 0 := by simp [Peer.sent, Peer.Waiting, hpc, hi]
    have := (h.other x).round_le
    have := (h.other x).taken_le
    omega

/-- There is no deadlock as long as the child has taken one message with each read. -/
theorem Inv.not_deadlocked {r : Rounds} (h : Inv r.n s)
    (hsingly : (s.peer .B).taken ≤ (s.peer .B).i) : ¬Deadlocked r s := by
  rintro ⟨⟨z, hz⟩, hstuck⟩
  have hblocked : ∀ x,
      ((s.peer x).pc = .select ∧ s.fifo x.other = [] ∧ (s.peer x.other).pc ≠ .exited) ∨
      ((s.peer x).pc = .returned ∧ x = .A ∧ (s.peer x.other).pc ≠ .exited) ∨
      (s.peer x).pc = .exited := by
    intro x
    rcases blocked_of_step_eq_none (hstuck x) with ⟨hpc, hrx⟩ | hblocked
    · exact absurd (h.not_openTx_of_stuck hstuck hpc) hrx
    · exact hblocked
  -- a blocked child is in `select`, because only the parent waits for the other's exit
  rcases hblocked .B with ⟨hpcB, hfifoA, hA⟩ | ⟨-, hne, -⟩ | hpcB
  · rw [(h.half .B).inbox_eq_nil_iff] at hfifoA
    rcases hblocked .A with ⟨hpcA, hfifoB, -⟩ | ⟨hpcA, -, -⟩ | hpcA
    · -- both wait, so one of them has a message
      rw [(h.half .A).inbox_eq_nil_iff] at hfifoB
      rcases h.pending .A (.inl hpcA) (.inl hpcB) with hlt | hlt
      · exact absurd hfifoB (not_le.mpr hlt)
      · exact absurd hfifoA (not_le.mpr hlt)
    · -- the parent has sent all messages, and the child has taken fewer
      have hiA : (s.peer .A).i = r.n := by
        simpa only [Peer.Bound, hpcA] using (h.half .A).bound
      have hiB : (s.peer .B).i < r.n := by
        simpa only [Peer.Bound, hpcB] using (h.half .B).bound
      have hsent := (s.peer .A).le_sent
      have hle : (s.peer .A).sent ≤ (s.peer .B).taken := hfifoA
      omega
    · exact hA hpcA
  · cases hne
  · rcases hblocked .A with ⟨-, -, hB⟩ | ⟨-, -, hB⟩ | hpcA
    · exact hB hpcB
    · exact hB hpcB
    · cases z
      · exact hz hpcA
      · exact hz hpcB

/-- A step changes the process that takes it; its round and what it has printed change when it
reads. -/
theorem step_peer (hs : step n s x = some s') :
    ∃ p, s'.peer = Function.update s.peer x p ∧
      ((s.peer x).pc = .read ∧ p = (s.peer x).receive n ((s.fifo x.other).take 95) ∨
        p.i = (s.peer x).i ∧ p.printed = (s.peer x).printed) := by
  unfold FifoSelectChat.step at hs
  cases hpc : (s.peer x).pc <;>
    simp only [hpc, Option.some.injEq, Option.ite_none_right_eq_some, reduceCtorEq] at hs
  case write =>
    split_ifs at hs <;> rw [Option.some.injEq] at hs <;> subst hs
    · exact ⟨_, rfl, .inr ⟨rfl, rfl⟩⟩
    · exact ⟨_, rfl, .inr ⟨rfl, rfl⟩⟩
  case read =>
    subst hs
    exact ⟨_, rfl, .inl ⟨rfl, rfl⟩⟩
  case returned =>
    rcases x with _ | _
    · simp only [Option.ite_none_right_eq_some, Option.some.injEq] at hs
      obtain ⟨-, rfl⟩ := hs
      exact ⟨_, rfl, .inr ⟨rfl, rfl⟩⟩
    · obtain rfl : s.goto .B .exited = s' := Option.some.inj hs
      exact ⟨_, rfl, .inr ⟨rfl, rfl⟩⟩
  case openTx | select =>
    obtain ⟨-, rfl⟩ := hs
    exact ⟨_, rfl, .inr ⟨rfl, rfl⟩⟩
  all_goals
    subst hs
    exact ⟨_, rfl, .inr ⟨rfl, rfl⟩⟩

/-- A child that finds one message at a time takes one message with each read. -/
theorem Inv.taken_le_of_step (h : Inv n s) (hlt : n < 2 ^ 31)
    (hs : FifoSelectChat.step n s x = some s') (hsingly : ReadsSingly s x)
    (hle : (s.peer .B).taken ≤ (s.peer .B).i) : (s'.peer .B).taken ≤ (s'.peer .B).i := by
  obtain ⟨p, hpeer, hp⟩ := step_peer hs
  rcases x with _ | _
  · rw [hpeer, Function.update_of_ne (by decide)]
    exact hle
  · rw [hpeer, Function.update_self]
    rcases hp with ⟨hpc, rfl⟩ | ⟨hi, hprinted⟩
    · have hB := h.half .B
      have hcount := MessageLog.count_span (message .A) (count_message .A) hB.taken_le
      have hone := hsingly rfl hpc
      rw [show s.fifo .A = _ from hB.inbox_eq] at hone
      -- the read takes the one message there is
      rw [hB.taken_receive (hB.length_inbox_le (h.other .B) hlt)]
      show (s.peer .A).sent ≤ (s.peer .B).i + 1
      simp only [Side.other] at hone hcount
      omega
    · rw [Peer.taken, hi, hprinted]
      exact hle

/-- Along the runs in which the child finds one message at a time, it takes one with each read. -/
theorem inv_of_readsSingly {r : Rounds} (h : (chat r).ReachableVia ReadsSingly s) :
    Inv r.n s ∧ (s.peer .B).taken ≤ (s.peer .B).i := by
  refine h.invariant (P := fun s => Inv r.n s ∧ (s.peer .B).taken ≤ (s.peer .B).i)
    ⟨Inv.init, le_rfl⟩ fun s x s' hinv hok hs => ?_
  exact ⟨hinv.1.step r.one_le r.lt hs, hinv.1.taken_le_of_step r.lt hs hok hinv.2⟩

/-- With one round there is only one message to read. -/
theorem reachableVia_of_one_round {r : Rounds} (hr : r.n = 1) (h : (chat r).Reachable s) :
    (chat r).ReachableVia ReadsSingly s := by
  induction h with
  | init => exact .init
  | step hreach _ hs ih =>
    refine .step ih (fun _ _ => ?_) hs
    have hB := (inv_of_reachable hreach).half .B
    have hsent := ((inv_of_reachable hreach).half .A).bound.sent_le
    have hcount := MessageLog.count_span (message .A) (count_message .A) hB.taken_le
    rw [show State.fifo _ .A = _ from hB.inbox_eq]
    simp only [Side.other] at hcount ⊢
    omega

end Step

/-! ## The deadlock -/

/-- The parent is at the test of its loop after `j` rounds; the child has made one round less, and
waits for a message that has not been written. -/
structure Lagging (n j : ℕ) (s : State) : Prop where
  parent : ∃ printed, s.peer .A = { pc := loopTest n j, i := j, printed := printed }
  child : ∃ printed, s.peer .B = { pc := .select, i := j - 1, printed := printed }
  fifo_A : s.fifo .A = []
  fifo_B : s.fifo .B = []
  one_le : 1 ≤ j

/-- One message fits the buffer of a `read`. -/
theorem take_message {k : ℕ} (x : Side) (hk : k < 2 ^ 31) : (message x k).take 95 = message x k :=
  List.take_of_length_le ((length_message_le x hk).trans (by norm_num))

theorem drop_message {k : ℕ} (x : Side) (hk : k < 2 ^ 31) : (message x k).drop 95 = [] :=
  List.drop_eq_nil_of_le ((length_message_le x hk).trans (by norm_num))

/-- One more round of both, in which the child is answered and the parent is not short. -/
theorem Lagging.next {r : Rounds} {j : ℕ} {s : State} (h : Lagging r.n j s) (hj : j < r.n) :
    ∃ s', (chat r).run s [.A, .B, .B, .B, .A, .A] = some s' ∧ Lagging r.n (j + 1) s' := by
  obtain ⟨⟨printedA, hA⟩, ⟨printedB, hB⟩, hfifoA, hfifoB, hone⟩ := h
  have hlt := r.lt
  have hk : j + 1 < 2 ^ 31 := by omega
  have hpred : j - 1 + 1 = j := by omega
  have hwrite : loopTest r.n j = .write := if_pos hj
  rw [hwrite] at hA
  have hrun : ∃ s', (chat r).run s [.A, .B, .B, .B, .A, .A] = some s' ∧
      s'.peer .A =
        { pc := loopTest r.n (j + 1)
          i := j + 1
          printed := printedA ++ [message .B (j + 1)] } ∧
      s'.peer .B = { pc := .select, i := j, printed := printedB ++ [message .A (j + 1)] } ∧
      s'.fifo .A = [] ∧ s'.fifo .B = [] := by
    simp [TransitionSystem.run, chat, step, State.goto, Peer.receive, Side.other, Pc.RxOpen, hA, hB,
      hfifoA, hfifoB, hwrite, hpred, message_ne_nil, take_message _ hk, drop_message _ hk]
  obtain ⟨s', hs', hA', hB', hfifoA', hfifoB'⟩ := hrun
  exact ⟨s', hs', ⟨_, hA'⟩, ⟨_, hB'⟩, hfifoA', hfifoB', Nat.le_add_left _ _⟩

/-- The parent is one round ahead when the child reads for the first time, and the child finds two
messages. -/
theorem exists_lagging {r : Rounds} (hr : 2 ≤ r.n) :
    ∃ s, (chat r).Reachable s ∧ Lagging r.n 2 s := by
  have hwrite₀ : loopTest r.n 0 = .write := if_pos (by omega)
  have hwrite₁ : loopTest r.n 1 = .write := if_pos (by omega)
  have htake : (message .A 1 ++ message .A 2).take 95 = message .A 1 ++ message .A 2 := by decide
  have hdrop : (message .A 1 ++ message .A 2).drop 95 = [] := by decide
  have htake₁ := take_message .B (show 1 < 2 ^ 31 by norm_num)
  have hdrop₁ := drop_message .B (show 1 < 2 ^ 31 by norm_num)
  have htake₂ := take_message .B (show 2 < 2 ^ 31 by norm_num)
  have hdrop₂ := drop_message .B (show 2 < 2 ^ 31 by norm_num)
  have hopen : ∃ s, (chat r).run (chat r).init [.A, .B, .A, .B] = some s ∧
      s.peer .A = { pc := .write, i := 0, printed := [] } ∧
      s.peer .B = { pc := .write, i := 0, printed := [] } ∧ s.fifo .A = [] ∧ s.fifo .B = [] := by
    simp [TransitionSystem.run, chat, init, step, State.goto, Side.other, Pc.RxOpen, hwrite₀]
  obtain ⟨s, hs, hA, hB, hfifoA, hfifoB⟩ := hopen
  -- the parent makes its first round and writes again before the child reads
  have hahead : ∃ s', (chat r).run s [.A, .B, .A, .A, .A] = some s' ∧
      s'.peer .A = { pc := .select, i := 1, printed := [message .B 1] } ∧
      s'.peer .B = { pc := .select, i := 0, printed := [] } ∧
      s'.fifo .A = message .A 1 ++ message .A 2 ∧ s'.fifo .B = [] := by
    simp [TransitionSystem.run, chat, step, State.goto, Peer.receive, Side.other, Pc.RxOpen, hA, hB,
      hfifoA, hfifoB, hwrite₁, message_ne_nil, htake₁, hdrop₁]
  obtain ⟨s', hs', hA', hB', hfifoA', hfifoB'⟩ := hahead
  have hbehind : ∃ s'', (chat r).run s' [.B, .B, .B, .A, .A] = some s'' ∧
      s''.peer .A =
        { pc := loopTest r.n 2, i := 2, printed := [message .B 1, message .B 2] } ∧
      s''.peer .B = { pc := .select, i := 1, printed := [message .A 1 ++ message .A 2] } ∧
      s''.fifo .A = [] ∧ s''.fifo .B = [] := by
    simp [TransitionSystem.run, chat, step, State.goto, Peer.receive, Side.other, Pc.RxOpen, hA',
      hB', hfifoA', hfifoB', hwrite₁, message_ne_nil, htake, hdrop, htake₂, hdrop₂]
  obtain ⟨s'', hs'', hA'', hB'', hfifoA'', hfifoB''⟩ := hbehind
  have hreach := ((TransitionSystem.reachable_of_run hs).run hs').run hs''
  exact ⟨s'', hreach, ⟨_, hA''⟩, ⟨_, hB''⟩, hfifoA'', hfifoB'', by norm_num⟩

/-- The child stays one round behind. -/
theorem exists_lagging_of_le {r : Rounds} {j : ℕ} (hj : 2 ≤ j) (hjn : j ≤ r.n) :
    ∃ s, (chat r).Reachable s ∧ Lagging r.n j s := by
  induction j, hj using Nat.le_induction with
  | base => exact exists_lagging hjn
  -- every further round can leave the child behind by the same message
  | succ j _ ih =>
    obtain ⟨s, hs, hlag⟩ := ih (Nat.le_of_succ_le hjn)
    obtain ⟨s', hrun, hlag'⟩ := hlag.next hjn
    exact ⟨s', hs.run hrun, hlag'⟩

/-- After its last round the parent waits for the child, and the child for the parent. -/
theorem Lagging.deadlocked {r : Rounds} {s : State} (h : Lagging r.n r.n s) : Deadlocked r s := by
  obtain ⟨⟨printedA, hA⟩, ⟨printedB, hB⟩, hfifoA, -, -⟩ := h
  have hreturned : loopTest r.n r.n = .returned := if_neg (lt_irrefl _)
  refine ⟨⟨.B, by simp [hB]⟩, fun x => ?_⟩
  rcases x with _ | _
  · simp [chat, step, hA, hB, hreturned]
  · simp [chat, step, hA, hB, hreturned, hfifoA, Side.other]

/-- In every run in which the child never finds two messages at once, no state is deadlocked. Over
all interleavings this holds exactly when there is a single round. -/
theorem deadlock_free_iff (r : Rounds) :
    (∀ s, (chat r).ReachableVia ReadsSingly s → ¬Deadlocked r s) ∧
      ((∀ s, (chat r).Reachable s → ¬Deadlocked r s) ↔ r.n = 1) := by
  have hsingly : ∀ s, (chat r).ReachableVia ReadsSingly s → ¬Deadlocked r s := by
    intro s hs
    obtain ⟨hinv, htaken⟩ := inv_of_readsSingly hs
    exact hinv.not_deadlocked htaken
  refine ⟨hsingly, ?_, ?_⟩
  · intro hfree
    by_contra hne
    have hone := r.one_le
    obtain ⟨s, hs, hlag⟩ := exists_lagging_of_le (show 2 ≤ r.n by omega) le_rfl
    exact hfree s hs hlag.deadlocked
  · intro hr s hs
    exact hsingly s (reachableVia_of_one_round hr hs)

/-- The three rounds of the source. -/
def rounds : Rounds where
  n := 3
  one_le := by norm_num
  lt := by norm_num

/-- With three rounds: both peers are blocked after the child has read `peer-A message 1` and
`peer-A message 2` at once. -/
theorem three_rounds_deadlock : ∃ s, (chat rounds).Reachable s ∧ Deadlocked rounds s := by
  have hrun : ((chat rounds).run (chat rounds).init
        [.A, .B, .A, .B, .A, .B, .A, .A, .A, .B, .B, .B, .A, .A, .A, .B, .B, .B, .A, .A]).map
      (fun s => ((s.peer .B).pc, ((chat rounds).step s .A).isNone,
        ((chat rounds).step s .B).isNone)) = some (.select, true, true) := by decide
  obtain ⟨s, hs, hend⟩ := Option.map_eq_some_iff.mp hrun
  simp only [Prod.mk.injEq, Option.isNone_iff_eq_none] at hend
  obtain ⟨hpc, hA, hB⟩ := hend
  refine ⟨s, TransitionSystem.reachable_of_run hs, ⟨.B, by rw [hpc]; decide⟩, fun x => ?_⟩
  rcases x with _ | _
  · exact hA
  · exact hB

end FifoSelectChat
