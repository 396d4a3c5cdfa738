import OsPrograms.Pipes.FifoSelectChat

/-!
# What the peers of `fifo_select_chat` receive

A peer writes its next message only after it has read in the round before, and every read takes at
least one message. So neither peer is more than two messages ahead of what the other has read, and
a `read` of 95 bytes takes everything that is there: one message or two, never a part of one.

* `sentText`: what a peer has written, which `sentText_step` ties to the writes.
* `Delivered`: the bound on the FIFOs, what reads return and what is printed.
* `delivered_of_reachable`: it holds in every reachable state.
-/

namespace FifoSelectChat

/-- What peer `x` has written: the messages of the rounds before, and that of this round if it has
passed its `write`. -/
def sentText (s : State) (x : Side) : List Char :=
  MessageLog.span (message x) 0 (s.peer x).sent

/-- The text is a message of `x`, or two consecutive ones. -/
def OneOrTwo (x : Side) (text : List Char) : Prop :=
  ∃ k, 1 ≤ k ∧ (text = message x k ∨ text = message x k ++ message x (k + 1))

/-- The loop of the peer is finished. -/
def Pc.Finished (pc : Pc) : Prop :=
  pc = returned ∨ pc = unlink ∨ pc = exited

/-- What holds of the messages in the state `s`. -/
structure Delivered (r : Rounds) (s : State) : Prop where
  /-- A FIFO holds at most two messages, as they were written. -/
  unread : ∀ x, s.fifo x = [] ∨ OneOrTwo x (s.fifo x)
  /-- The next `read` returns all of them. -/
  read : ∀ x, (s.peer x).pc = .read → (s.fifo x.other).take 95 = s.fifo x.other
  /-- Every read that returned something returned one message or two. -/
  printed : ∀ x, ∀ text ∈ (s.peer x).printed, OneOrTwo x.other text
  /-- What is printed is an initial part of what was sent. -/
  initial : ∀ x, (s.peer x).printed.flatten <+: sentText s x.other
  /-- When both loops are finished, each peer has printed all messages of the other. -/
  complete : (∀ x, (s.peer x).pc.Finished) → ∀ x,
    (s.peer x).printed.flatten = (List.range r.n).flatMap fun k => message x.other (k + 1)

section Sent

variable {n : ℕ} {s s' : State} {x : Side}

/-- The loop test does not change what has been written. -/
theorem not_waiting_loopTest (n i j : ℕ) (printed : List (List Char)) :
    ¬Peer.Waiting { pc := loopTest n i, i := j, printed := printed } := by
  rcases loopTest_cases n i with hpc | hpc <;> simp [Peer.Waiting, hpc]

/-- A step that writes appends the next message to what has been written, and no other step changes
it. -/
theorem sentText_step (h : Inv n s) (hs : step n s x = some s') (y : Side) :
    sentText s' y = sentText s y ++
      if y = x ∧ (s.peer x).pc = .write then message x ((s.peer x).i + 1) else [] := by
  -- the steps other than `write` keep the count of messages sent
  have hsent : ∀ {p : Peer} {fifo : Side → List Char}, p.sent = (s.peer x).sent →
      (s.peer x).pc ≠ .write →
      sentText { fifo := fifo, peer := Function.update s.peer x p } y = sentText s y ++
        if y = x ∧ (s.peer x).pc = .write then message x ((s.peer x).i + 1) else [] := by
    intro p fifo hp hpc
    rw [if_neg (fun hw => hpc hw.2), List.append_nil]
    by_cases hyx : y = x
    · subst hyx
      simp only [sentText, Function.update_self, hp]
    · simp only [sentText, Function.update_of_ne hyx]
  unfold FifoSelectChat.step at hs
  rcases hpc : (s.peer x).pc <;>
    simp only [hpc, Option.some.injEq, Option.ite_none_right_eq_some, reduceCtorEq] at hs <;>
    rw [← hpc]
  case openRx =>
    subst hs
    apply hsent <;> simp [Peer.sent, Peer.Waiting, hpc]
  case openTx =>
    obtain ⟨-, rfl⟩ := hs
    -- before the first round, nothing has been sent
    have hi : (s.peer x).i = 0 := by simpa only [Peer.Bound, hpc] using (h.half x).bound
    apply hsent
    · rw [Peer.sent, if_neg (not_waiting_loopTest n 0 _ _)]
      simp [Peer.sent, Peer.Waiting, hpc]
    · simp [hpc]
  case write =>
    -- the other peer has its end open, so `write` does not raise `SIGPIPE`
    have hrx : (s.peer x.other).pc.RxOpen :=
      ⟨(h.half x).opened (by simp [hpc]) (by simp [hpc]),
        fun hexited => (h.lt_sent_of_exited hexited (.inl hpc)).1 hpc⟩
    rw [if_pos hrx, Option.some.injEq] at hs
    subst hs
    by_cases hyx : y = x
    · subst hyx
      have hbefore : (s.peer y).sent = (s.peer y).i := by
        simp [Peer.sent, Peer.Waiting, hpc]
      have hafter : ({ s.peer y with pc := .select } : Peer).sent = (s.peer y).i + 1 := rfl
      rw [if_pos ⟨rfl, rfl⟩]
      simp only [sentText, Function.update_self, hbefore, hafter]
      exact MessageLog.span_succ _ (Nat.zero_le _)
    · rw [if_neg (fun hw => hyx hw.1), List.append_nil]
      simp only [sentText, Function.update_of_ne hyx]
  case select =>
    obtain ⟨-, rfl⟩ := hs
    apply hsent <;> simp [Peer.sent, Peer.Waiting, hpc]
  case read =>
    subst hs
    apply hsent
    · rw [Peer.receive, Peer.sent, if_neg (not_waiting_loopTest n _ _ _)]
      simp [Peer.sent, Peer.Waiting, hpc]
    · simp [hpc]
  case returned =>
    rcases x with _ | _
    · simp only [Option.ite_none_right_eq_some, Option.some.injEq] at hs
      obtain ⟨-, rfl⟩ := hs
      apply hsent <;> simp [Peer.sent, Peer.Waiting, hpc]
    · obtain rfl : s.goto .B .exited = s' := Option.some.inj hs
      apply hsent <;> simp [Peer.sent, Peer.Waiting, hpc]
  case unlink =>
    subst hs
    apply hsent <;> simp [Peer.sent, Peer.Waiting, hpc]

end Sent

section Delivered

variable {n : ℕ} {s s' : State} {x : Side} {p q : Peer} {inbox inbox' : List Char}

/-- What is unread is nothing, one message or two. -/
theorem Half.inbox_cases (h : Half n x p q inbox) (h' : Half n x.other q p inbox') :
    inbox = [] ∨ OneOrTwo x.other inbox := by
  have hle := h.taken_le
  have hunread := h.sent_le h'
  rw [h.inbox_eq]
  -- the sender is ahead of the reader by two messages at most
  obtain hnone | hone | htwo :
      q.sent = p.taken ∨ q.sent = p.taken + 1 ∨ q.sent = p.taken + 2 := by omega
  · left
    rw [hnone, MessageLog.span_self]
  · right
    refine ⟨p.taken + 1, Nat.le_add_left _ _, .inl ?_⟩
    rw [hone, MessageLog.span_succ _ le_rfl, MessageLog.span_self, List.nil_append]
  · right
    refine ⟨p.taken + 1, Nat.le_add_left _ _, .inr ?_⟩
    rw [htwo, MessageLog.span_succ _ (Nat.le_succ _), MessageLog.span_succ _ le_rfl,
      MessageLog.span_self, List.nil_append]

/-- A read that returns something prints one message or two. -/
theorem Inv.printed_step (h : Inv n s) (hlt : n < 2 ^ 31)
    (hs : FifoSelectChat.step n s x = some s')
    (hprinted : ∀ y, ∀ text ∈ (s.peer y).printed, OneOrTwo y.other text) :
    ∀ y, ∀ text ∈ (s'.peer y).printed, OneOrTwo y.other text := by
  obtain ⟨p, hpeer, hp⟩ := step_peer hs
  intro y text htext
  rw [hpeer] at htext
  by_cases hyx : y = x
  · subst hyx
    rw [Function.update_self] at htext
    rcases hp with ⟨hpc, rfl⟩ | ⟨-, hsame⟩
    · -- all that is unread fits the buffer of 95 bytes, so `read` returns whole messages
      have hlen := (h.half y).length_inbox_le (h.other y) hlt
      simp only [Peer.receive, List.take_of_length_le hlen] at htext
      split_ifs at htext with hnil
      · exact hprinted y text htext
      · rcases List.mem_append.mp htext with hold | hnew
        · exact hprinted y text hold
        · rw [List.mem_singleton.mp hnew]
          exact ((h.half y).inbox_cases (h.other y)).resolve_left hnil
    · rw [hsame] at htext
      exact hprinted y text htext
  · rw [Function.update_of_ne hyx] at htext
    exact hprinted y text htext

/-- A peer that has finished its loop has gone through all rounds and waits for nothing. -/
theorem Half.of_finished (h : Half n x p q inbox) (hp : p.pc.Finished) :
    p.i = n ∧ p.sent = n := by
  have hbound := h.bound
  rcases hp with hpc | hpc | hpc <;> simp only [Peer.Bound, hpc] at hbound <;>
    simp [Peer.sent, Peer.Waiting, hpc, hbound]

end Delivered

/-- The messages from the first one on, without `span`. -/
theorem span_zero (x : Side) (n : ℕ) :
    MessageLog.span (message x) 0 n = (List.range n).flatMap fun k => message x (k + 1) := by
  induction n with
  | zero => rfl
  | succ n ih =>
    rw [MessageLog.span_succ _ (Nat.zero_le _), ih, List.range_succ, List.flatMap_append]
    simp

/-- In every reachable state the messages are delivered whole and in order, at most two of them are
unread in either direction, and peers that have finished have printed everything. -/
theorem delivered_of_reachable (r : Rounds) (s : State) (h : (chat r).Reachable s) :
    Delivered r s := by
  have hinv := inv_of_reachable h
  have hprinted : Inv r.n s ∧ ∀ x, ∀ text ∈ (s.peer x).printed, OneOrTwo x.other text := by
    apply h.invariant
      (P := fun s => Inv r.n s ∧ ∀ x, ∀ text ∈ (s.peer x).printed, OneOrTwo x.other text)
    · exact ⟨Inv.init, nofun⟩
    · rintro s x s' ⟨hs, hold⟩ hstep
      exact ⟨hs.step r.one_le r.lt hstep, hs.printed_step r.lt hstep hold⟩
  refine ⟨fun x => ?_, fun x _ => ?_, hprinted.2, fun x => ?_, fun hfinished x => ?_⟩
  · have hcases := (hinv.other x).inbox_cases (by simpa using hinv.half x)
    simpa using hcases
  · exact List.take_of_length_le ((hinv.half x).length_inbox_le (hinv.other x) r.lt)
  · -- what is printed and what is unread is what was sent
    have hhalf := hinv.half x
    rw [hhalf.printed_eq, sentText, ← MessageLog.span_append _ (Nat.zero_le _) hhalf.taken_le]
    exact List.prefix_append _ _
  · -- each of the `n` reads has taken a message, and there are only `n`
    have hhalf := hinv.half x
    obtain ⟨hi, -⟩ := hhalf.of_finished (hfinished x)
    obtain ⟨-, hsent⟩ := (hinv.other x).of_finished (hfinished x.other)
    have hround := hhalf.round_le
    have htaken := hhalf.taken_le
    have hall : (s.peer x).taken = r.n := by omega
    rw [hhalf.printed_eq, hall, span_zero]

/-- Two rounds. -/
def twoRounds : Rounds where
  n := 2
  one_le := by norm_num
  lt := lt_trans (by decide) rounds.lt

/-- With two rounds: the child reads both messages of its parent at once. -/
theorem delivered_two_rounds :
    ∃ s, (chat twoRounds).Reachable s ∧
      (s.peer .B).printed = [message .A 1 ++ message .A 2] ∧ Delivered twoRounds s := by
  have hrun : ((chat twoRounds).run (chat twoRounds).init
      [.A, .B, .A, .B, .A, .B, .A, .A, .A, .B, .B]).map (fun s => (s.peer .B).printed) =
      some [message .A 1 ++ message .A 2] := by decide +kernel
  obtain ⟨s, hs, hprinted⟩ := Option.map_eq_some_iff.mp hrun
  have hreach := TransitionSystem.reachable_of_run hs
  exact ⟨s, hreach, hprinted, delivered_of_reachable twoRounds s hreach⟩

end FifoSelectChat
