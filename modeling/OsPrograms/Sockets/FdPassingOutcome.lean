import OsPrograms.Sockets.FdPassingInvariant

/-!
# How `socketpair_fd_passing` ends

Neither process waits for ever: the child waits for a message only while the parent can still send
it, and sees the end of the stream when the parent has ended. But `recv_fd` does not expect that: it
takes the first control message of a buffer that has none. And a text that was not written
completely is passed on and printed as if it were the whole text.

## Main results

- `exists_returned`: a parent that has got to `lseek` may get to its end, with the file as it is.
- `fd_passing_outcome`: all runs end, with the content of the file printed, or with a call that
  failed; the child crashes exactly when that call was `sendmsg`.
-/

namespace SocketpairFdPassing

/-- What is left to do for the parent. -/
def Parent.rank : Parent → ℕ
  | .returned | .died _ | .killed => 0
  | next => 11 - next.stage

/-- What is left to do for the child, which counts before it is there. -/
def Child.rank : Child → ℕ
  | .unborn | .closeSv0 => 5
  | .recvFd => 4
  | .read => 3
  | .print => 2
  | .exit => 1
  | .exited | .died _ | .segv | .lost => 0

/-- What is left to do. -/
def State.rank (s : State) : ℕ :=
  s.parent.rank + s.child.rank

section Outcome

variable {c : Config} {s s' : State}

/-- An `xclose` of the parent, whether it fails or not. -/
theorem rank_parentClose (k : ℕ) {next : Parent} (hnext : next.rank < s.parent.rank) :
    (parentClose s k next).rank < s.rank := by
  have hdied : (Parent.died .xclose).rank = 0 := rfl
  unfold parentClose
  split
  · show (Parent.died .xclose).rank + s.child.rank < s.parent.rank + s.child.rank
    omega
  · show next.rank + s.child.rank < s.parent.rank + s.child.rank
    omega

/-- `write_all`, whether it fails or not. -/
theorem rank_writeText (hpc : s.parent = .writeAll) (k : ℕ) : (writeText s k).rank < s.rank := by
  show Parent.lseek.rank + s.child.rank < s.parent.rank + s.child.rank
  rw [hpc]
  exact Nat.add_lt_add_right (by decide) _

/-- The parent has fewer statements left. -/
theorem rank_parentStep (h : Inv c s) (hs : parentStep s = some s') : s'.rank < s.rank := by
  unfold parentStep at hs
  cases hpc : s.parent <;> simp only [hpc, reduceCtorEq] at hs
  case writeAll =>
    obtain rfl := Option.some.inj hs
    exact rank_writeText hpc _
  case fork =>
    obtain rfl := Option.some.inj hs
    have hunborn := h.unborn.2 (by rw [hpc]; decide)
    simp only [State.rank, hpc, hunborn, Parent.rank, Parent.stage, Child.rank]
    omega
  case closeSv1 | closeFd | closeSv0 =>
    obtain rfl := Option.some.inj hs
    exact rank_parentClose _ (by rw [hpc]; decide)
  case sendFd =>
    obtain rfl := Option.some.inj hs
    rw [h.sendFd_eq hpc]
    simp only [State.rank, hpc, Parent.rank, Parent.stage]
    omega
  case wait =>
    split at hs <;> cases hs <;> simp only [State.rank, hpc, Parent.rank, Parent.stage] <;> omega
  all_goals
    obtain rfl := Option.some.inj hs
    simp only [State.rank, hpc, Parent.rank, Parent.stage]
    omega

/-- The child has fewer statements left. -/
theorem rank_childStep (h : Inv c s) (hs : childStep s = some s') : s'.rank < s.rank := by
  unfold childStep at hs
  cases hpc : s.child <;> simp only [hpc, reduceCtorEq] at hs
  case recvFd =>
    rw [h.recvFd_eq hpc] at hs
    split_ifs at hs <;> obtain rfl := Option.some.inj hs <;>
      simp only [State.rank, State.childEnds, hpc, Child.rank] <;> omega
  case closeSv0 | read =>
    split_ifs at hs <;> obtain rfl := Option.some.inj hs <;>
      simp only [State.rank, State.childEnds, hpc, Child.rank] <;> omega
  all_goals
    obtain rfl := Option.some.inj hs
    simp only [State.rank, State.childEnds, hpc, Child.rank]
    omega

/-- Every step, failures included, leaves less to do. -/
theorem rank_step (h : Inv c s) {a : Action} (hs : step s a = some s') : s'.rank < s.rank := by
  cases a with
  | parent => exact rank_parentStep h hs
  | child => exact rank_childStep h hs
  | fails =>
    obtain ⟨call, hcall, rfl⟩ := Option.map_eq_some_iff.1 hs
    show 0 + s.child.rank < s.parent.rank + s.child.rank
    have hpos : 0 < s.parent.rank := by
      cases hpc : s.parent <;> rw [hpc] at hcall <;> cases hcall <;> decide
    omega
  | writeFails k =>
    simp only [step, Option.ite_none_right_eq_some, Option.some.injEq] at hs
    obtain ⟨⟨hpc, -⟩, rfl⟩ := hs
    exact rank_writeText hpc k

/-- A parent that cannot go on has ended, or waits for a child that has not. -/
theorem parent_of_none (h : Inv c s) (hs : parentStep s = none) :
    s.parent = .wait ∧ s.child ≠ .exited ∨ s.parent = .returned ∨
      ∃ call, s.parent = .died call := by
  have hsafe := h.parentSafe.1
  unfold parentStep at hs
  cases hpc : s.parent <;> simp only [hpc, reduceCtorEq] at hs
  case wait =>
    refine .inl ⟨rfl, fun hexited => ?_⟩
    rw [hexited] at hs
    cases hs
  case returned => exact .inr (.inl rfl)
  case died call => exact .inr (.inr ⟨call, rfl⟩)
  case killed => exact absurd hpc hsafe

/-- A child that cannot go on has ended, or waits for the message. -/
theorem child_of_none (h : Inv c s) (hs : childStep s = none) :
    s.child = .recvFd ∧ s.parent.stage < 7 ∧ s.parent ≠ .died .sendmsg ∨
      s.child = .unborn ∨ s.child = .exited ∨ s.child = .segv := by
  have hsafe := h.childSafe
  unfold childStep at hs
  cases hpc : s.child <;> simp only [hpc, reduceCtorEq] at hs
  case unborn | exited | segv => simp
  case recvFd =>
    rw [h.recvFd_eq hpc] at hs
    split_ifs at hs with hsent hdied
    exact .inl ⟨rfl, by omega, hdied⟩
  case closeSv0 | read => split_ifs at hs
  case died call => exact absurd hpc (hsafe.1 call)
  case lost => exact absurd hpc hsafe.2

/-- The parent's state before `send_fd`, when the child has not done anything. -/
theorem exists_sendFd (c : Config) :
    ∃ s, (system c).Reachable s ∧ s.parent = .sendFd ∧ s.child = .closeSv0 := by
  obtain ⟨s, hreach, hparent, hchild⟩ :
      ∃ s, (system c).Reachable s ∧ s.parent = .closeSv1 ∧ s.child = .closeSv0 :=
    ⟨_, TransitionSystem.reachable_of_run
      (rfl : (system c).run _ (List.replicate 5 Action.parent) = _), rfl, rfl⟩
  have hopen := (inv_of_reachable hreach).entry_sv1 hparent
  have hs : (system c).step s .parent = some (parentClose s s.sv.2 .sendFd) := by
    show parentStep s = _
    rw [parentStep, hparent]
  refine ⟨_, hreach.next hs, ?_, ?_⟩ <;> rw [parentClose, if_neg hopen]
  exact hchild

/-- When `sendmsg` fails, the child crashes. -/
theorem exists_segv (c : Config) :
    ∃ s, (system c).Reachable s ∧ s.child = .segv := by
  obtain ⟨s, hreach, hparent, hchild⟩ := exists_sendFd c
  have hfails : (system c).step s .fails = some (s.die .sendmsg) := by
    show s.parent.mayFail.map s.die = _
    rw [hparent]
    rfl
  -- the child closes its descriptor of the other socket, and waits
  obtain ⟨t, hwaits, hdied, hpc⟩ :
      ∃ t, (system c).Reachable t ∧ t.parent = .died .sendmsg ∧ t.child = .recvFd := by
    have hopen := (inv_of_reachable hreach).entry_sv0 hchild
    have hclose : (system c).step (s.die .sendmsg) .child =
        some { s.die .sendmsg with
          child := .recvFd, childTable := s.childTable.set s.sv.1 none } := by
      show childStep _ = _
      rw [childStep, show (s.die .sendmsg).child = .closeSv0 from hchild]
      exact if_neg hopen
    exact ⟨_, (hreach.next hfails).next hclose, rfl, rfl⟩
  have hcrash : (system c).step t .child = some (t.childEnds .segv) := by
    show childStep t = _
    have hrecv := (inv_of_reachable hwaits).recvFd_eq hpc
    rw [if_neg (by rw [hdied]; decide), if_pos hdied] at hrecv
    rw [childStep, hpc]
    exact hrecv
  exact ⟨_, hwaits.next hcrash, rfl⟩

/-- How a run ends. -/
theorem outcome_of_none (h : Inv c s) (hparent : parentStep s = none)
    (hchild : childStep s = none) :
    s.parent = .returned ∧ s.child = .exited ∧ s.file <+: text ∧
        s.printed = some (some c.stdout, label ++ s.file) ∨
      (∃ call ∈ [Call.socketpair, .openFile, .fork], s.parent = .died call) ∧
        s.child = .unborn ∧ s.printed = none ∨
      s.parent = .died .sendmsg ∧ s.child = .segv ∧ s.printed = none := by
  have hprinted := h.printed
  have hended := parent_of_none h hparent
  rcases child_of_none h hchild with ⟨hpc, hlt, hne⟩ | hpc | hpc | hpc
  -- the child waits, and the parent has neither sent the message nor ended
  · have hforked := h.unborn.not.1 (by simp [hpc])
    rcases hended with ⟨hparent, -⟩ | hparent | ⟨call, hparent⟩
    · rw [hparent] at hlt
      exact absurd hlt (by decide)
    · rw [hparent] at hlt
      exact absurd hlt (by decide)
    · have hend0 := (h.refersTo_end0_iff (by omega) hlt).2 hne
      rw [h.parentTable, hparent, Descriptors.refersTo_iff] at hend0
      obtain ⟨k, hk⟩ := hend0
      cases hk
  -- without a child the parent has died before `fork`, or of it
  · have hlt := h.unborn.1 hpc
    rw [hpc] at hprinted
    refine .inr (.inl ⟨?_, hpc, hprinted⟩)
    rcases hended with ⟨hparent, -⟩ | hparent | ⟨call, hparent⟩ <;> rw [hparent] at hlt
    · exact absurd hlt (by decide)
    · exact absurd hlt (by decide)
    · refine ⟨call, ?_, hparent⟩
      cases call <;> simp [Parent.stage, Call.stage] at hlt ⊢
  -- a child that has exited has got the message, and so the parent cannot fail any more
  · have hsent := h.got (by rw [hpc]; decide)
    rw [hpc] at hprinted
    refine .inl ⟨?_, hpc, h.file (by omega), hprinted⟩
    rcases hended with ⟨-, hparent⟩ | hparent | ⟨call, hparent⟩
    · exact absurd hpc hparent
    · exact hparent
    · rw [hparent] at hsent
      cases call <;> simp [Parent.stage, Call.stage] at hsent
  · rw [hpc] at hprinted
    exact .inr (.inr ⟨h.segv hpc, hpc, hprinted⟩)

/-! ## The content of the file -/

/-- The child does not change the file, and the parent is where it was. -/
theorem file_childStep (h : Inv c s) (hs : childStep s = some s') :
    s'.file = s.file ∧ s'.parent = s.parent := by
  unfold childStep at hs
  cases hpc : s.child <;> simp only [hpc, reduceCtorEq] at hs
  case recvFd =>
    rw [h.recvFd_eq hpc] at hs
    split_ifs at hs <;> obtain rfl := Option.some.inj hs <;> exact ⟨rfl, rfl⟩
  case closeSv0 | read =>
    split_ifs at hs <;> obtain rfl := Option.some.inj hs <;> exact ⟨rfl, rfl⟩
  all_goals
    obtain rfl := Option.some.inj hs
    exact ⟨rfl, rfl⟩

/-- After `write_all` the parent leaves the file as it is, and none of its steps is its death. -/
theorem file_parentStep (h : Inv c s) (hstage : 3 ≤ s.parent.stage)
    (hs : parentStep s = some s') :
    s'.file = s.file ∧ 3 ≤ s'.parent.stage ∧ ∀ call, s'.parent ≠ .died call := by
  have hsafe := (h.parentStep hs).parentSafe.2.1
  -- the parent does not die of an `xclose`, by the invariant
  have hclose (k : ℕ) (next : Parent) (hnext : 3 ≤ next.stage ∧ ∀ call, next ≠ .died call)
      (hclosed : parentClose s k next = s') :
      s'.file = s.file ∧ 3 ≤ s'.parent.stage ∧ ∀ call, s'.parent ≠ .died call := by
    subst hclosed
    unfold parentClose at hsafe ⊢
    split at hsafe
    · exact absurd rfl hsafe
    · rename_i hopen
      rw [if_neg hopen]
      exact ⟨rfl, hnext⟩
  unfold parentStep at hs
  cases hpc : s.parent <;> simp only [hpc, reduceCtorEq] at hs <;> rw [hpc] at hstage
  case closeSv1 | closeFd | closeSv0 =>
    exact hclose _ _ ⟨by decide, by simp⟩ (Option.some.inj hs)
  case sendFd =>
    obtain rfl := Option.some.inj hs
    rw [h.sendFd_eq hpc]
    exact ⟨rfl, by simp [Parent.stage], by simp⟩
  case wait =>
    split at hs <;> cases hs <;> exact ⟨rfl, by simp [Parent.stage], by simp⟩
  case lseek | fork | unlink =>
    obtain rfl := Option.some.inj hs
    exact ⟨rfl, by simp [Parent.stage], by simp⟩
  all_goals exact absurd hstage (by decide)

/-- When no call fails any more, the parent returns. -/
theorem exists_returned (hs : (system c).Reachable s) (hstage : 3 ≤ s.parent.stage)
    (halive : ∀ call, s.parent ≠ .died call) :
    ∃ t, (system c).Reachable t ∧ t.parent = .returned ∧ t.file = s.file ∧
      t.printed = some (some c.stdout, label ++ t.file) := by
  -- the parent goes on as long as it can, and the child when the parent waits
  induction hrank : s.rank using Nat.strongRecOn generalizing s with
  | _ rank ih =>
    subst hrank
    have h := inv_of_reachable hs
    cases hparent : parentStep s with
    | some s' =>
      have hnext : (system c).step s .parent = some s' := hparent
      obtain ⟨hfile, hle, hdied⟩ := file_parentStep h hstage hparent
      obtain ⟨t, ht⟩ := ih _ (rank_parentStep h hparent) (hs.next hnext) hle hdied rfl
      exact ⟨t, hfile ▸ ht⟩
    | none =>
      cases hchild : childStep s with
      | some s' =>
        have hnext : (system c).step s .child = some s' := hchild
        obtain ⟨hfile, hpc⟩ := file_childStep h hchild
        obtain ⟨t, ht⟩ := ih _ (rank_childStep h hchild) (hs.next hnext) (hpc ▸ hstage)
          (hpc ▸ halive) rfl
        exact ⟨t, hfile ▸ ht⟩
      | none =>
        rcases outcome_of_none h hparent hchild with
          ⟨hpc, -, -, hprinted⟩ | ⟨⟨call, -, hpc⟩, -, -⟩ | ⟨hpc, -, -⟩
        · exact ⟨s, hs, hpc, rfl, hprinted⟩
        · exact absurd hpc (halive call)
        · exact absurd hpc (halive _)

/-- Every beginning of the text may be all that gets into the file. -/
theorem exists_printed (c : Config) {k : ℕ} (hk : k ≤ text.length) :
    ∃ s, (system c).Reachable s ∧ s.parent = .returned ∧
      s.printed = some (some c.stdout, label ++ text.take k) := by
  obtain ⟨s, hreach, hpc⟩ : ∃ s, (system c).Reachable s ∧ s.parent = .writeAll :=
    ⟨_, TransitionSystem.reachable_of_run
      (rfl : (system c).run _ (List.replicate 2 Action.parent) = _), rfl⟩
  -- `write_all` fails after `k` bytes, or does not fail when these are all
  have hwritten : (system c).Reachable (writeText s k) := by
    rcases Nat.lt_or_eq_of_le hk with hlt | rfl
    · exact hreach.next (show (system c).step s (.writeFails k) = _ from if_pos ⟨hpc, hlt⟩)
    · refine hreach.next (show (system c).step s .parent = _ from ?_)
      show parentStep s = _
      rw [parentStep, hpc]
  obtain ⟨t, ht, hreturned, hfile, hprinted⟩ :=
    exists_returned hwritten (show 3 ≤ Parent.lseek.stage by decide) (by simp [writeText])
  rw [hfile, (inv_of_reachable hreach).file_writeText hpc] at hprinted
  exact ⟨t, ht, hreturned, hprinted⟩

/-- A run in which `write_all` does not fail. -/
def WritesAll (_ : State) (a : Action) : Prop :=
  ∀ k, a ≠ .writeFails k

/-- The file has the whole text then. -/
theorem file_eq_text (hs : (system c).ReachableVia WritesAll s) :
    Inv c s ∧ (3 ≤ s.parent.stage → s.file = text) := by
  refine hs.invariant (P := fun s => Inv c s ∧ (3 ≤ s.parent.stage → s.file = text))
    ⟨inv_init c, fun hle => absurd hle (by show ¬3 ≤ 0; decide)⟩ ?_
  rintro s a s' ⟨h, hfile⟩ hwrites hstep
  have hnext : Inv c s' := h.step hstep
  refine ⟨hnext, ?_⟩
  cases a with
  | parent =>
    intro hle
    by_cases hwritten : 3 ≤ s.parent.stage
    · rw [(file_parentStep h hwritten hstep).1, hfile hwritten]
    -- the step that leads there is `write_all`
    · have hpc : s.parent = .writeAll := by
        change parentStep s = some s' at hstep
        unfold parentStep at hstep
        cases hpc : s.parent <;> simp only [hpc, reduceCtorEq] at hstep <;> rw [hpc] at hwritten
        case socketpair | openFile =>
          obtain rfl := Option.some.inj hstep
          exact absurd hle (by simp [Parent.stage])
        all_goals exact absurd hwritten (by decide)
      have hwrite : parentStep s = some (writeText s text.length) := by
        rw [parentStep, hpc]
      obtain rfl := Option.some.inj (hwrite.symm.trans hstep)
      rw [h.file_writeText hpc, List.take_length]
  | fails =>
    obtain ⟨call, hcall, rfl⟩ := Option.map_eq_some_iff.1 hstep
    intro hle
    exact hfile (hle.trans_eq (stage_of_mayFail hcall))
  | writeFails k => exact absurd rfl (hwrites k)
  | child =>
    obtain ⟨hsame, hpc⟩ := file_childStep h hstep
    rw [hsame, hpc]
    exact hfile

end Outcome

/-- Whatever descriptors are open at the start, all runs end after 16 steps at most. The child gets
the number of the socket that it has closed, for the file that the parent has opened. A run ends
with the content of the file printed and both processes ended in order, with a call of the parent
that failed before there was a child, or with a failed `sendmsg` and a child that has crashed. What
is printed is the whole text if `write_all` has not failed, and may be any beginning of it
otherwise. -/
theorem fd_passing_outcome (c : Config) :
    (∀ as s, (system c).run (system c).init as = some s → as.length ≤ 16) ∧
    (∀ s, (system c).Reachable s → s.child = .read →
      s.received = s.sv.1 ∧ s.childTable.entry s.received = some .temp) ∧
    (∀ s, (system c).Reachable s → parentStep s = none → childStep s = none →
      s.parent = .returned ∧ s.child = .exited ∧ s.file <+: text ∧
        s.printed = some (some c.stdout, label ++ s.file) ∨
      (∃ call ∈ [Call.socketpair, .openFile, .fork], s.parent = .died call) ∧
        s.child = .unborn ∧ s.printed = none ∨
      s.parent = .died .sendmsg ∧ s.child = .segv ∧ s.printed = none) ∧
    (∀ s, (system c).ReachableVia WritesAll s → s.parent = .returned →
      s.printed = some (some c.stdout, line)) ∧
    (∀ k ≤ text.length, ∃ s, (system c).Reachable s ∧ s.parent = .returned ∧
      s.printed = some (some c.stdout, label ++ text.take k)) ∧
    ∃ s, (system c).Reachable s ∧ s.child = .segv := by
  refine ⟨fun as s hrun => ?_, fun s hs hread => ?_, fun s hs => outcome_of_none
    (inv_of_reachable hs), fun s hs hpc => ?_, fun k hk => exists_printed c hk, exists_segv c⟩
  -- the rank is 16 at the start
  · have hlen := TransitionSystem.Reachable.length_run_le
      (fun s a s' h (hs : (system c).step s a = some s') => rank_step (inv_of_reachable h) hs)
      .init hrun
    have hinit : (system c).init.rank = 16 := rfl
    omega
  · have h := inv_of_reachable hs
    have hsent := h.got (by rw [hread]; decide)
    rw [h.received hread, h.childTable, hread, h.sv (by omega)]
    exact ⟨rfl, c.receivedTable_sv0⟩
  · obtain ⟨h, hfile⟩ := file_eq_text hs
    have hexited := h.reaped (by rw [hpc]; decide)
    rw [h.printed, hexited, hfile (by rw [hpc]; decide)]
    rfl

end SocketpairFdPassing
