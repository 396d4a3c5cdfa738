import OsPrograms.Pipes.FullDuplexPipePoll

/-!
# Every request is answered (`full_duplex_pipe_poll`)

What follows from the invariant of `FullDuplexPipePoll`: some process can always go on, every run
comes to its end, and all requests have got their replies then, unless a `poll` has timed out.

## Main results

- `Inv.progress`: some process can go on until both have ended.
- `rank`: a bound on the steps to come. A parent that sends a request pays for the two steps it
  costs the child.
- `ne_timedOut_of_reachableVia`: the parent gives up after nothing but a `poll` that times out.
- `requests_answered`: all that holds along every run, the number of steps of a run, and how a run
  without a timeout ends.
-/

namespace FullDuplexPipePoll

open Printf

variable {c : Config} {s s' : State}

/-! ## Progress -/

/-- The processes have not both ended, and neither can go on. -/
def Deadlocked (c : Config) (s : State) : Prop :=
  ¬((∃ how, s.parent = .exited how) ∧ ∃ how, s.child = .exited how) ∧
    parentStep c s = none ∧ childStep c s = none

/-- As long as it runs, the child can go on, unless it is in its `read` and the parent has its write
end open and has sent nothing. -/
theorem Inv.child_progress (h : Inv c s) (hrunning : ∀ how, s.child ≠ .exited how)
    (hread : s.child = .read → s.parentToChild ≠ [] ∨ .requestTx ∉ s.parentEnds) :
    ∃ s', childStep c s = some s' := by
  have hexchange := h.exchange
  cases hchild : s.child <;> rw [hchild] at hexchange
  case closeRequestTx => exact ⟨_, by rw [childStep, hchild]⟩
  case closeReplyRx => exact ⟨_, by rw [childStep, hchild]⟩
  case read =>
    rcases hexchange.request_eq with hrequest | ⟨r, hrequest⟩
    · have hheld : s.held .requestTx = false := by
        rw [State.held, h.childEnds, hchild]
        simpa [ChildPc.ends] using (hread hchild).resolve_left (not_not_intro hrequest)
      exact ⟨_, childStep_read_end hchild hrequest hheld⟩
    · exact ⟨_, childStep_read hchild hrequest⟩
  case writeAll text len =>
    obtain ⟨r, hr, rfl, rfl, -, hreply, -⟩ := hexchange.of_writeAll
    cases hheld : s.held .replyRx
    · exact ⟨_, childStep_writeAll_sigpipe hchild hheld⟩
    · exact ⟨_, childStep_writeAll hchild hreply hheld⟩
  case overread => exact absurd hexchange Exchange.not_overread
  case exit => exact ⟨_, by rw [childStep, hchild]⟩
  case exited how => exact absurd hchild (hrunning how)

/-- Some process can go on until both have ended. -/
theorem Inv.progress (h : Inv c s) :
    ((∃ how, s.parent = .exited how) ∧ ∃ how, s.child = .exited how) ∨
      (∃ s', parentStep c s = some s') ∨ ∃ s', childStep c s = some s' := by
  obtain ⟨parentToChild, childToParent, parent, parentEnds, i, printed, child, childEnds⟩ := s
  have hexchange := h.exchange
  dsimp only at hexchange
  -- the stage of the exchange says whose turn it is
  cases hexchange
  case between hpc hchild =>
    refine .inr (.inl ?_)
    cases parent <;> try exact hpc.elim
    case closeRequestRx => exact ⟨_, rfl⟩
    case closeReplyTx => exact ⟨_, rfl⟩
    case writeAll =>
      have hi : i < c.requests.length := h.bound
      -- the pipe is empty and the child still has its read end
      refine ⟨_, parentStep_writeAll rfl (List.getElem?_eq_getElem hi) rfl ?_⟩
      apply State.held_of_child
      rw [h.childEnds]
      exact (ChildPc.mem_ends hchild.ne_exited).1
    case closeRequestTx => exact ⟨_, rfl⟩
  case sent r hr hchild =>
    exact .inr (.inr (h.child_progress hchild.ne_exited fun _ => .inl r.text_ne_nil))
  case taken r hr => exact .inr (.inr (h.child_progress nofun nofun))
  case answered r hr hpc =>
    refine .inr (.inl ?_)
    cases parent <;> try exact hpc.elim
    · exact ⟨_, parentStep_poll rfl rfl⟩
    · exact ⟨_, parentStep_read rfl rfl⟩
  case closed hpc hchild =>
    cases parent <;> try exact hpc.elim
    case closeReplyRx => exact .inr (.inl ⟨_, rfl⟩)
    case waitForPid =>
      by_cases hended : ∃ how, child = .exited how
      · obtain ⟨how, rfl⟩ := hended
        exact .inr (.inl ⟨_, rfl⟩)
      · -- the parent has closed all its ends, so the child's `read` returns
        rw [not_exists] at hended
        refine .inr (.inr (h.child_progress hended fun _ => .inr ?_))
        rw [h.parentEnds]
        exact Finset.notMem_empty _
  case returned => exact .inl ⟨⟨_, rfl⟩, _, rfl⟩
  case abandoned r hr hchild =>
    exact .inr (.inr (h.child_progress hchild.ne_exited fun _ => .inl r.text_ne_nil))
  case alone r hr => exact .inr (.inr (h.child_progress nofun nofun))
  case killed => exact .inl ⟨⟨_, rfl⟩, _, rfl⟩

/-! ## The length of a run -/

/-- The statements that the parent has before it, and two of the child for each request that is
still to be sent. -/
def ParentPc.rank (n i : ℕ) : ParentPc → ℕ
  | closeRequestRx => 5 * n + 5
  | closeReplyTx => 5 * n + 4
  | writeAll => 5 * (n - i - 1) + 8
  | poll => 5 * (n - i - 1) + 5
  | read => 5 * (n - i - 1) + 4
  | closeRequestTx => 3
  | closeReplyRx => 2
  | waitForPid => 1
  | exited _ => 0

/-- The statements that the child has before it, without those for requests that it has not read. -/
def ChildPc.rank : ChildPc → ℕ
  | closeRequestTx => 4
  | closeReplyRx => 3
  | read => 2
  | writeAll _ _ => 3
  | overread => 0
  | exit => 1
  | exited _ => 0

/-- A bound on the number of steps that are still to come. -/
def rank (c : Config) (s : State) : ℕ :=
  s.parent.rank c.requests.length s.i + (if s.parentToChild = [] then 0 else 2) + s.child.rank

/-- A step of the parent that leaves the child and its pipe alone. -/
theorem rank_lt_of_parent (hpipe : s'.parentToChild = s.parentToChild) (hchild : s'.child = s.child)
    (h : s'.parent.rank c.requests.length s'.i < s.parent.rank c.requests.length s.i) :
    rank c s' < rank c s := by
  rw [rank, rank, hpipe, hchild]
  omega

/-- A step of the child that does not read a request. -/
theorem rank_lt_of_child (hpipe : s'.parentToChild = s.parentToChild)
    (hparent : s'.parent = s.parent) (hi : s'.i = s.i) (h : s'.child.rank < s.child.rank) :
    rank c s' < rank c s := by
  rw [rank, rank, hpipe, hparent, hi]
  omega

/-- A request that the parent sends was counted with the steps that it costs the child. -/
theorem rank_parentStep (hs : parentStep c s = some s') : rank c s' < rank c s := by
  unfold parentStep at hs
  cases hpc : s.parent <;> simp only [hpc, reduceCtorEq, Option.some.injEq] at hs
  case closeRequestRx | closeRequestTx | closeReplyRx =>
    subst hs
    refine rank_lt_of_parent rfl rfl ?_
    simp [hpc, State.parentClose, ParentPc.rank]
  case closeReplyTx =>
    subst hs
    refine rank_lt_of_parent rfl rfl ?_
    simp only [hpc, State.parentClose, loopTest]
    split <;> simp only [ParentPc.rank] <;> omega
  case writeAll =>
    simp only [Option.bind_eq_bind, Option.bind_eq_some_iff] at hs
    obtain ⟨r, hr, written, -, hs⟩ := hs
    have hi : s.i < c.requests.length := (List.getElem?_eq_some_iff.mp hr).1
    cases written <;> obtain rfl := Option.some.inj hs
    case sigpipe =>
      refine rank_lt_of_parent rfl rfl ?_
      simp [hpc, State.parentExit, ParentPc.rank]
    case wrote bytes =>
      -- the two steps that the child needs for the request are paid for by the parent
      simp only [rank, hpc, ParentPc.rank]
      split <;> split <;> omega
  case poll | waitForPid =>
    split at hs <;> simp only [reduceCtorEq, Option.some.injEq] at hs
    subst hs
    refine rank_lt_of_parent rfl rfl ?_
    simp [hpc, State.parentExit, ParentPc.rank]
  case read =>
    simp only [Option.bind_eq_bind, Option.bind_eq_some_iff] at hs
    obtain ⟨⟨data, rest⟩, -, hs⟩ := hs
    dsimp only at hs
    split at hs <;> obtain rfl := Option.some.inj hs <;> refine rank_lt_of_parent rfl rfl ?_
    · simp [hpc, State.parentExit, ParentPc.rank]
    · simp only [hpc, loopTest]
      split <;> simp only [ParentPc.rank] <;> omega

/-- A parent that gives up has nothing left to do. -/
theorem rank_timeoutStep (hs : timeoutStep s = some s') : rank c s' < rank c s := by
  unfold timeoutStep at hs
  cases hpc : s.parent <;> simp only [hpc, reduceCtorEq] at hs
  split at hs <;> simp only [reduceCtorEq, Option.some.injEq] at hs
  subst hs
  refine rank_lt_of_parent rfl rfl ?_
  simp [hpc, State.parentExit, ParentPc.rank]

/-- The child has fewer steps left, or a request less to read. -/
theorem Inv.rank_childStep (h : Inv c s) (hs : childStep c s = some s') :
    rank c s' < rank c s := by
  have hexchange := h.exchange
  cases hchild : s.child <;> rw [hchild] at hexchange
  case read =>
    rcases hexchange.request_eq with hrequest | ⟨r, hrequest⟩
    · cases hheld : s.held .requestTx
      · rw [childStep_read_end hchild hrequest hheld] at hs
        obtain rfl := Option.some.inj hs
        refine rank_lt_of_child rfl rfl rfl ?_
        simp [hchild, ChildPc.rank]
      · rw [childStep_read_blocked hchild hrequest hheld] at hs
        cases hs
    · rw [childStep_read hchild hrequest] at hs
      obtain rfl := Option.some.inj hs
      -- the request in the pipe paid for the two steps that follow
      simp only [rank, hchild, hrequest, if_neg r.text_ne_nil, ChildPc.rank]
      simp
  case writeAll text len =>
    obtain ⟨r, hr, rfl, rfl, -, hreply, -⟩ := hexchange.of_writeAll
    cases hheld : s.held .replyRx
    · rw [childStep_writeAll_sigpipe hchild hheld] at hs
      obtain rfl := Option.some.inj hs
      refine rank_lt_of_child rfl rfl rfl ?_
      simp [hchild, State.childExit, ChildPc.rank]
    · rw [childStep_writeAll hchild hreply hheld] at hs
      obtain rfl := Option.some.inj hs
      refine rank_lt_of_child rfl rfl rfl ?_
      simp [hchild, ChildPc.rank]
  all_goals
    simp only [childStep, hchild, reduceCtorEq, Option.some.injEq] at hs
  all_goals
    subst hs
    refine rank_lt_of_child rfl rfl rfl ?_
    simp [hchild, State.childClose, State.childExit, ChildPc.rank]

/-- Every step leaves less to do. -/
theorem rank_step {a : Action} (h : (system c).Reachable s) (hs : (system c).step s a = some s') :
    rank c s' < rank c s := by
  cases a with
  | parent => exact rank_parentStep hs
  | child => exact (inv_of_reachable h).rank_childStep hs
  | timeout => exact rank_timeoutStep hs

/-- A step of the child leaves the parent and its descriptors alone. -/
theorem parent_childStep (hs : childStep c s = some s') :
    s'.parent = s.parent ∧ s'.parentEnds = s.parentEnds := by
  unfold childStep at hs
  cases hpc : s.child <;> simp only [hpc, reduceCtorEq, Option.some.injEq] at hs
  case read =>
    simp only [Option.bind_eq_bind, Option.bind_eq_some_iff] at hs
    obtain ⟨⟨data, rest⟩, -, hs⟩ := hs
    dsimp only at hs
    split at hs <;> obtain rfl := Option.some.inj hs <;> exact ⟨rfl, rfl⟩
  case writeAll text len =>
    split at hs
    · obtain rfl := Option.some.inj hs
      exact ⟨rfl, rfl⟩
    · simp only [Option.bind_eq_bind, Option.bind_eq_some_iff] at hs
      obtain ⟨written, -, hs⟩ := hs
      cases written <;> obtain rfl := Option.some.inj hs <;> exact ⟨rfl, rfl⟩
  all_goals
    subst hs
    exact ⟨rfl, rfl⟩

/-- The child leaves its loop without the help of the parent, once that has closed its write
end. -/
theorem exists_child_exits (h : (system c).Reachable s) (hclosed : .requestTx ∉ s.parentEnds) :
    ∃ k s' how, (system c).run s (List.replicate k .child) = some s' ∧ s'.child = .exited how := by
  -- the child cannot block, and the rank bounds its steps
  induction hrank : rank c s using Nat.strong_induction_on generalizing s with
  | _ m ih =>
    by_cases hended : ∃ how, s.child = .exited how
    · obtain ⟨how, hchild⟩ := hended
      exact ⟨0, s, how, rfl, hchild⟩
    · rw [not_exists] at hended
      obtain ⟨s', hs'⟩ := (inv_of_reachable h).child_progress hended fun _ => .inr hclosed
      have hstep : (system c).step s .child = some s' := hs'
      have hlt : rank c s' < m := hrank ▸ rank_step h hstep
      have hclosed' : .requestTx ∉ s'.parentEnds := by
        rw [(parent_childStep hs').2]
        exact hclosed
      obtain ⟨k, s'', how, hrun, hchild⟩ := ih _ hlt (h.next hstep) hclosed' rfl
      refine ⟨k + 1, s'', how, ?_, hchild⟩
      rw [List.replicate_succ, TransitionSystem.run_cons hstep]
      exact hrun

/-! ## Runs without a timeout -/

/-- No `poll` of the parent times out. -/
def NoTimeout (_ : State) (a : Action) : Prop :=
  a ≠ .timeout

/-- The statements of the parent do not end it as a timeout does. -/
theorem parentStep_ne_timedOut (hs : parentStep c s = some s') :
    s'.parent ≠ .exited .timedOut := by
  have htest : ∀ i, loopTest c i ≠ .exited .timedOut := by
    intro i
    unfold loopTest
    split <;> simp
  unfold parentStep at hs
  cases hpc : s.parent <;> simp only [hpc, reduceCtorEq, Option.some.injEq] at hs
  case closeRequestRx | closeRequestTx | closeReplyRx =>
    subst hs
    simp [State.parentClose]
  case closeReplyTx =>
    subst hs
    exact htest 0
  case writeAll =>
    simp only [Option.bind_eq_bind, Option.bind_eq_some_iff] at hs
    obtain ⟨r, -, written, -, hs⟩ := hs
    cases written <;> obtain rfl := Option.some.inj hs <;> simp [State.parentExit]
  case poll | waitForPid =>
    split at hs <;> simp only [reduceCtorEq, Option.some.injEq] at hs
    subst hs
    simp [State.parentExit]
  case read =>
    simp only [Option.bind_eq_bind, Option.bind_eq_some_iff] at hs
    obtain ⟨⟨data, rest⟩, -, hs⟩ := hs
    dsimp only at hs
    split at hs <;> obtain rfl := Option.some.inj hs
    · simp [State.parentExit]
    · exact htest (s.i + 1)

/-- The parent gives up after nothing but a timeout. -/
theorem ne_timedOut_of_reachableVia (h : (system c).ReachableVia NoTimeout s) :
    s.parent ≠ .exited .timedOut := by
  refine h.invariant (P := fun s => s.parent ≠ .exited .timedOut) (by simp [system, init]) ?_
  intro s a s' hne hok hs
  cases a with
  | parent => exact parentStep_ne_timedOut hs
  | child =>
    rw [(parent_childStep hs).1]
    exact hne
  | timeout => exact absurd rfl hok

/-! ## What holds along every run -/

/-- What the program guarantees in a state of a run. -/
structure Correct (c : Config) (s : State) : Prop where
  /-- The `i`-th text printed is the reply to the `i`-th request. -/
  printed : s.printed = (c.requests.take s.i).map (replyTo c)
  /-- A parent that returns has printed all replies. -/
  returned : s.parent = .exited .returned → s.printed = c.requests.map (replyTo c)
  /-- The parent dies of nothing but a `poll` that timed out. -/
  parent_end : ∀ how, s.parent = .exited how → how = .returned ∨ how = .timedOut
  /-- `snprintf` has not truncated the reply. -/
  fits : ∀ text len, s.child = .writeAll text len →
    len < replySize ∧ ∃ r, c.requests[s.i]? = some r ∧ text = replyTo c r ∧ len = text.length
  /-- No `write` of `write_all` reads past the end of `reply`. -/
  inside : ∀ text len, s.child = .writeAll text len → ∀ returns,
    ∀ call ∈ (WriteAll.writeAll (text ++ ['\x00']) len returns).calls, call.1 + call.2 ≤ replySize
  not_overread : s.child ≠ .overread
  /-- The parent's `read` gets one whole reply and leaves nothing. -/
  whole : s.parent = .read → ∃ r, c.requests[s.i]? = some r ∧
    Pipe.read 159 (s.held .replyTx) s.childToParent = some (replyTo c r, [])
  /-- Once the parent has closed its write end, the child leaves its loop, on its own. -/
  leaves : .requestTx ∉ s.parentEnds → ∃ k s' how,
    (system c).run s (List.replicate k .child) = some s' ∧ s'.child = .exited how
  not_deadlocked : ¬Deadlocked c s

/-- A parent that returns has been through all rounds. -/
theorem Inv.returned (h : Inv c s) (hpc : s.parent = .exited .returned) :
    s.printed = c.requests.map (replyTo c) := by
  have hi : s.i = c.requests.length := by
    have hbound := h.bound
    rw [hpc] at hbound
    exact hbound
  rw [h.printed, hi, List.take_length]

/-- The reply that the child is about to write is complete. -/
theorem Inv.fits (h : Inv c s) {text : List Char} {len : ℕ}
    (hchild : s.child = .writeAll text len) :
    len < replySize ∧ ∃ r, c.requests[s.i]? = some r ∧ text = replyTo c r ∧ len = text.length := by
  have hexchange := h.exchange
  rw [hchild] at hexchange
  obtain ⟨r, hr, rfl, rfl, -⟩ := hexchange.of_writeAll
  exact ⟨length_replyTo_lt c r, r, hr, rfl, rfl⟩

/-- The guarantees, along every run. -/
theorem reachable_correct (h : (system c).Reachable s) : Correct c s := by
  have hinv := inv_of_reachable h
  refine ⟨hinv.printed, hinv.returned, ?_, fun _ _ => hinv.fits, ?_, ?_, ?_,
    exists_child_exits h, ?_⟩
  · intro how hpc
    have hexchange := hinv.exchange
    rw [hpc] at hexchange
    exact hexchange.parent_end
  · intro text len hchild returns call hcall
    rw [WriteAll.calls_writeAll _ _ returns call hcall]
    exact (hinv.fits hchild).1.le
  · intro hchild
    have hexchange := hinv.exchange
    rw [hchild] at hexchange
    exact hexchange.not_overread
  · intro hpc
    have hexchange := hinv.exchange
    rw [hpc] at hexchange
    obtain ⟨r, hr, hreply⟩ := hexchange.of_read
    rw [hreply]
    exact ⟨r, hr, read_replyTo c r _⟩
  · rintro ⟨hrunning, hparent, hchild⟩
    rcases hinv.progress with hended | ⟨s', hs'⟩ | ⟨s', hs'⟩
    · exact hrunning hended
    · rw [hparent] at hs'
      cases hs'
    · rw [hchild] at hs'
      cases hs'

/-- A parent that has ended without a timeout has printed all replies. -/
theorem printed_of_ended (h : (system c).ReachableVia NoTimeout s) {how : ParentEnd}
    (hpc : s.parent = .exited how) :
    how = .returned ∧ s.printed = c.requests.map (replyTo c) := by
  have hcorrect := reachable_correct h.reachable
  rcases hcorrect.parent_end how hpc with rfl | rfl
  · exact ⟨rfl, hcorrect.returned hpc⟩
  · exact absurd hpc (ne_timedOut_of_reachableVia h)

/-- For all requests and process ids and along every interleaving, with timeouts or without: the
texts printed are the replies, in order and complete; the buffers hold them, and no read splits or
merges them; no state is deadlocked, and every run comes to its end. In a run in which no `poll`
times out, the parent that has come to its end has returned and printed the replies to all
requests. -/
theorem requests_answered (c : Config) :
    (∀ s, (system c).Reachable s → Correct c s) ∧
      (∀ as s, (system c).run init as = some s → as.length ≤ 5 * c.requests.length + 9) ∧
      ∀ s, (system c).ReachableVia NoTimeout s → parentStep c s = none → childStep c s = none →
        s.parent = .exited .returned ∧ s.printed = c.requests.map (replyTo c) := by
  refine ⟨fun s => reachable_correct, fun as s hrun => ?_, fun s hs hparent hchild => ?_⟩
  · have hle := TransitionSystem.Reachable.length_run_le (fun _ _ _ => rank_step) .init hrun
    exact (Nat.le_add_right _ _).trans hle
  · -- neither process can go on, so both have ended
    have hended : ∃ how, s.parent = .exited how := by
      by_contra hrunning
      exact (reachable_correct hs.reachable).not_deadlocked
        ⟨fun hboth => hrunning hboth.1, hparent, hchild⟩
    obtain ⟨how, hpc⟩ := hended
    obtain ⟨rfl, hprinted⟩ := printed_of_ended hs hpc
    exact ⟨hpc, hprinted⟩

/-- A run with the requests of the source, from `fork` to the end of both processes. -/
example :
    let c : Config :=
      { requests := sourceRequests, pid := 4242, pid_pos := by decide, pid_lt := by decide,
        capacity := 65536, le_capacity := by decide }
    let round : List Action := [.parent, .child, .child, .parent, .parent]
    ((system c).run init
      ([.parent, .child, .parent, .child] ++ round ++ round ++ round ++
        [.parent, .child, .parent, .child, .parent])).map (fun s => (s.parent, s.printed)) =
      some (.exited .returned,
        ["child pid=4242 processed: read inode\n".toList,
          "child pid=4242 processed: flush page cache\n".toList,
          "child pid=4242 processed: sync journal\n".toList]) := by
  decide +kernel

end FullDuplexPipePoll
