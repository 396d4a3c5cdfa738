import OsPrograms.FileLocking.FlockParentChild

/-!
# Progress of `flock_parent_child`

`flock(fd, LOCK_EX)` waits for the lock. It is held by another instance, which goes on because its
child does not wait, or by a child, which goes on to exit. So nobody waits for ever.
-/

namespace FlockParentChild

/-- The statements that a process has still to execute, those of its child included before it is
forked. -/
def Pc.rank : Pc → ℕ
  | openFile => 11
  | flock _ => 10
  | fork _ => 9
  | waitForPid _ => 4
  | unlock _ => 3
  | unlink => 2
  | ret => 1
  | exited _ => 0

/-- The statements that a child has still to execute. -/
def ChildPc.rank : ChildPc → ℕ
  | openFile _ => 4
  | flock _ _ => 3
  | print _ => 2
  | exit _ _ => 1
  | unborn | exited _ => 0

/-- The statements that all processes have still to execute. -/
def State.rank {n : ℕ} (s : State n) : ℕ :=
  ∑ p, ((s.inst p).pc.rank + (s.inst p).child.rank)

section Progress

variable {n : ℕ} {leftover : Option (List Char)} {s s' : State n} {p : Fin n} {a : Action n}

/-- A step of one instance that leaves it less to do. -/
theorem rank_lt_of_update {x : Instance} (hinst : s'.inst = Function.update s.inst p x)
    (hx : x.pc.rank + x.child.rank < (s.inst p).pc.rank + (s.inst p).child.rank) :
    s'.rank < s.rank := by
  have hsum := Finset.sum_update_add (fun x : Instance => x.pc.rank + x.child.rank) s.inst p x
  rw [← hinst] at hsum
  simp only [State.rank]
  omega

/-- An instance that ends has nothing left to do. -/
theorem rank_exit (status : Option ℕ) (hpos : 0 < (s.inst p).pc.rank) :
    (s.exit p status).rank < s.rank :=
  rank_lt_of_update rfl (Nat.add_lt_add_right hpos _)

/-- A child that ends has nothing left to do. -/
theorem rank_exitChild (status : Option ℕ) (hpos : 0 < (s.inst p).child.rank) :
    (s.exitChild p status).rank < s.rank := by
  have hinst : (s.exitChild p status).inst =
      Function.update s.inst p { s.inst p with child := .exited status } := by
    unfold State.exitChild
    split <;> rfl
  exact rank_lt_of_update hinst (Nat.add_lt_add_left hpos _)

/-- There is no loop in the parent. -/
theorem rank_mainStep (hs : mainStep s p = some s') : s'.rank < s.rank := by
  unfold mainStep at hs
  cases hpc : (s.inst p).pc <;> simp only [hpc, Option.some.injEq, reduceCtorEq] at hs
  case flock fd =>
    split at hs
    · obtain rfl := Option.some.inj hs
      exact rank_lt_of_update rfl (by simp [hpc, Pc.rank])
    · cases hs
  case fork fd =>
    subst hs
    refine rank_lt_of_update rfl ?_
    simp only [hpc, Pc.rank, ChildPc.rank]
    omega
  case waitForPid fd =>
    split at hs
    · obtain rfl := Option.some.inj hs
      exact rank_lt_of_update rfl (by simp [hpc, Pc.rank])
    · cases hs
  case ret =>
    subst hs
    exact rank_exit _ (by simp [hpc, Pc.rank])
  all_goals
    subst hs
    exact rank_lt_of_update rfl (by simp [hpc, Pc.rank])

/-- There is no loop in the child. -/
theorem rank_childStep (hs : childStep s p = some s') : s'.rank < s.rank := by
  unfold childStep at hs
  cases hpc : (s.inst p).child <;> simp only [hpc, Option.some.injEq, reduceCtorEq] at hs
  case flock fd fd2 =>
    rcases fd2 with _ | fd2
    · obtain rfl := Option.some.inj hs
      exact rank_lt_of_update rfl (by simp [hpc, ChildPc.rank])
    · simp only at hs
      split at hs <;> obtain rfl := Option.some.inj hs <;>
        exact rank_lt_of_update rfl (by simp [hpc, ChildPc.rank])
  case exit fd status =>
    subst hs
    exact rank_exitChild _ (by simp [hpc, ChildPc.rank])
  all_goals
    subst hs
    exact rank_lt_of_update rfl (by simp [hpc, ChildPc.rank])

/-- Every step, failures and kills included, leaves less to do. -/
theorem rank_step (hs : step s a = some s') : s'.rank < s.rank := by
  cases a with
  | main p => exact rank_mainStep hs
  | child p => exact rank_childStep hs
  | killChild p =>
    simp only [step, Option.ite_none_left_eq_some, Option.some.injEq] at hs
    obtain ⟨hrunning, rfl⟩ := hs
    refine rank_exitChild none ?_
    cases hpc : (s.inst p).child <;> simp_all [ChildPc.inherited, ChildPc.rank]
  | openFails p | forkFails p | kill p =>
    simp only [step] at hs
    split at hs
    all_goals first
      | cases hs; done
      | obtain rfl := Option.some.inj hs
        refine rank_exit _ ?_
        cases hpc : (s.inst p).pc <;> simp_all [Pc.rank]

/-- A child never waits. -/
theorem inherited_of_childStep_eq_none (hs : childStep s p = none) :
    (s.inst p).child.inherited = none := by
  unfold childStep at hs
  cases hpc : (s.inst p).child <;> simp only [hpc, reduceCtorEq] at hs
  case flock fd fd2 =>
    rcases fd2 with _ | fd2
    · cases hs
    · simp only at hs
      split at hs <;> cases hs
  all_goals rfl

/-- When no process can go on, there are none left, and nothing is locked. -/
theorem Inv.ended (h : Inv s) (hmain : ∀ p, FlockParentChild.mainStep s p = none)
    (hchild : ∀ p, FlockParentChild.childStep s p = none) :
    (∀ p, (∃ status, (s.inst p).pc = .exited status) ∧ (s.inst p).child.inherited = none) ∧
      ∀ l, s.file.holder l = none := by
  have hinherited (p : Fin n) := inherited_of_childStep_eq_none (hchild p)
  -- nobody is left but those that wait for a lock
  have hwaits (p : Fin n) :
      (∃ fd, (s.inst p).pc = .flock fd ∧ s.file.tryLock (.main p) fd = none) ∨
        ∃ status, (s.inst p).pc = .exited status := by
    have hnone := hmain p
    have hstage := h.stage p
    unfold Instance.Stage at hstage
    unfold FlockParentChild.mainStep at hnone
    cases hpc : (s.inst p).pc <;> simp only [hpc, reduceCtorEq] at hnone hstage
    case flock fd =>
      split at hnone
      · cases hnone
      next hlock => exact .inl ⟨fd, rfl, hlock⟩
    case waitForPid fd =>
      have hended := hinherited p
      cases hc : (s.inst p).child <;> simp_all [ChildPc.inherited]
    case exited status => exact .inr ⟨status, rfl⟩
  have hfree (l : ℕ) : s.file.holder l = none := by
    rw [Option.eq_none_iff_forall_ne_some]
    rintro (q | q) hl
    · rcases (h.main l q).mp hl with hlocked | hheld
      · rcases hwaits q with ⟨fd, hpc, -⟩ | ⟨status, hpc⟩ <;> simp [hpc, Pc.locked] at hlocked
      · simp [hinherited q] at hheld
    · obtain ⟨fd, hfd⟩ := h.child l q hl
      have hended := hinherited q
      simp [hfd, ChildPc.inherited] at hended
  refine ⟨fun p => ⟨(hwaits p).resolve_left ?_, hinherited p⟩, hfree⟩
  rintro ⟨fd, -, hlock⟩
  have hgranted :=
    (LockFile.tryLock_eq_some_iff (o := .main p)).mpr ⟨.inl (hfree fd), rfl⟩
  rw [hlock] at hgranted
  cases hgranted

end Progress

/-- All runs end, after eleven steps for each instance at most, whatever fails and whoever is
killed. When no process can go on, all have ended and nothing is locked: nobody waits for a lock for
ever. -/
theorem flock_completes (n : ℕ) (leftover : Option (List Char)) :
    (∀ as s, (system leftover).run (init leftover : State n) as = some s → as.length ≤ 11 * n) ∧
      ∀ s : State n, (system leftover).Reachable s →
        (∀ p, mainStep s p = none ∧ childStep s p = none) →
        (∀ p, (∃ status, (s.inst p).pc = .exited status) ∧ (s.inst p).child.inherited = none) ∧
          ∀ l, s.file.holder l = none := by
  refine ⟨fun as s hrun => ?_, fun s hs hnone => ?_⟩
  · have hlen : as.length + s.rank ≤ (init leftover : State n).rank :=
      TransitionSystem.Reachable.length_run_le
        (fun s a s' _ (hstep : (system leftover).step s a = some s') => rank_step hstep) .init hrun
    have hinit : (init leftover : State n).rank = n * 11 := by
      simp [State.rank, init, Pc.rank, ChildPc.rank]
    omega
  · exact (inv_of_reachable hs).ended (fun p => (hnone p).1) fun p => (hnone p).2

end FlockParentChild
