import OsPrograms.Pipes.AnonymousPipelineExec

/-!
# All runs of `anonymous_pipeline_exec` end

A reader of a pipe waits until there is data or until all write ends are closed, and a process that
forgets to close one can leave it waiting. Here no process waits for ever, whatever descriptors are
open at the start, if `fork` or `execlp` fails, or if `tr` exits before the end of its input: the
child has closed its write end before it reads, and the parent closes the other one, or ends, before
it waits for the child.

## Main results

- `pipeline_ends`: the length of runs, and where they end.
-/

namespace AnonymousPipelineExec

/-- What is left to do for the parent. The child's statements and the bytes of the payload count
until they are there. -/
def Parent.rank : Parent → ℕ
  | .pipe => payload.length + 12
  | .fork => payload.length + 11
  | .closeRead => payload.length + 4
  | .write => payload.length + 3
  | .closeWrite => 2
  | .wait => 1
  | .returned | .died | .killed => 0

/-- What is left to do for the child, apart from reading. -/
def Child.rank : Child → ℕ
  | .closeWrite => 6
  | .dup2 => 5
  | .closeRead => 4
  | .exec => 3
  | .tr => 2
  | .eof => 1
  | .unborn | .exited => 0

/-- What is left to do. -/
def State.rank (s : State) : ℕ :=
  s.parent.rank + s.child.rank + s.pipe.length

section Rank

variable {s s' : State} {a : Action}

/-- An `xclose` of the parent, whether it fails or not. -/
theorem rank_parentClose (fd : ℕ) {next : Parent} (hnext : next.rank < s.parent.rank) :
    (parentClose s fd next).rank < s.rank := by
  have hdied : Parent.died.rank = 0 := rfl
  unfold parentClose
  split
  · show Parent.died.rank + s.child.rank + s.pipe.length < s.rank
    rw [State.rank]
    omega
  · show next.rank + s.child.rank + s.pipe.length < s.rank
    rw [State.rank]
    omega

/-- An `xclose` of the child, whether it fails or not. -/
theorem rank_childClose (fd : ℕ) {next : Child} (hnext : next.rank < s.child.rank) :
    (childClose s fd next).rank < s.rank := by
  have hexited : Child.exited.rank = 0 := rfl
  unfold childClose
  split
  · show s.parent.rank + Child.exited.rank + s.pipe.length < s.rank
    rw [State.rank]
    omega
  · show s.parent.rank + next.rank + s.pipe.length < s.rank
    rw [State.rank]
    omega

/-- What the parent writes was counted for it before, and is counted in the pipe now. -/
theorem rank_parentStep (hunborn : s.parent = .fork → s.child = .unborn)
    (hs : parentStep s = some s') : s'.rank < s.rank := by
  unfold parentStep at hs
  cases hpc : s.parent <;> simp only [hpc, reduceCtorEq] at hs
  case pipe =>
    obtain rfl := Option.some.inj hs
    simp only [State.rank, hpc, Parent.rank]
    omega
  case fork =>
    obtain rfl := Option.some.inj hs
    -- the child's statements are counted for the child from now on
    simp only [State.rank, hpc, hunborn hpc, Parent.rank, Child.rank]
    omega
  case closeRead =>
    obtain rfl := Option.some.inj hs
    exact rank_parentClose _ (by simp [hpc, Parent.rank])
  case write =>
    split_ifs at hs <;> obtain rfl := Option.some.inj hs <;>
      simp only [State.rank, hpc, Parent.rank, List.length_append] <;> omega
  case closeWrite =>
    obtain rfl := Option.some.inj hs
    exact rank_parentClose _ (by simp [hpc, Parent.rank])
  case wait =>
    split_ifs at hs
    obtain rfl := Option.some.inj hs
    simp only [State.rank, hpc, Parent.rank]
    omega

/-- There is no loop in the child. -/
theorem rank_childStep (hs : childStep s = some s') : s'.rank < s.rank := by
  unfold childStep at hs
  cases hpc : s.child <;> simp only [hpc, reduceCtorEq] at hs
  case closeWrite =>
    obtain rfl := Option.some.inj hs
    exact rank_childClose _ (by simp [hpc, Child.rank])
  case dup2 =>
    split at hs <;> obtain rfl := Option.some.inj hs <;>
      simp only [State.rank, hpc, Child.rank] <;> omega
  case closeRead =>
    obtain rfl := Option.some.inj hs
    exact rank_childClose _ (by simp [hpc, Child.rank])
  case exec =>
    obtain rfl := Option.some.inj hs
    simp only [State.rank, hpc, Child.rank]
    omega

/-- `tr` takes something from the pipe, or sees its end. -/
theorem rank_readStep {count : ℕ} (hs : readStep s count = some s') : s'.rank < s.rank := by
  unfold readStep at hs
  split_ifs at hs with hpc hstdin hdata hwriter <;> obtain rfl := Option.some.inj hs
  · -- at least one byte is read
    have hpos := List.length_pos_iff.mpr hdata
    simp only [State.rank, List.length_drop]
    omega
  · simp only [State.rank, hpc, Child.rank]
    omega
  · simp only [State.rank, hpc, Child.rank]
    omega

/-- Every step leaves less to do. -/
theorem rank_step (hunborn : s.parent = .fork → s.child = .unborn) (hs : step s a = some s') :
    s'.rank < s.rank := by
  cases a with
  | parent => exact rank_parentStep hunborn hs
  | child => exact rank_childStep hs
  | read count => exact rank_readStep hs
  | forkFails =>
    simp only [step, Option.ite_none_right_eq_some, Option.some.injEq] at hs
    obtain ⟨hpc, rfl⟩ := hs
    simp only [State.rank, hpc, Parent.rank]
    omega
  | execFails =>
    simp only [step, Option.ite_none_right_eq_some, Option.some.injEq] at hs
    obtain ⟨hpc, rfl⟩ := hs
    simp only [State.rank, hpc, Child.rank]
    omega
  | exit =>
    simp only [step, Option.ite_none_right_eq_some, Option.some.injEq] at hs
    obtain ⟨hpc, rfl⟩ := hs
    rcases hpc with hpc | hpc <;> simp only [State.rank, hpc, Child.rank] <;> omega

end Rank

section Progress

variable {opened : Finset ℕ} {s : State}

theorem child_parentClose (s : State) (fd : ℕ) (next : Parent) :
    (parentClose s fd next).child = s.child := by
  unfold parentClose
  split <;> rfl

/-- Only `fork` makes the child, and only before it has returned there is none. -/
def Forked (s : State) : Prop :=
  s.child = .unborn → s.parent = .pipe ∨ s.parent = .fork ∨ s.parent = .died

/-- The parent goes beyond `fork` only with a child. -/
theorem Forked.parentStep {s' : State} (h : Forked s) (hs : parentStep s = some s') :
    Forked s' := by
  intro hunborn
  unfold AnonymousPipelineExec.parentStep at hs
  unfold Forked at h
  cases hpc : s.parent <;> simp only [hpc, reduceCtorEq, or_false, imp_false] at hs h
  case pipe =>
    obtain rfl := Option.some.inj hs
    exact .inr (.inl rfl)
  case fork =>
    obtain rfl := Option.some.inj hs
    cases hunborn
  case closeRead | closeWrite =>
    obtain rfl := Option.some.inj hs
    rw [child_parentClose] at hunborn
    exact absurd hunborn h
  case write =>
    split_ifs at hs <;> obtain rfl := Option.some.inj hs <;> exact absurd hunborn h
  case wait =>
    split_ifs at hs
    obtain rfl := Option.some.inj hs
    exact absurd hunborn h

/-- This holds along every run. -/
theorem forked_of_reachable (h : (system opened).Reachable s) : Forked s := by
  refine h.invariant' (fun _ => .inl rfl) ?_
  intro s a s' hreach ih hs
  cases a with
  | parent => exact ih.parentStep hs
  | child =>
    change childStep s = some s' at hs
    rw [(inv_of_reachable hreach).childStep_eq, Option.map_eq_some_iff] at hs
    obtain ⟨next, hnext, rfl⟩ := hs
    rintro rfl
    cases hpc : s.child <;> simp [hpc, Child.next] at hnext
  | read count =>
    change readStep s count = some s' at hs
    unfold readStep at hs
    split_ifs at hs with hpc <;> obtain rfl := Option.some.inj hs
    · exact fun hunborn => absurd (hpc.symm.trans hunborn) (by simp)
    · exact fun hunborn => by cases hunborn
    · exact fun hunborn => by cases hunborn
  | forkFails =>
    simp only [system, step, Option.ite_none_right_eq_some, Option.some.injEq] at hs
    obtain ⟨-, rfl⟩ := hs
    exact fun _ => .inr (.inr rfl)
  | execFails | exit =>
    simp only [system, step, Option.ite_none_right_eq_some, Option.some.injEq] at hs
    obtain ⟨-, rfl⟩ := hs
    exact fun hunborn => by cases hunborn

/-- A child that cannot go on has ended, or has not been forked yet. -/
theorem child_of_none (hinv : Inv opened s) (hclosed : ¬s.parentTable.RefersTo .writeEnd)
    (hchild : childStep s = none) (hread : readStep s 0 = none) (heof : s.child ≠ .eof) :
    s.child = .unborn ∨ s.child = .exited := by
  rw [hinv.childStep_eq] at hchild
  cases hpc : s.child <;> simp only [hpc, Child.next, Option.map_some, reduceCtorEq] at hchild
  case unborn => exact .inl rfl
  case exited => exact .inr rfl
  case eof => exact absurd hpc heof
  case tr =>
    -- no write end is left, so that `read` returns
    have hown : ¬s.childTable.RefersTo .writeEnd := by
      rw [hinv.childTable]
      exact not_refersTo_childTable opened (by simp [hpc])
    unfold readStep at hread
    rw [if_pos hpc] at hread
    split_ifs at hread with hstdin hdata hwriter
    exact absurd hwriter (not_or.mpr ⟨hclosed, hown⟩)

/-- A parent that cannot go on has ended, or waits for the child. -/
theorem parent_of_none (hparent : parentStep s = none) :
    s.parent = .wait ∧ s.child ≠ .exited ∨
      s.parent = .returned ∨ s.parent = .died ∨ s.parent = .killed := by
  unfold parentStep at hparent
  cases hpc : s.parent <;> simp only [hpc, reduceCtorEq] at hparent
  case write => split_ifs at hparent
  case wait =>
    split_ifs at hparent with hexited
    exact .inl ⟨rfl, hexited⟩
  case returned => simp
  case died => simp
  case killed => simp

/-- A parent that is past its second `xclose`, or dead, has no write end. -/
theorem not_refersTo_of_closed (hinv : Inv opened s)
    (hpc : s.parent = .wait ∨ s.parent = .returned ∨ s.parent = .died ∨ s.parent = .killed) :
    ¬s.parentTable.RefersTo .writeEnd := by
  have hempty : ¬(Descriptors.empty : Descriptors File).RefersTo .writeEnd := by
    rw [Descriptors.refersTo_iff]
    rintro ⟨k, hk⟩
    cases hk
  rw [hinv.parentTable]
  rcases hpc with hpc | hpc | hpc | hpc <;> rw [hpc]
  · exact not_refersTo_waitTable opened
  all_goals exact hempty

end Progress

/-- For every set of descriptors that are open at the start, all runs end, after twelve steps and
one for each byte of the payload at most. When nobody can go on, and `tr` has exited if it has seen
the end of its input, the parent has ended, and so has the child unless `fork` failed. -/
theorem pipeline_ends (opened : Finset ℕ) :
    (∀ as s, (system opened).run (system opened).init as = some s →
      as.length ≤ payload.length + 12) ∧
    ∀ s, (system opened).Reachable s → parentStep s = none → childStep s = none →
      (∀ count, readStep s count = none) → s.child ≠ .eof →
      (s.parent = .returned ∨ s.parent = .died ∨ s.parent = .killed) ∧
        (s.child = .exited ∨ s.child = .unborn ∧ s.parent = .died) := by
  refine ⟨fun as s hrun => ?_, fun s hs hparent hchild hread heof => ?_⟩
  · have hlen := TransitionSystem.Reachable.length_run_le
      (fun s a s' h (hs : (system opened).step s a = some s') =>
        rank_step (fun hpc => (inv_of_reachable h).unborn (.inr hpc)) hs) .init hrun
    have hinit : (system opened).init.rank = payload.length + 12 := rfl
    omega
  · have hinv := inv_of_reachable hs
    have hended := parent_of_none hparent
    have hclosed := not_refersTo_of_closed hinv (hended.imp_left And.left)
    have hborn := forked_of_reachable hs
    rcases child_of_none hinv hclosed hchild (hread 0) heof with hunborn | hexited
    · have hdied : s.parent = .died := by
        rcases hborn hunborn with hpc | hpc | hpc
        · simp [hpc] at hended
        · simp [hpc] at hended
        · exact hpc
      exact ⟨.inr (.inl hdied), .inr ⟨hunborn, hdied⟩⟩
    · exact ⟨hended.resolve_left fun hwait => hwait.2 hexited, .inl hexited⟩

end AnonymousPipelineExec
