import OsPrograms.FileLocking.LockfileSingleInstance

/-!
# What the lock file says

An instance of `lockfile_single_instance` writes its pid into the lock file, with `dprintf` right
after `open` and `try_lock`. The file is opened without `O_TRUNC`, so the line replaces as many
bytes as it has and leaves the rest of what was there. A normal exit removes the file; an instance
that is killed leaves it to the next one.

Here the instances of `LockfileSingleInstance` are started one after the other (`OneAtATime`).

## Main results

- `Sequential`: the one instance that runs has opened the file that `LOCK_PATH` refers to.
- `pid_recorded_iff`: the file says exactly the pid of the running instance along every history in
  which each `dprintf` finds a file that is not longer than its line; along all histories exactly
  when all lines have one length and nothing longer was there in the beginning.
-/

namespace LockfileSingleInstance

/-- The process has been started and has not ended. -/
def Pc.Started (pc : Pc) : Prop :=
  pc ≠ .openFile ∧ ∀ status, pc ≠ .exited status

/-- The inode to which the process has written its pid, while its name is there. -/
def Pc.recordedInode : Pc → Option ℕ
  | .fork fd | .waitForPid fd | .unlink fd => some fd
  | .openFile | .tryLock _ | .writePid _ | .ret | .exited _ => none

variable {ι : Type} [DecidableEq ι] {pid : ι → ℕ} {leftover : Option (List Char)}
  {s s' : State ι} {p : ι}

/-- An instance starts only when the others have not started or have ended. -/
def OneAtATime (s : State ι) (a : Action ι) : Prop :=
  ∀ p, a = .main p → (s.inst p).pc = .openFile → ∀ q, ¬(s.inst q).pc.Started

/-- The step, if it is a `dprintf`, finds a file that is not longer than the line it writes. -/
def LineCovers (pid : ι → ℕ) (s : State ι) (a : Action ι) : Prop :=
  ∀ p fd, a = .main p → (s.inst p).pc = .writePid fd →
    (s.file.content fd).length ≤ (pidLine (pid p)).length

/-- The file at `LOCK_PATH` contains exactly the pid of an instance that has executed its
`dprintf`. -/
def PidRecorded (pid : ι → ℕ) (s : State ι) : Prop :=
  ∀ p fd, (s.inst p).pc.recordedInode = some fd →
    s.file.entry = some fd ∧ s.file.content fd = pidLine (pid p)

/-! ## What a step does to the file -/

/-- What a step of instance `p` or of its child does to the name and to the contents. -/
inductive FileChange (pid : ι → ℕ) (s : State ι) (a : Action ι) (p : ι) (x : Instance)
    (file : LockFile (Owner ι)) : Prop
  | opens
      (action : a = .main p)
      (pc : (s.inst p).pc = .openFile)
      (pc' : x.pc = .tryLock s.file.openCreate.1)
      (file_eq : file = s.file.openCreate.2)
  | writes (fd : ℕ)
      (action : a = .main p)
      (pc : (s.inst p).pc = .writePid fd)
      (pc' : x.pc = .fork fd)
      (file_eq : file = s.file.write fd (pidLine (pid p)))
  | unlinks (fd : ℕ)
      (pc : (s.inst p).pc = .unlink fd)
      (pc' : x.pc = .ret)
      (file_eq : file = s.file.unlink)
  /-- Neither is touched, and the instance goes on with the file it has open, or ends. -/
  | nothing
      (entry : file.entry = s.file.entry)
      (content : file.content = s.file.content)
      (started : x.pc.Started → (s.inst p).pc.Started)
      (opened : ∀ fd, x.pc.openInode = some fd → (s.inst p).pc.openInode = some fd)
      (recorded : ∀ fd, x.pc.recordedInode = some fd → (s.inst p).pc.recordedInode = some fd)

/-- The end of an instance. -/
theorem FileChange.of_exited {a : Action ι} {status : Option ℕ} {child : ChildPc} :
    FileChange pid s a p { pc := .exited status, child := child } (s.file.exit (.main p)) :=
  .nothing rfl rfl (fun h => absurd rfl (h.2 status)) nofun nofun

omit [DecidableEq ι] in
/-- A step of the child. -/
theorem FileChange.of_child {a : Action ι} {c : ChildPc} {file : LockFile (Owner ι)}
    (hentry : file.entry = s.file.entry) (hcontent : file.content = s.file.content) :
    FileChange pid s a p { s.inst p with child := c } file :=
  .nothing hentry hcontent id (fun _ => id) fun _ => id

/-- A step of the parent as a change of one instance and of the file. -/
theorem mainStep_change (hs : mainStep pid s p = some s') :
    ∃ x, s'.inst = Function.update s.inst p x ∧ FileChange pid s (.main p) p x s'.file := by
  unfold mainStep at hs
  cases hpc : (s.inst p).pc <;> simp only [hpc, Option.some.injEq, reduceCtorEq] at hs
  case openFile =>
    subst hs
    exact ⟨_, rfl, .opens rfl hpc rfl rfl⟩
  case tryLock fd =>
    cases hlock : s.file.tryLock (.main p) fd <;>
      simp only [hlock, Option.some.injEq] at hs <;> subst hs
    · exact ⟨_, rfl, .of_exited⟩
    · obtain ⟨-, rfl⟩ := LockFile.tryLock_eq_some_iff.mp hlock
      refine ⟨_, rfl, .nothing rfl rfl ?_ ?_ ?_⟩ <;>
        simp [hpc, Pc.Started, Pc.openInode, Pc.recordedInode]
  case writePid fd =>
    subst hs
    exact ⟨_, rfl, .writes fd rfl hpc rfl rfl⟩
  case fork fd =>
    subst hs
    refine ⟨_, rfl, .nothing rfl rfl ?_ ?_ ?_⟩ <;>
      simp [hpc, Pc.Started, Pc.openInode, Pc.recordedInode]
  case waitForPid fd =>
    cases hchild : (s.inst p).child <;>
      simp only [hchild, Option.some.injEq, reduceCtorEq] at hs
    subst hs
    refine ⟨_, rfl, .nothing rfl rfl ?_ ?_ ?_⟩ <;>
      simp [hpc, Pc.Started, Pc.openInode, Pc.recordedInode]
  case unlink fd =>
    subst hs
    exact ⟨_, rfl, .unlinks fd hpc rfl rfl⟩
  case ret =>
    subst hs
    exact ⟨_, rfl, .of_exited⟩

/-- A step of the child as a change of one instance and of the file. -/
theorem childStep_change (a : Action ι) (hs : childStep s p = some s') :
    ∃ x, s'.inst = Function.update s.inst p x ∧ FileChange pid s a p x s'.file := by
  unfold childStep at hs
  cases hpc : (s.inst p).child <;> simp only [hpc, Option.some.injEq, reduceCtorEq] at hs
  case tryLock competing =>
    rcases competing with _ | fd
    · obtain rfl : s.nextChild p s.file .print = s' := Option.some.inj hs
      exact ⟨_, rfl, .of_child rfl rfl⟩
    · cases hlock : s.file.tryLock (.child p) fd <;>
        simp only [hlock, Option.some.injEq] at hs <;> subst hs
      · exact ⟨_, rfl, .of_child rfl rfl⟩
      · obtain ⟨-, rfl⟩ := LockFile.tryLock_eq_some_iff.mp hlock
        exact ⟨_, rfl, .of_child rfl rfl⟩
  all_goals
    subst hs
    exact ⟨_, rfl, .of_child rfl rfl⟩

/-- Every step is a change of one instance and of the file. -/
theorem step_change {a : Action ι} (hs : step pid s a = some s') :
    ∃ p x, s'.inst = Function.update s.inst p x ∧ FileChange pid s a p x s'.file := by
  cases a <;> simp only [step] at hs
  case main p => exact ⟨p, mainStep_change hs⟩
  case child p => exact ⟨p, childStep_change _ hs⟩
  case killChild p =>
    split at hs <;> simp only [Option.some.injEq, reduceCtorEq] at hs
    subst hs
    exact ⟨p, _, rfl, .of_child rfl rfl⟩
  all_goals
    split at hs <;> simp only [Option.some.injEq, reduceCtorEq] at hs
    subst hs
    exact ⟨_, _, rfl, .of_exited⟩

/-! ## One instance after the other -/

/-- At most one instance runs; what it has open is the file that `LOCK_PATH` refers to, and what it
has written is all that the file contains. -/
structure Sequential (pid : ι → ℕ) (s : State ι) : Prop where
  alone : ∀ p q, (s.inst p).pc.Started → (s.inst q).pc.Started → p = q
  current : ∀ p fd, (s.inst p).pc.openInode = some fd → s.file.entry = some fd
  recorded : ∀ p fd, (s.inst p).pc.recordedInode = some fd →
    s.file.content fd = pidLine (pid p)

/-- An instance that has the file open has started. -/
theorem Pc.started_of_openInode {pc : Pc} {fd : ℕ} (h : pc.openInode = some fd) :
    pc.Started := by
  cases pc <;> simp_all [Pc.openInode, Pc.Started]

/-- What an instance has recorded it has recorded in the file that it has open. -/
theorem Pc.openInode_of_recorded {pc : Pc} {fd : ℕ} (h : pc.recordedInode = some fd) :
    pc.openInode = some fd := by
  cases pc <;> simp_all [Pc.openInode, Pc.recordedInode]

omit [DecidableEq ι] in
/-- Instances that run one at a time have their process ids in the file. -/
theorem Sequential.pidRecorded (h : Sequential pid s) : PidRecorded pid s := fun p fd hfd =>
  ⟨h.current p fd (Pc.openInode_of_recorded hfd), h.recorded p fd hfd⟩

/-- When instance `p` is the only one that runs, before and after a step, it is the only one to be
looked at. -/
theorem Sequential.of_alone {x : Instance} (hinst : s'.inst = Function.update s.inst p x)
    (hothers : ∀ q, q ≠ p → ¬(s.inst q).pc.Started)
    (hcurrent : ∀ fd, x.pc.openInode = some fd → s'.file.entry = some fd)
    (hrecorded : ∀ fd, x.pc.recordedInode = some fd → s'.file.content fd = pidLine (pid p)) :
    Sequential pid s' := by
  have hstarted : ∀ q, (s'.inst q).pc.Started → q = p := by
    intro q hq
    by_contra hqp
    rw [hinst, Function.update_of_ne hqp] at hq
    exact hothers q hqp hq
  have hp : s'.inst p = x := by rw [hinst, Function.update_self]
  refine ⟨fun q r hq hr => (hstarted q hq).trans (hstarted r hr).symm, fun q fd hfd => ?_,
    fun q fd hfd => ?_⟩
  · obtain rfl := hstarted q (Pc.started_of_openInode hfd)
    rw [hp] at hfd
    exact hcurrent fd hfd
  · obtain rfl := hstarted q (Pc.started_of_openInode (Pc.openInode_of_recorded hfd))
    rw [hp] at hfd
    exact hrecorded fd hfd

omit [DecidableEq ι] in
theorem Sequential.init : Sequential pid (init leftover : State ι) where
  alone _ _ h := absurd rfl h.1
  current _ _ h := by cases h
  recorded _ _ h := by cases h

/-- Instances that open the file one at a time, each with a line that covers what is there, keep the
record right. -/
theorem Sequential.step {a : Action ι} (h : Sequential pid s) (hone : OneAtATime s a)
    (hcovers : LineCovers pid s a) (hs : step pid s a = some s') : Sequential pid s' := by
  obtain ⟨p, x, hinst, hchange⟩ := step_change hs
  have hothers : (s.inst p).pc.Started → ∀ q, q ≠ p → ¬(s.inst q).pc.Started :=
    fun hp q hq hstarted => hq (h.alone q p hstarted hp)
  rcases hchange with ⟨ha, hpc, hpc', hfile⟩ | ⟨fd, ha, hpc, hpc', hfile⟩ |
    ⟨fd, hpc, hpc', hfile⟩ | ⟨hentry, hcontent, hstarted, hopened, hrecorded⟩
  · -- the instance that starts now is the only one
    refine .of_alone hinst (fun q _ => hone p ha hpc q) ?_ (by simp [hpc', Pc.recordedInode])
    intro fd hfd
    rw [hfile, LockFile.entry_openCreate]
    simpa [hpc', Pc.openInode] using hfd
  · refine .of_alone hinst (hothers (by simp [hpc, Pc.Started])) ?_ ?_
    · intro i hi
      rw [hfile]
      refine h.current p i ?_
      simpa [hpc, hpc', Pc.openInode] using hi
    · intro i hi
      obtain rfl : fd = i := by simpa [hpc', Pc.recordedInode] using hi
      -- the line covers all that was there
      rw [hfile, LockFile.content_write, List.drop_eq_nil_of_le (hcovers p fd ha hpc),
        List.append_nil]
  · -- without its name the file does not matter any more
    refine .of_alone hinst (hothers (by simp [hpc, Pc.Started])) ?_ ?_
    · simp [hpc', Pc.openInode]
    · simp [hpc', Pc.recordedInode]
  · -- no instance starts or opens anything
    have hall : ∀ q, ((s'.inst q).pc.Started → (s.inst q).pc.Started) ∧
        (∀ fd, (s'.inst q).pc.openInode = some fd → (s.inst q).pc.openInode = some fd) ∧
        ∀ fd, (s'.inst q).pc.recordedInode = some fd →
          (s.inst q).pc.recordedInode = some fd := by
      rw [hinst, Function.forall_update_iff s.inst fun q x =>
        (x.pc.Started → (s.inst q).pc.Started) ∧
        (∀ fd, x.pc.openInode = some fd → (s.inst q).pc.openInode = some fd) ∧
        ∀ fd, x.pc.recordedInode = some fd → (s.inst q).pc.recordedInode = some fd]
      exact ⟨⟨hstarted, hopened, hrecorded⟩, fun q _ => ⟨id, fun _ => id, fun _ => id⟩⟩
    refine ⟨fun q r hq hr => h.alone q r ((hall q).1 hq) ((hall r).1 hr), fun q fd hfd => ?_,
      fun q fd hfd => ?_⟩
    · rw [hentry]
      exact h.current q fd ((hall q).2.1 fd hfd)
    · rw [hcontent]
      exact h.recorded q fd ((hall q).2.2 fd hfd)

/-- With lines of one length, the file does not become longer than a line. -/
theorem Sequential.length_text_step {a : Action ι} (h : Sequential pid s)
    (hlines : ∀ p q, (pidLine (pid p)).length = (pidLine (pid q)).length)
    (htext : ∀ p, s.file.text.length ≤ (pidLine (pid p)).length)
    (hs : LockfileSingleInstance.step pid s a = some s') (q : ι) :
    s'.file.text.length ≤ (pidLine (pid q)).length := by
  obtain ⟨p, x, hinst, hchange⟩ := step_change hs
  rcases hchange with ⟨ha, hpc, hpc', hfile⟩ | ⟨fd, ha, hpc, hpc', hfile⟩ |
    ⟨fd, hpc, hpc', hfile⟩ | ⟨hentry, hcontent, -, -, -⟩
  · rw [hfile, LockFile.text_openCreate]
    exact htext q
  · have hcurrent : s.file.entry = some fd := h.current p fd (by rw [hpc]; rfl)
    have hold := htext p
    rw [LockFile.text_eq hcurrent] at hold
    have hentry : s'.file.entry = some fd := by
      rw [hfile]
      exact hcurrent
    rw [LockFile.text_eq hentry, hfile, LockFile.content_write, List.drop_eq_nil_of_le hold,
      List.append_nil, hlines p q]
  · simp [LockFile.text, hfile, LockFile.unlink]
  · rw [LockFile.text, hentry, hcontent]
    exact htext q

/-- Along a history in which every line covers what was there. -/
theorem sequential_of_reachableVia
    (h : (system pid leftover).ReachableVia (fun s a => OneAtATime s a ∧ LineCovers pid s a) s) :
    Sequential pid s :=
  h.invariant Sequential.init fun _ _ _ hs hok hstep => hs.step hok.1 hok.2 hstep

omit [DecidableEq ι] in
/-- The file starts with what an earlier run has left. -/
theorem init_text : (init leftover : State ι).file.text = leftover.getD [] := by
  cases leftover <;> rfl

/-- Along every history, when all lines have one length. -/
theorem sequential_of_lines
    (hlines : ∀ p q, (pidLine (pid p)).length = (pidLine (pid q)).length)
    (hleftover : ∀ p, (leftover.getD []).length ≤ (pidLine (pid p)).length)
    (h : (system pid leftover).ReachableVia OneAtATime s) : Sequential pid s := by
  have hinv : Sequential pid s ∧ ∀ p, s.file.text.length ≤ (pidLine (pid p)).length := by
    refine h.invariant (P := fun s =>
      Sequential pid s ∧ ∀ p, s.file.text.length ≤ (pidLine (pid p)).length) ?_ ?_
    · refine ⟨Sequential.init, fun p => ?_⟩
      change (init leftover : State ι).file.text.length ≤ _
      rw [init_text]
      exact hleftover p
    · rintro s a s' ⟨hseq, htext⟩ hone hstep
      -- the `dprintf` goes to the file whose length is bounded
      refine ⟨hseq.step hone ?_ hstep, hseq.length_text_step hlines htext hstep⟩
      intro p fd _ hpc
      have hcurrent : s.file.entry = some fd := hseq.current p fd (by rw [hpc]; rfl)
      rw [← LockFile.text_eq hcurrent]
      exact htext p
  exact hinv.1

/-! ## Histories that leave a longer file behind -/

omit [DecidableEq ι] in
/-- The order matters only where the file is opened. -/
theorem OneAtATime.of_ne_openFile (h : (s.inst p).pc ≠ .openFile) : OneAtATime s (.main p) := by
  intro q hq hpc
  cases hq
  exact absurd hpc h

/-- Nothing is running and nothing is locked; the instances in `waiting` can still be started. -/
structure Idle (waiting : Set ι) (s : State ι) : Prop where
  pc : ∀ p ∈ waiting, (s.inst p).pc = .openFile
  alone : ∀ p, ¬(s.inst p).pc.Started
  free : ∀ i, s.file.holder i = none

/-- The state after the `open`, the `try_lock` and the `dprintf` of instance `p`, if it starts in
`s` and gets the lock. -/
def State.written (pid : ι → ℕ) (s : State ι) (p : ι) : State ι :=
  let fd := s.file.openCreate.1
  let opened := s.file.openCreate.2
  let locked := { opened with holder := Function.update opened.holder fd (some (.main p)) }
  { file := locked.write fd (pidLine (pid p))
    inst := Function.update s.inst p { s.inst p with pc := .fork fd } }

/-- An instance that has written its line goes on to `fork`. -/
theorem State.inst_written (pid : ι → ℕ) (s : State ι) (p : ι) :
    ((s.written pid p).inst p).pc = .fork s.file.openCreate.1 := by
  simp [State.written]

/-- The file that was written is the one under the name. -/
theorem State.entry_written (pid : ι → ℕ) (s : State ι) (p : ι) :
    (s.written pid p).file.entry = some s.file.openCreate.1 :=
  LockFile.entry_openCreate s.file

/-- The line stands in place of as many bytes of the text that was there. -/
theorem State.text_written (pid : ι → ℕ) (s : State ι) (p : ι) :
    (s.written pid p).file.text =
      pidLine (pid p) ++ s.file.text.drop (pidLine (pid p)).length := by
  rw [LockFile.text_eq (s.entry_written pid p), ← LockFile.text_openCreate s.file,
    LockFile.text_eq (LockFile.entry_openCreate s.file)]
  exact LockFile.content_write ..

/-- While all others have not started, an instance can open, lock and write. -/
theorem Idle.reachable_written {waiting : Set ι} (h : Idle waiting s) (hp : p ∈ waiting)
    (hs : (system pid leftover).ReachableVia OneAtATime s) :
    (system pid leftover).ReachableVia OneAtATime (s.written pid p) := by
  let fd := s.file.openCreate.1
  let opened := s.file.openCreate.2
  let locked := { opened with holder := Function.update opened.holder fd (some (.main p)) }
  let s₁ := s.next p opened (.tryLock fd)
  let s₂ := s₁.next p locked (.writePid fd)
  -- nobody holds a lock, so the three statements go through one after the other
  have hlock : opened.tryLock (.main p) fd = some locked := by
    refine LockFile.tryLock_eq_some_iff.mpr ⟨.inl ?_, rfl⟩
    rw [LockFile.holder_openCreate]
    exact h.free fd
  have hstep₁ : mainStep pid s p = some s₁ := by
    simp only [mainStep, h.pc p hp]
    rfl
  have hp₁ : (s₁.inst p).pc = .tryLock fd := by simp [s₁, State.next]
  have hstep₂ : mainStep pid s₁ p = some s₂ := by
    simp only [mainStep, hp₁]
    rw [show s₁.file = opened from rfl, hlock]
  have hp₂ : (s₂.inst p).pc = .writePid fd := by simp [s₂, State.next]
  have hstep₃ : mainStep pid s₂ p = some (s.written pid p) := by
    simp only [mainStep, hp₂]
    simp only [s₁, s₂, State.next, Function.update_idem, Function.update_self]
    rfl
  have h₁ : (system pid leftover).ReachableVia OneAtATime s₁ :=
    hs.step (a := .main p) (fun _ _ _ => h.alone) hstep₁
  have h₂ : (system pid leftover).ReachableVia OneAtATime s₂ :=
    h₁.step (a := .main p) (.of_ne_openFile (by simp [hp₁])) hstep₂
  exact h₂.step (a := .main p) (.of_ne_openFile (by simp [hp₂])) hstep₃

/-- When the instance is killed after its `dprintf`, its text stays. -/
theorem Idle.exists_killed {waiting : Set ι} (h : Idle waiting s) (hp : p ∈ waiting)
    (hs : (system pid leftover).ReachableVia OneAtATime s) :
    ∃ s', (system pid leftover).ReachableVia OneAtATime s' ∧ Idle (waiting \ {p}) s' ∧
      s'.file.text = (s.written pid p).file.text := by
  refine ⟨(s.written pid p).exit p none, ?_, ⟨?_, ?_, ?_⟩, rfl⟩
  · refine (h.reachable_written hp hs).step (a := .kill p) nofun ?_
    simp only [system, step, State.inst_written]
  · rintro q ⟨hq, hqp : q ≠ p⟩
    simp [State.written, State.exit, State.next, hqp, h.pc q hq]
  · intro q
    by_cases hqp : q = p
    · subst hqp
      simp [State.exit, State.next, Pc.Started]
    · simp only [State.written, State.exit, State.next, Function.update_of_ne hqp]
      exact h.alone q
  · -- the only lock was the instance's own
    intro i
    change RecordLock.release (Function.update s.file.openCreate.2.holder _ _ i) _ = none
    rw [LockFile.holder_openCreate]
    by_cases hi : i = s.file.openCreate.1
    · rw [hi, Function.update_self, RecordLock.release_self]
    · rw [Function.update_of_ne hi, h.free i]
      rfl

/-- If the file says what it should, the instance has not found a text longer than its line. -/
theorem PidRecorded.length_text_le (h : PidRecorded pid (s.written pid p)) :
    s.file.text.length ≤ (pidLine (pid p)).length := by
  have hpc : ((s.written pid p).inst p).pc.recordedInode = some s.file.openCreate.1 := by
    rw [State.inst_written]
    rfl
  obtain ⟨hentry, hcontent⟩ := h p _ hpc
  rw [← LockFile.text_eq hentry, State.text_written, List.append_right_eq_self,
    List.drop_eq_nil_iff] at hcontent
  exact hcontent

omit [DecidableEq ι] in
theorem Idle.init : Idle Set.univ (init leftover : State ι) where
  pc _ _ := rfl
  alone _ h := h.1 rfl
  free _ := rfl

/-! ## The file and the running instance -/

/-- Instances are started one after the other, are killed at any point or come to their end. The
file says exactly the pid of the running instance as long as each `dprintf` finds a text that is not
longer than its line. That is so along all histories exactly when nothing longer than a line was
there in the beginning and the pids have one number of digits. -/
theorem pid_recorded_iff (pid : ι → ℕ) (leftover : Option (List Char)) :
    (∀ s, (system pid leftover).ReachableVia
        (fun s a => OneAtATime s a ∧ LineCovers pid s a) s → PidRecorded pid s) ∧
    ((∀ s, (system pid leftover).ReachableVia OneAtATime s → PidRecorded pid s) ↔
      (∀ p, (leftover.getD []).length ≤ (pidLine (pid p)).length) ∧
        ∀ p q, (pidLine (pid p)).length = (pidLine (pid q)).length) := by
  refine ⟨fun s hs => (sequential_of_reachableVia hs).pidRecorded, fun h => ?_, fun h s hs => ?_⟩
  · have hinit : (system pid leftover).ReachableVia OneAtATime (init leftover : State ι) := .init
    have hleftover : ∀ p, (leftover.getD []).length ≤ (pidLine (pid p)).length := by
      intro p
      rw [← init_text (ι := ι)]
      exact (h _ (Idle.init.reachable_written trivial hinit)).length_text_le
    -- `q` finds what `p` has left, which is a whole line of `p`
    have hle : ∀ p q, p ≠ q → (pidLine (pid p)).length ≤ (pidLine (pid q)).length := by
      intro p q hpq
      obtain ⟨s, hs, hidle, htext⟩ := Idle.init.exists_killed (p := p) trivial hinit
      have hq : q ∈ Set.univ \ {p} := ⟨trivial, Ne.symm hpq⟩
      have hlength := (h _ (hidle.reachable_written hq hs)).length_text_le
      rw [htext, State.text_written, List.length_append] at hlength
      omega
    refine ⟨hleftover, fun p q => ?_⟩
    by_cases hpq : p = q
    · rw [hpq]
    · exact le_antisymm (hle p q hpq) (hle q p (Ne.symm hpq))
  · exact (sequential_of_lines h.2 h.1 hs).pidRecorded

/-- Instance 12345 is killed after its `dprintf`, then instance 7 writes its line: the file says
`7\n345\n`. -/
theorem pid_left_by_killed_instance :
    ¬∀ (pid : Fin 2 → ℕ) (leftover : Option (List Char)) (s : State (Fin 2)),
      (system pid leftover).ReachableVia OneAtATime s → PidRecorded pid s := by
  intro hclaim
  let pid : Fin 2 → ℕ := ![12345, 7]
  have hinit : (system pid none).ReachableVia OneAtATime (init none : State (Fin 2)) := .init
  obtain ⟨s, hs, hidle, htext⟩ := Idle.init.exists_killed (p := 0) trivial hinit
  have hwaiting : (1 : Fin 2) ∈ Set.univ \ {(0 : Fin 2)} := ⟨trivial, by decide⟩
  have hlength := (hclaim pid none _ (hidle.reachable_written hwaiting hs)).length_text_le
  have hleft : s.file.text = ['1', '2', '3', '4', '5', '\n'] := by
    rw [htext, State.text_written]
    decide
  rw [hleft] at hlength
  exact absurd hlength (by decide)

end LockfileSingleInstance
