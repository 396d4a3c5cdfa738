import Mathlib.Data.Fintype.Card
import OsPrograms.Lib.LockFile
import OsPrograms.Lib.ProcessTable
import OsPrograms.Lib.TransitionSystem

/-!
# A competing `flock` (`flock_parent_child`)

Any number of processes run

```
fd = open(FILE_PATH, O_CREAT | O_TRUNC | O_RDWR); flock(fd, LOCK_EX);
child = fork();  /* the child opens FILE_PATH again and tries flock(fd2, LOCK_EX | LOCK_NB) */
wait_for_pid(child); flock(fd, LOCK_UN); unlink(FILE_PATH); return 0;
```

A lock of `flock` belongs to an open file description. The child inherits that of its parent and
makes one of its own, so it competes with its parent as long as `FILE_PATH` is still the file that
the parent has locked. This is what the program is to show, and the child exits with 1 if it gets
the lock.

The parent unlocks before it unlinks. Another instance can take the lock in between, and then has
locked a file without a name. For its child to get a lock there has to be a new file by then, which
takes a third instance.

`Inv` says who holds which lock, and when the name refers to another file than the one that an
instance has locked; it is kept by all steps, kills and failed calls included.
-/

namespace FlockParentChild

/-- The next statement of an instance, with its descriptor, given as the inode it refers to. -/
inductive Pc
  | openFile
  /-- `flock(fd, LOCK_EX)` -/
  | flock (fd : ℕ)
  | fork (fd : ℕ)
  | waitForPid (fd : ℕ)
  /-- `flock(fd, LOCK_UN)` -/
  | unlock (fd : ℕ)
  | unlink
  | ret
  /-- The process has ended, with an exit status unless it was killed. -/
  | exited (status : Option ℕ)
  deriving DecidableEq, Repr

/-- The next statement of the child of an instance, with the descriptor `fd` it has inherited. -/
inductive ChildPc
  | unborn
  | openFile (fd : ℕ)
  /-- `flock(fd2, LOCK_EX | LOCK_NB)`; `fd2` is `none` when the `open` found no file. -/
  | flock (fd : ℕ) (fd2 : Option ℕ)
  /-- `printf("child could not acquire competing flock while parent holds it\n")` -/
  | print (fd : ℕ)
  | exit (fd : ℕ) (status : ℕ)
  | exited (status : Option ℕ)
  deriving DecidableEq, Repr

/-- An instance and its child. -/
structure Instance where
  pc : Pc
  child : ChildPc
  deriving DecidableEq, Repr

/-- The open file descriptions. -/
inductive Description (n : ℕ)
  /-- Made by the first `open` of instance `p`, and inherited by its child. -/
  | main (p : Fin n)
  /-- Made by the `open` of the child of instance `p`. -/
  | child (p : Fin n)
  deriving DecidableEq, Repr

/-- The state of `n` instances and of the file. -/
structure State (n : ℕ) where
  file : LockFile (Description n)
  inst : Fin n → Instance

/-- A scheduling choice. -/
inductive Action (n : ℕ)
  /-- Instance `p` performs its next statement. -/
  | main (p : Fin n)
  /-- The child of instance `p` performs its next statement. -/
  | child (p : Fin n)
  /-- The `open` of instance `p` fails. -/
  | openFails (p : Fin n)
  /-- The `fork` of instance `p` fails. -/
  | forkFails (p : Fin n)
  /-- Instance `p` is killed. -/
  | kill (p : Fin n)
  /-- The child of instance `p` is killed. -/
  | killChild (p : Fin n)
  deriving DecidableEq, Repr

/-- The descriptor that the child has inherited, while it runs. -/
def ChildPc.inherited : ChildPc → Option ℕ
  | openFile fd | flock fd _ | print fd | exit fd _ => some fd
  | unborn | exited _ => none

/-- The inode that the process itself has locked. -/
def Pc.locked : Pc → Option ℕ
  | fork fd | waitForPid fd | unlock fd => some fd
  | openFile | flock _ | unlink | ret | exited _ => none

section Model

variable {n : ℕ}

/-- No instance has started; `leftover` is the content of an existing file. -/
def init (leftover : Option (List Char)) : State n where
  file := .unlocked leftover
  inst := fun _ => { pc := .openFile, child := .unborn }

/-- `open` with `O_CREAT` and `O_TRUNC`. -/
def openTrunc (file : LockFile (Description n)) : ℕ × LockFile (Description n) :=
  let (i, file') := file.openCreate
  (i, { file' with content := Function.update file'.content i [] })

/-- Instance `p` goes on at `pc`, with the file in the state `file`. -/
def State.next (s : State n) (p : Fin n) (file : LockFile (Description n)) (pc : Pc) : State n where
  file := file
  inst := Function.update s.inst p { s.inst p with pc := pc }

/-- The child of instance `p` goes on at `pc`, with the file in the state `file`. -/
def State.nextChild (s : State n) (p : Fin n) (file : LockFile (Description n)) (pc : ChildPc) :
    State n where
  file := file
  inst := Function.update s.inst p { s.inst p with child := pc }

/-- Instance `p` ends. Its lock stays while the child has the descriptor. -/
def State.exit (s : State n) (p : Fin n) (status : Option ℕ) : State n :=
  let file := if (s.inst p).child.inherited = none then s.file.exit (.main p) else s.file
  s.next p file (.exited status)

/-- The child of instance `p` ends. With it goes the lock of a parent that has ended before. -/
def State.exitChild (s : State n) (p : Fin n) (status : Option ℕ) : State n :=
  let file := s.file.exit (.child p)
  match (s.inst p).pc with
  | .exited _ => s.nextChild p (file.exit (.main p)) (.exited status)
  | _ => s.nextChild p file (.exited status)

/-- The next statement of instance `p`, `none` while it waits for the lock or for its child, and
after its end. -/
def mainStep (s : State n) (p : Fin n) : Option (State n) :=
  match (s.inst p).pc with
  | .openFile => some (s.next p (openTrunc s.file).2 (.flock (openTrunc s.file).1))
  | .flock fd =>
    match s.file.tryLock (.main p) fd with
    | some file => some (s.next p file (.fork fd))
    | none => none
  | .fork fd =>
    some
      { file := s.file
        inst := Function.update s.inst p { pc := .waitForPid fd, child := .openFile fd } }
  -- the exit status of the child is not looked at
  | .waitForPid fd =>
    match (s.inst p).child with
    | .exited _ => some (s.next p s.file (.unlock fd))
    | _ => none
  | .unlock _ => some (s.next p (s.file.exit (.main p)) .unlink)
  | .unlink => some (s.next p s.file.unlink .ret)
  | .ret => some (s.exit p (some 0))
  | .exited _ => none

/-- The next statement of the child of instance `p`. -/
def childStep (s : State n) (p : Fin n) : Option (State n) :=
  match (s.inst p).child with
  | .unborn => none
  -- `open` without `O_CREAT` finds the file that the name refers to now, if any
  | .openFile fd => some (s.nextChild p s.file (.flock fd s.file.entry))
  | .flock fd none => some (s.nextChild p s.file (.print fd)) -- `flock(-1)` fails with `EBADF`
  | .flock fd (some fd2) =>
    match s.file.tryLock (.child p) fd2 with
    | some file => some (s.nextChild p file (.exit fd 1))
    | none => some (s.nextChild p s.file (.print fd))
  | .print fd => some (s.nextChild p s.file (.exit fd 0))
  | .exit _ status => some (s.exitChild p (some status))
  | .exited _ => none

/-- One step of the instances. -/
def step (s : State n) : Action n → Option (State n)
  | .main p => mainStep s p
  | .child p => childStep s p
  | .openFails p =>
    match (s.inst p).pc with
    | .openFile => some (s.exit p (some 1))
    | _ => none
  | .forkFails p =>
    -- `wait_for_pid(-1)` dies, because `waitpid` fails with `ECHILD`
    match (s.inst p).pc with
    | .fork _ => some (s.exit p (some 1))
    | _ => none
  | .kill p =>
    match (s.inst p).pc with
    | .exited _ => none
    | _ => some (s.exit p none)
  | .killChild p =>
    if (s.inst p).child.inherited = none then none else some (s.exitChild p none)

/-- The instances, interleaved. -/
def system (leftover : Option (List Char)) : TransitionSystem (State n) (Action n) where
  init := init leftover
  step := step

end Model

/-! ## The invariant -/

/-- The open file description of the instance has the lock of inode `l`. -/
def Instance.Holds (x : Instance) (l : ℕ) : Prop :=
  x.pc.locked = some l ∨ x.child.inherited = some l

/-- The instance, or its child, goes on to use inode `l`. -/
def Instance.Uses (x : Instance) (l : ℕ) : Prop :=
  x.pc = .flock l ∨ x.pc = .fork l ∨ x.child.inherited = some l

/-- The instance is past its `unlink` or has ended before it, and its child does not run. -/
def Instance.Gone (x : Instance) : Prop :=
  (x.pc = .ret ∨ ∃ status, x.pc = .exited status) ∧ x.child.inherited = none

/-- How far the child is when its parent is at `x.pc`. -/
def Instance.Stage (x : Instance) : Prop :=
  match x.pc with
  | .openFile | .flock _ | .fork _ => x.child = .unborn
  | .waitForPid fd => x.child ≠ .unborn ∧ ∀ fd', x.child.inherited = some fd' → fd' = fd
  | .unlock _ | .unlink | .ret => x.child.inherited = none
  | .exited _ => True

/-- The child has got the lock. -/
def ChildPc.Acquired (c : ChildPc) : Prop :=
  c = .exited (some 1) ∨ ∃ fd, c = .exit fd 1

/-- The invariant of the program. -/
structure Inv {n : ℕ} (s : State n) : Prop where
  main : ∀ l p, s.file.holder l = some (.main p) ↔ (s.inst p).Holds l
  child : ∀ l p, s.file.holder l = some (.child p) → ∃ fd, (s.inst p).child = .exit fd 1
  stage : ∀ p, (s.inst p).Stage
  /-- The name is missing only at the start, and after an `unlink`. -/
  named : s.file.entry = none → (∀ p, (s.inst p).pc = .openFile) ∨ ∃ q, (s.inst q).Gone
  /-- Between an `open` and the `open` of the child, a new file takes two others. -/
  current : ∀ p l, (s.inst p).Uses l → s.file.entry = none ∨ s.file.entry = some l ∨ 3 ≤ n
  competing : ∀ p fd fd2, (s.inst p).child = .flock fd (some fd2) → fd2 = fd ∨ 3 ≤ n
  acquired : ∀ p, (s.inst p).child.Acquired → 3 ≤ n

section Inv

variable {n : ℕ} {leftover : Option (List Char)} {s s' : State n} {p : Fin n}

theorem Inv.init : Inv (init leftover : State n) where
  main l p := by
    simp [FlockParentChild.init, LockFile.unlocked, Instance.Holds, Pc.locked, ChildPc.inherited]
  child l p := by simp [FlockParentChild.init, LockFile.unlocked]
  stage p := rfl
  named _ := .inl fun _ => rfl
  current p l := by simp [FlockParentChild.init, Instance.Uses, ChildPc.inherited]
  competing p fd fd2 := by simp [FlockParentChild.init]
  acquired p := by simp [FlockParentChild.init, ChildPc.Acquired]

/-- A step of instance `p` or its child, to `x`, which changes no locks but theirs. -/
theorem Inv.update {x : Instance} (h : Inv s) (hinst : s'.inst = Function.update s.inst p x)
    (hothers : ∀ l o, o ≠ .main p → o ≠ .child p →
      (s'.file.holder l = some o ↔ s.file.holder l = some o))
    (hmain : ∀ l, s'.file.holder l = some (.main p) ↔ x.Holds l)
    (hchild : ∀ l, s'.file.holder l = some (.child p) → ∃ fd, x.child = .exit fd 1)
    (hstage : x.Stage)
    (hnamed : s'.file.entry = none →
      x.Gone ∨ s.file.entry = none ∧ (s.inst p).pc ≠ .openFile ∧ ¬(s.inst p).Gone)
    (hcurrent : ∀ q ≠ p, ∀ l, (s.inst q).Uses l →
      s'.file.entry = none ∨ s'.file.entry = some l ∨ 3 ≤ n)
    (hown : ∀ l, x.Uses l → s'.file.entry = none ∨ s'.file.entry = some l ∨ 3 ≤ n)
    (hcompeting : ∀ fd fd2, x.child = .flock fd (some fd2) → fd2 = fd ∨ 3 ≤ n)
    (hacquired : x.child.Acquired → 3 ≤ n) : Inv s' where
  main l := by
    rw [hinst, Function.forall_update_iff s.inst fun q y =>
      s'.file.holder l = some (.main q) ↔ y.Holds l]
    refine ⟨hmain l, fun q hq => ?_⟩
    rw [hothers l _ (by simpa using hq) (by simp)]
    exact h.main l q
  child l := by
    rw [hinst, Function.forall_update_iff s.inst fun q y =>
      s'.file.holder l = some (.child q) → ∃ fd, y.child = .exit fd 1]
    refine ⟨hchild l, fun q hq => ?_⟩
    rw [hothers l _ (by simp) (by simpa using hq)]
    exact h.child l q
  stage := by
    rw [hinst, Function.forall_update_iff s.inst fun _ y => y.Stage]
    exact ⟨hstage, fun q _ => h.stage q⟩
  named hnone := by
    -- the name has been removed by `p`, or before, and then by another instance
    rcases hnamed hnone with hgone | ⟨hold, hopened, hstays⟩
    · refine .inr ⟨p, ?_⟩
      rw [hinst, Function.update_self]
      exact hgone
    · rcases h.named hold with hfresh | ⟨q, hq⟩
      · exact absurd (hfresh p) hopened
      · refine .inr ⟨q, ?_⟩
        have hne : q ≠ p := by
          rintro rfl
          exact hstays hq
        rw [hinst, Function.update_of_ne hne]
        exact hq
  current := by
    rw [hinst, Function.forall_update_iff s.inst fun _ y => ∀ l, y.Uses l →
      s'.file.entry = none ∨ s'.file.entry = some l ∨ 3 ≤ n]
    exact ⟨hown, hcurrent⟩
  competing := by
    rw [hinst, Function.forall_update_iff s.inst fun _ y => ∀ fd fd2,
      y.child = .flock fd (some fd2) → fd2 = fd ∨ 3 ≤ n]
    exact ⟨hcompeting, fun q _ => h.competing q⟩
  acquired := by
    rw [hinst, Function.forall_update_iff s.inst fun _ y => y.child.Acquired → 3 ≤ n]
    exact ⟨hacquired, fun q _ => h.acquired q⟩

/-- A step that leaves the file, and the locks of the instance. -/
theorem Inv.goesOn {x : Instance} (h : Inv s) (hinst : s'.inst = Function.update s.inst p x)
    (hfile : s'.file = s.file) (hholds : ∀ l, x.Holds l ↔ (s.inst p).Holds l)
    (hchild : ∀ fd, (s.inst p).child ≠ .exit fd 1 ∨ x.child = (s.inst p).child)
    (hstage : x.Stage) (hrunning : (s.inst p).pc ≠ .openFile ∧ ¬(s.inst p).Gone)
    (huses : ∀ l, x.Uses l → (s.inst p).Uses l)
    (hcompeting : ∀ fd fd2, x.child = .flock fd (some fd2) → fd2 = fd ∨ 3 ≤ n)
    (hacquired : x.child.Acquired → 3 ≤ n) : Inv s' := by
  refine h.update hinst (fun _ _ _ _ => by rw [hfile]) (fun l => ?_) (fun l hl => ?_) hstage
    (fun hnone => .inr ⟨hfile ▸ hnone, hrunning⟩) (fun q _ l hq => ?_) (fun l hx => ?_)
    hcompeting hacquired
  · rw [hfile, hholds l]
    exact h.main l p
  · rw [hfile] at hl
    obtain ⟨fd, hfd⟩ := h.child l p hl
    exact ⟨fd, ((hchild fd).resolve_left (not_not.mpr hfd)).trans hfd⟩
  · rw [hfile]
    exact h.current q l hq
  · rw [hfile]
    exact h.current p l (huses l hx)

/-- The parent of a child that runs waits for it, or has been killed. -/
theorem Instance.Stage.cases {x : Instance} (h : x.Stage) (hrunning : x.child.inherited ≠ none) :
    (∃ fd, x.pc = .waitForPid fd ∧ x.child.inherited = some fd) ∨ ∃ st, x.pc = .exited st := by
  unfold Instance.Stage at h
  cases hpc : x.pc with
  | waitForPid fd =>
    simp only [hpc] at h
    obtain ⟨fd', hfd'⟩ := Option.ne_none_iff_exists'.mp hrunning
    exact .inl ⟨fd, rfl, by rw [hfd', h.2 fd' hfd']⟩
  | exited st => exact .inr ⟨st, rfl⟩
  | openFile | flock _ | fork _ =>
    simp only [hpc] at h
    exact absurd (by rw [h]; rfl) hrunning
  | unlock _ | unlink | ret =>
    simp only [hpc] at h
    exact absurd h hrunning

/-- While its child runs, an instance holds what the child has inherited, and nothing else. -/
theorem Instance.Stage.holds_iff {x : Instance} (h : x.Stage)
    (hrunning : x.child.inherited ≠ none) (l : ℕ) :
    x.Holds l ↔ x.child.inherited = some l := by
  rcases h.cases hrunning with ⟨fd, hpc, hfd⟩ | ⟨st, hpc⟩ <;>
    simp [Instance.Holds, Pc.locked, *]

/-- An instance with a child has opened the file. -/
theorem Instance.Stage.opened {x : Instance} (h : x.Stage) (hrunning : x.child.inherited ≠ none) :
    x.pc ≠ .openFile := by
  rcases h.cases hrunning with ⟨fd, hpc, -⟩ | ⟨st, hpc⟩ <;> simp [hpc]

/-- A child that runs has not got a lock, unless it is about to exit with 1. -/
theorem Inv.child_ne (h : Inv s) (hne : ∀ fd, (s.inst p).child ≠ .exit fd 1) (l : ℕ) :
    s.file.holder l ≠ some (.child p) := by
  intro hl
  obtain ⟨fd, hfd⟩ := h.child l p hl
  exact hne fd hfd

/-- The end of an instance. -/
theorem Inv.exit (h : Inv s) (status : Option ℕ) : Inv (s.exit p status) := by
  have hstage := h.stage p
  by_cases hchild : (s.inst p).child.inherited = none
  · -- the lock goes with the last descriptor
    have hfile : (s.exit p status).file = s.file.exit (.main p) := by
      simp only [State.exit, State.next, if_pos hchild]
    have hne (fd : ℕ) : (s.inst p).child ≠ .exit fd 1 := by
      intro hexit
      simp [hexit, ChildPc.inherited] at hchild
    refine h.update rfl (fun l o hmain _ => ?_) (fun l => ?_) (fun l hl => ?_) trivial
      (fun _ => .inl ⟨.inr ⟨_, rfl⟩, hchild⟩) (fun q _ l hq => ?_) (fun l hl => ?_)
      (h.competing p) (h.acquired p)
    · rw [hfile, LockFile.holder_exit_eq_some_iff, and_iff_left hmain]
    · rw [hfile, LockFile.holder_exit_eq_some_iff]
      simp [Instance.Holds, Pc.locked, hchild]
    · rw [hfile, LockFile.holder_exit_eq_some_iff] at hl
      exact absurd hl.1 (h.child_ne hne l)
    · rw [hfile]
      exact h.current q l hq
    · simp [Instance.Uses, hchild] at hl
  · -- the child still has the descriptor
    have hfile : (s.exit p status).file = s.file := by
      simp only [State.exit, State.next, if_neg hchild]
    refine h.goesOn rfl hfile (fun l => ?_) (fun _ => .inr rfl) trivial
      ⟨hstage.opened hchild, fun hgone => hchild hgone.2⟩ (fun l hl => ?_)
      (h.competing p) (h.acquired p)
    · rw [hstage.holds_iff hchild]
      simp [Instance.Holds, Pc.locked]
    · exact .inr (.inr (by simpa [Instance.Uses] using hl))

/-- The end of a child. -/
theorem Inv.exitChild (h : Inv s) (status : Option ℕ) (hchild : (s.inst p).child.inherited ≠ none)
    (hstatus : status = some 1 → (s.inst p).child.Acquired) : Inv (s.exitChild p status) := by
  have hstage := h.stage p
  have hopened := hstage.opened hchild
  have hacquired : ChildPc.Acquired (.exited status) → 3 ≤ n := by
    rintro (hone | ⟨fd, hfd⟩)
    · exact h.acquired p (hstatus (ChildPc.exited.inj hone))
    · cases hfd
  -- the child has the description of its parent, whose lock goes with the last of the two
  rcases hstage.cases hchild with ⟨fd, hpc, hfd⟩ | ⟨st, hpc⟩
  · have hs' : s.exitChild p status = s.nextChild p (s.file.exit (.child p)) (.exited status) := by
      simp only [State.exitChild, hpc]
    rw [hs']
    refine h.update rfl (fun l o _ hown => ?_) (fun l => ?_) (fun l hl => ?_) ?_
      (fun hnone => .inr ⟨hnone, hopened, fun hgone => hchild hgone.2⟩) (fun q _ => h.current q)
      (fun l hl => ?_) (by simp) hacquired
    · rw [State.nextChild, LockFile.holder_exit_eq_some_iff, and_iff_left hown]
    · rw [State.nextChild, LockFile.holder_exit_eq_some_iff, h.main l p, hstage.holds_iff hchild,
        hfd]
      simp [Instance.Holds, hpc, Pc.locked, ChildPc.inherited]
    · exact absurd rfl (LockFile.holder_exit_eq_some_iff.mp hl).2
    · simp [Instance.Stage, hpc, ChildPc.inherited]
    · simp [Instance.Uses, hpc, ChildPc.inherited] at hl
  · -- the parent has ended before, and its lock goes as well
    have hs' : s.exitChild p status =
        s.nextChild p ((s.file.exit (.child p)).exit (.main p)) (.exited status) := by
      simp only [State.exitChild, hpc]
    rw [hs']
    refine h.update rfl (fun l o hmain hown => ?_) (fun l => ?_) (fun l hl => ?_) ?_
      (fun _ => .inl ⟨.inr ⟨st, hpc⟩, rfl⟩) (fun q _ => h.current q) (fun l hl => ?_)
      (by simp) hacquired
    · rw [State.nextChild, LockFile.holder_exit_eq_some_iff, LockFile.holder_exit_eq_some_iff,
        and_iff_left hmain, and_iff_left hown]
    · rw [State.nextChild, LockFile.holder_exit_eq_some_iff]
      simp [Instance.Holds, hpc, Pc.locked, ChildPc.inherited]
    · have hl := (LockFile.holder_exit_eq_some_iff.mp hl).1
      exact absurd rfl (LockFile.holder_exit_eq_some_iff.mp hl).2
    · simp [Instance.Stage, hpc]
    · simp [Instance.Uses, hpc, ChildPc.inherited] at hl

/-- A third instance makes a new file while an instance between its two calls of `open` has one that
has been unlinked. -/
theorem Inv.three_le (h : Inv s) (hnone : s.file.entry = none) (hpc : (s.inst p).pc = .openFile)
    {q : Fin n} {l : ℕ} (hq : (s.inst q).Uses l) : 3 ≤ n := by
  have hopened : (s.inst q).pc ≠ .openFile := by
    rcases hq with hq | hq | hq
    · simp [hq]
    · simp [hq]
    · exact (h.stage q).opened (by simp [hq])
  rcases h.named hnone with hfresh | ⟨r, hr⟩
  · exact absurd (hfresh q) hopened
  · have hpq : p ≠ q := by
      rintro rfl
      exact hopened hpc
    have hpr : p ≠ r := by
      rintro rfl
      simpa [hpc] using hr.1
    have hqr : q ≠ r := by
      rintro rfl
      rcases hq with hq | hq | hq
      · simpa [hq] using hr.1
      · simpa [hq] using hr.1
      · simp [hr.2] at hq
    have hcard : ({p, q, r} : Finset (Fin n)).card ≤ n := by
      simpa using Finset.card_le_univ ({p, q, r} : Finset (Fin n))
    rwa [Finset.card_eq_three.mpr ⟨p, q, r, hpq, hpr, hqr, rfl⟩] at hcard

/-- Opening the file locks nothing, and leaves the opened inode under the name. -/
theorem openTrunc_spec (file : LockFile (Description n)) :
    (openTrunc file).2.holder = file.holder ∧ (openTrunc file).2.entry = some (openTrunc file).1 :=
  ⟨LockFile.holder_openCreate file, LockFile.entry_openCreate file⟩

/-- `open` finds the file of the name, or there was none. -/
theorem entry_openTrunc (file : LockFile (Description n)) :
    file.entry = none ∨ (openTrunc file).2.entry = file.entry := by
  cases hentry : file.entry with
  | none => exact .inl rfl
  | some i => simp [openTrunc, LockFile.openCreate, hentry]

/-- The parent of an instance opens, locks, forks and ends. -/
theorem Inv.mainStep (h : Inv s) (hs : mainStep s p = some s') : Inv s' := by
  have hstage := h.stage p
  unfold Instance.Stage at hstage
  unfold FlockParentChild.mainStep at hs
  cases hpc : (s.inst p).pc <;> simp only [hpc, Option.some.injEq, reduceCtorEq] at hs hstage
  case openFile =>
    subst hs
    obtain ⟨hholder, hentry⟩ := openTrunc_spec s.file
    have hnone := h.child_ne (p := p) (by simp [hstage])
    refine h.update rfl (fun l o _ _ => ?_) (fun l => ?_) (fun l hl => ?_) ?_ (fun hnone => ?_)
      (fun q hq l hl => ?_) (fun l hl => ?_) (by simp [hstage]) (by simp [hstage, ChildPc.Acquired])
    · simp only [State.next, hholder]
    · simp only [State.next, hholder, h.main l p]
      simp [Instance.Holds, hpc, hstage, Pc.locked, ChildPc.inherited]
    · rw [State.next, hholder] at hl
      exact absurd hl (hnone l)
    · simp [Instance.Stage, hstage]
    · simp [State.next, hentry] at hnone
    -- a new file is made when the name was missing; whoever removed it, whoever uses the file that
    -- had it and this instance are three
    · rcases entry_openTrunc s.file with hmissing | hfound
      · exact .inr (.inr (h.three_le hmissing hpc hl))
      · rw [State.next, hfound]
        exact h.current q l hl
    · simp only [Instance.Uses, hstage, Pc.flock.injEq, ChildPc.inherited, reduceCtorEq,
        or_false] at hl
      exact .inr (.inl (hl ▸ hentry))
  case flock fd =>
    split at hs
    next file hlock =>
      obtain rfl := Option.some.inj hs
      have hholder := LockFile.holder_eq_some_iff_of_tryLock hlock
      obtain ⟨-, hfile⟩ := LockFile.tryLock_eq_some_iff.mp hlock
      have hentry : file.entry = s.file.entry := by rw [hfile]
      have hnone := h.child_ne (p := p) (by simp [hstage])
      -- this instance holds no lock before
      have hmain (l : ℕ) : s.file.holder l ≠ some (.main p) := by
        rw [Ne, h.main l p]
        simp [Instance.Holds, hpc, hstage, Pc.locked, ChildPc.inherited]
      refine h.update rfl (fun l o hmain hown => ?_) (fun l => ?_) (fun l hl => ?_) ?_
        (fun hnone => .inr ⟨hentry ▸ hnone, ?_⟩) (fun q _ l hl => ?_) (fun l hl => ?_)
        (by simp [hstage]) (by simp [hstage, ChildPc.Acquired])
      · exact LockFile.holder_eq_some_iff_of_ne hlock hmain l
      · rw [State.next, hholder]
        simp [Instance.Holds, hstage, Pc.locked, ChildPc.inherited, hmain, eq_comm]
      · rw [State.next, hholder] at hl
        split at hl
        · cases hl
        · exact absurd hl (hnone l)
      · simp [Instance.Stage, hstage]
      · simp [hpc, Instance.Gone]
      · rw [State.next, hentry]
        exact h.current q l hl
      · rw [State.next, hentry]
        refine h.current p l (.inl ?_)
        simpa [Instance.Uses, hstage, ChildPc.inherited, hpc] using hl
    next => cases hs
  case fork fd =>
    subst hs
    refine h.goesOn rfl rfl ?_ (by simp [hstage]) ?_ ?_ ?_ (by simp) ?_ <;>
      simp [hpc, hstage, Instance.Holds, Instance.Stage, Instance.Gone, Instance.Uses,
        ChildPc.Acquired, Pc.locked, ChildPc.inherited]
  case waitForPid fd =>
    split at hs
    next st hchild =>
      obtain rfl := Option.some.inj hs
      refine h.goesOn rfl rfl ?_ (by simp [hchild]) ?_ ?_ ?_ (by simp [hchild]) (h.acquired p) <;>
        simp [hpc, hchild, Instance.Holds, Instance.Stage, Instance.Gone, Instance.Uses,
          Pc.locked, ChildPc.inherited]
    next => cases hs
  case unlock fd =>
    subst hs
    have hnone := h.child_ne (p := p) fun fd hfd => by simp [hfd, ChildPc.inherited] at hstage
    -- the name stays: whoever takes the lock now has it on a file that is about to lose its name
    refine h.update rfl (fun l o hmain _ => ?_) (fun l => ?_) (fun l hl => ?_) hstage
      (fun hnone => .inr ⟨hnone, ?_⟩) (fun q _ => h.current q) (fun l hl => ?_) (h.competing p)
      (h.acquired p)
    · rw [State.next, LockFile.holder_exit_eq_some_iff, and_iff_left hmain]
    · rw [State.next, LockFile.holder_exit_eq_some_iff]
      simp [Instance.Holds, Pc.locked, hstage]
    · exact absurd (LockFile.holder_exit_eq_some_iff.mp hl).1 (hnone l)
    · simp [hpc, Instance.Gone]
    · simp [Instance.Uses, hstage] at hl
  case unlink =>
    subst hs
    refine h.update rfl (fun _ _ _ _ => .rfl) (fun l => ?_) (h.child · p) hstage
      (fun _ => .inl ⟨.inl rfl, hstage⟩) (fun _ _ _ _ => .inl rfl) (fun _ _ => .inl rfl)
      (h.competing p) (h.acquired p)
    refine (h.main l p).trans ?_
    simp [Instance.Holds, hpc, Pc.locked]
  case ret =>
    subst hs
    exact h.exit _

/-- A child that gets the lock does not get that of its parent. -/
theorem Inv.three_le_of_tryLock {fd fd2 : ℕ} {file : LockFile (Description n)} (h : Inv s)
    (hchild : (s.inst p).child = .flock fd (some fd2))
    (hlock : s.file.tryLock (.child p) fd2 = some file) : 3 ≤ n := by
  refine (h.competing p fd fd2 hchild).resolve_left ?_
  rintro rfl
  have hparent := (h.main fd2 p).mpr (.inr (by rw [hchild]; rfl))
  obtain ⟨hfree, -⟩ := LockFile.tryLock_eq_some_iff.mp hlock
  simp [hparent] at hfree

/-- A child that goes on keeps the descriptor it has inherited. -/
theorem Instance.Stage.nextChild {x : Instance} {c : ChildPc} (h : x.Stage)
    (hrunning : x.child.inherited ≠ none) (hinherited : c.inherited = x.child.inherited) :
    Instance.Stage { x with child := c } := by
  rcases h.cases hrunning with ⟨fd, hpc, hfd⟩ | ⟨st, hpc⟩
  · have hc : c.inherited = some fd := hinherited.trans hfd
    have hborn : c ≠ .unborn := by
      rintro rfl
      cases hc
    simp only [Instance.Stage, hpc, hc, Option.some.injEq]
    exact ⟨hborn, fun _ => Eq.symm⟩
  · simp [Instance.Stage, hpc]

/-- A child goes on without a lock. -/
theorem Inv.nextChild {c : ChildPc} (h : Inv s) (hrunning : (s.inst p).child.inherited ≠ none)
    (hinherited : c.inherited = (s.inst p).child.inherited)
    (hexit : ∀ fd, (s.inst p).child ≠ .exit fd 1)
    (hcompeting : ∀ fd fd2, c = .flock fd (some fd2) → fd2 = fd ∨ 3 ≤ n) (hacquired : ¬c.Acquired) :
    Inv (s.nextChild p s.file c) := by
  have hstage := h.stage p
  refine h.goesOn rfl rfl (fun l => ?_) (fun fd => .inl (hexit fd))
    (hstage.nextChild hrunning hinherited)
    ⟨hstage.opened hrunning, fun hgone => hrunning hgone.2⟩ (fun l => ?_) hcompeting
    fun hgot => absurd hgot hacquired
  · simp only [Instance.Holds, hinherited]
  · simp only [Instance.Uses, hinherited, imp_self]

/-- The child of an instance shares the description with its parent, and so the lock. -/
theorem Inv.childStep (h : Inv s) (hs : childStep s p = some s') : Inv s' := by
  have hstage := h.stage p
  unfold FlockParentChild.childStep at hs
  cases hpc : (s.inst p).child <;> simp only [hpc, Option.some.injEq, reduceCtorEq] at hs
  case openFile fd =>
    subst hs
    refine h.nextChild ?_ ?_ ?_ (fun fd' fd2 heq => ?_) ?_
    · simp [hpc, ChildPc.inherited]
    · simp [hpc, ChildPc.inherited]
    · simp [hpc]
    · -- it opens the file of its parent, or a new one
      obtain ⟨rfl, hentry⟩ := ChildPc.flock.inj heq
      have hcurrent := h.current p fd (.inr (.inr (by rw [hpc]; rfl)))
      rw [hentry] at hcurrent
      simpa using hcurrent
    · simp [ChildPc.Acquired]
  case flock fd fd2 =>
    rcases fd2 with _ | fd2
    · obtain rfl := Option.some.inj hs
      refine h.nextChild ?_ ?_ ?_ ?_ ?_ <;> simp [hpc, ChildPc.inherited, ChildPc.Acquired]
    · simp only at hs
      split at hs
      next file hlock =>
        obtain rfl := Option.some.inj hs
        -- its own lock would be refused on the file of its parent, so this is another file
        have hthree := h.three_le_of_tryLock hpc hlock
        have hrunning : (s.inst p).child.inherited ≠ none := by simp [hpc, ChildPc.inherited]
        have hinherited : (ChildPc.exit fd 1).inherited = (s.inst p).child.inherited := by
          rw [hpc]
          rfl
        obtain ⟨-, hfile⟩ := LockFile.tryLock_eq_some_iff.mp hlock
        have hentry : file.entry = s.file.entry := by rw [hfile]
        refine h.update rfl (fun l o hmain hown => ?_) (fun l => ?_) (fun _ _ => ⟨fd, rfl⟩)
          (hstage.nextChild hrunning hinherited)
          (fun hnone => .inr ⟨hentry ▸ hnone, hstage.opened hrunning,
            fun hgone => hrunning hgone.2⟩) (fun _ _ _ _ => .inr (.inr hthree))
          (fun _ _ => .inr (.inr hthree)) (by simp) fun _ => hthree
        · exact LockFile.holder_eq_some_iff_of_ne hlock hown l
        · refine ((LockFile.holder_eq_some_iff_of_ne hlock (by simp) l).trans (h.main l p)).trans ?_
          simp only [Instance.Holds, hinherited]
      next =>
        obtain rfl := Option.some.inj hs
        refine h.nextChild ?_ ?_ ?_ ?_ ?_ <;> simp [hpc, ChildPc.inherited, ChildPc.Acquired]
  case print fd =>
    subst hs
    refine h.nextChild ?_ ?_ ?_ ?_ ?_ <;> simp [hpc, ChildPc.inherited, ChildPc.Acquired]
  case exit fd status =>
    subst hs
    refine h.exitChild _ (by simp [hpc, ChildPc.inherited]) fun hone => ?_
    obtain rfl := Option.some.inj hone
    exact .inr ⟨fd, hpc⟩

theorem Inv.step {a : Action n} (h : Inv s) (hs : step s a = some s') : Inv s' := by
  cases a with
  | main p => exact h.mainStep hs
  | child p => exact h.childStep hs
  | killChild p =>
    simp only [FlockParentChild.step, Option.ite_none_left_eq_some, Option.some.injEq] at hs
    obtain ⟨hrunning, rfl⟩ := hs
    exact h.exitChild none hrunning (by simp)
  | openFails p | forkFails p | kill p =>
    simp only [FlockParentChild.step] at hs
    split at hs
    all_goals first
      | cases hs; done
      | obtain rfl := Option.some.inj hs; exact h.exit _

/-- The invariant holds along every run. -/
theorem inv_of_reachable (h : (system leftover).Reachable s) : Inv s :=
  h.invariant .init fun _ _ _ hinv hs => hinv.step hs

end Inv

end FlockParentChild
