import OsPrograms.Lib.LockFile
import OsPrograms.Lib.Printf
import OsPrograms.Lib.ProcessTable
import OsPrograms.Lib.TransitionSystem

/-!
# Single instance by a lock file (`lockfile_single_instance`)

Any number of processes run

```
fd = open(LOCK_PATH, O_CREAT | O_RDWR); try_lock(fd); dprintf(fd, pid);
child = fork();  /* the child opens LOCK_PATH and tries the lock as a second instance */
wait_for_pid(child); unlink(LOCK_PATH); return 0;
```

An instance is running from its successful `try_lock` to its `unlink`. The lock is on the inode,
`open` and `unlink` are about the name: an instance that opened the file before another one
unlinked it locks an inode that no name refers to any more, while a third instance creates and
locks a new one.

* `Exclusive` is the invariant of the runs in which every granted `try_lock` is on the inode that
  `LOCK_PATH` still refers to (`LocksCurrent`); it leaves room for one running instance.
* `FirstInode` holds along every run: as long as no instance has got past its `unlink` or died,
  there is only one inode.
* `single_instance_iff` puts the two together, and `two_running_instances` is the shortest failing
  schedule.
-/

namespace LockfileSingleInstance

/-- The next statement of an instance, with its descriptor, given as the inode it refers to. -/
inductive Pc
  | openFile
  | tryLock (fd : ℕ)
  | writePid (fd : ℕ)
  | fork (fd : ℕ)
  | waitForPid (fd : ℕ)
  | unlink (fd : ℕ)
  | ret
  /-- The process has ended, with an exit status unless it was killed. -/
  | exited (status : Option ℕ)
  deriving DecidableEq, Repr

/-- The next statement of the child of an instance. -/
inductive ChildPc
  | unborn
  | openFile
  /-- `competing` is `none` when the `open` without `O_CREAT` found no file. -/
  | tryLock (competing : Option ℕ)
  /-- `printf("second instance rejected by advisory lock\n")` -/
  | print
  | exit (status : ℕ)
  | exited (status : Option ℕ)
  deriving DecidableEq, Repr

/-- An instance and its child. -/
structure Instance where
  pc : Pc
  child : ChildPc
  deriving DecidableEq, Repr

/-- The processes that can own a lock. -/
inductive Owner (ι : Type)
  | main (p : ι)
  | child (p : ι)
  deriving DecidableEq, Repr

/-- The state of the instances `ι` and of the file. -/
structure State (ι : Type) where
  file : LockFile (Owner ι)
  inst : ι → Instance

/-- A scheduling choice. -/
inductive Action (ι : Type)
  /-- Instance `p` performs its next statement. -/
  | main (p : ι)
  /-- The child of instance `p` performs its next statement. -/
  | child (p : ι)
  /-- The `open` of instance `p` fails. -/
  | openFails (p : ι)
  /-- The `fork` of instance `p` fails. -/
  | forkFails (p : ι)
  /-- Instance `p` is killed. -/
  | kill (p : ι)
  /-- The child of instance `p` is killed. -/
  | killChild (p : ι)
  deriving DecidableEq, Repr

namespace Pc

/-- The inode the process has open. -/
def openInode : Pc → Option ℕ
  | tryLock fd | writePid fd | fork fd | waitForPid fd | unlink fd => some fd
  | openFile | ret | exited _ => none

/-- The inode whose lock makes the process a running instance: its `try_lock` has succeeded and it
has not executed its `unlink`. -/
def lockedInode : Pc → Option ℕ
  | writePid fd | fork fd | waitForPid fd | unlink fd => some fd
  | openFile | tryLock _ | ret | exited _ => none

/-- The process is past its `unlink`, or has ended before it. -/
def Gone (pc : Pc) : Prop :=
  pc = ret ∨ ∃ status, pc = exited status

end Pc

section Model

variable {ι : Type} [DecidableEq ι] (pid : ι → ℕ)

/-- What `dprintf(fd, "%ld\n", (long)getpid())` writes. -/
def pidLine (n : ℕ) : List Char :=
  Printf.decimal n ++ ['\n']

/-- No instance has started; `leftover` is the content of an existing file. -/
def init (leftover : Option (List Char)) : State ι where
  file := .unlocked leftover
  inst := fun _ => { pc := .openFile, child := .unborn }

/-- Instance `p` goes on at `pc`, with the file in the state `file`. -/
def State.next (s : State ι) (p : ι) (file : LockFile (Owner ι)) (pc : Pc) : State ι where
  file := file
  inst := Function.update s.inst p { s.inst p with pc := pc }

/-- The child of instance `p` goes on at `pc`, with the file in the state `file`. -/
def State.nextChild (s : State ι) (p : ι) (file : LockFile (Owner ι)) (pc : ChildPc) :
    State ι where
  file := file
  inst := Function.update s.inst p { s.inst p with child := pc }

/-- Instance `p` ends. -/
def State.exit (s : State ι) (p : ι) (status : Option ℕ) : State ι :=
  s.next p (s.file.exit (.main p)) (.exited status)

/-- The child of instance `p` ends. -/
def State.exitChild (s : State ι) (p : ι) (status : Option ℕ) : State ι :=
  s.nextChild p (s.file.exit (.child p)) (.exited status)

/-- The next statement of instance `p`, `none` while it waits for its child and after its end. -/
def mainStep (s : State ι) (p : ι) : Option (State ι) :=
  match (s.inst p).pc with
  | .openFile => some (s.next p s.file.openCreate.2 (.tryLock s.file.openCreate.1))
  | .tryLock fd =>
    match s.file.tryLock (.main p) fd with
    | some file => some (s.next p file (.writePid fd))
    | none => some (s.exit p (some 1)) -- `die_errno("initial lock")`
  | .writePid fd => some (s.next p (s.file.write fd (pidLine (pid p))) (.fork fd))
  | .fork fd =>
    some
      { file := s.file
        inst := Function.update s.inst p { pc := .waitForPid fd, child := .openFile } }
  -- the exit status of the child is not looked at
  | .waitForPid fd =>
    match (s.inst p).child with
    | .exited _ => some (s.next p s.file (.unlink fd))
    | _ => none
  | .unlink _ => some (s.next p s.file.unlink .ret)
  | .ret => some (s.exit p (some 0))
  | .exited _ => none

/-- The next statement of the child of instance `p`. -/
def childStep (s : State ι) (p : ι) : Option (State ι) :=
  match (s.inst p).child with
  | .unborn => none
  -- `open` without `O_CREAT` finds the file that the name refers to now, if any
  | .openFile => some (s.nextChild p s.file (.tryLock s.file.entry))
  | .tryLock none => some (s.nextChild p s.file .print) -- `fcntl(-1)` fails with `EBADF`
  | .tryLock (some fd) =>
    match s.file.tryLock (.child p) fd with
    | some file => some (s.nextChild p file (.exit 1))
    | none => some (s.nextChild p s.file .print)
  | .print => some (s.nextChild p s.file (.exit 0))
  | .exit status => some (s.exitChild p (some status))
  | .exited _ => none

/-- One step of the instances. -/
def step (s : State ι) : Action ι → Option (State ι)
  | .main p => mainStep pid s p
  | .child p => childStep s p
  | .openFails p =>
    match (s.inst p).pc with
    | .openFile => some (s.exit p (some 1))
    | _ => none
  | .forkFails p =>
    -- `wait_for_pid(-1)` dies, because `waitpid` fails with `ECHILD`
    match (s.inst p).pc with
    | .fork _ => some (s.exit p (some 1))
    | _ => none
  | .kill p =>
    match (s.inst p).pc with
    | .exited _ => none
    | _ => some (s.exit p none)
  | .killChild p =>
    match (s.inst p).child with
    | .unborn | .exited _ => none
    | _ => some (s.exitChild p none)

/-- The instances `ι`, interleaved. -/
def system (leftover : Option (List Char)) : TransitionSystem (State ι) (Action ι) where
  init := init leftover
  step := step pid

end Model

variable {ι : Type} [DecidableEq ι] {pid : ι → ℕ} {leftover : Option (List Char)}
  {s s' : State ι} {p : ι}

/-- At most one process is a running instance. -/
def State.SingleInstance (s : State ι) : Prop :=
  ∀ p q, (s.inst p).pc.lockedInode.isSome → (s.inst q).pc.lockedInode.isSome → p = q

/-- The step, if it is an initial `try_lock` that is granted, locks the inode that `LOCK_PATH`
refers to. -/
def LocksCurrent (s : State ι) (a : Action ι) : Prop :=
  ∀ p fd file, a = .main p → (s.inst p).pc = .tryLock fd →
    s.file.tryLock (.main p) fd = some file → s.file.entry = some fd

/-! ## What a step can do -/

/-- What a step does to instance `p`, which becomes `x`, and to the file. -/
inductive Effect (s : State ι) (a : Action ι) (p : ι) (x : Instance)
    (file : LockFile (Owner ι)) : Prop
  /-- The instance writes, forks or waits, or its child moves. -/
  | goesOn
      (opened : x.pc.openInode = (s.inst p).pc.openInode)
      (locked : x.pc.lockedInode = (s.inst p).pc.lockedInode)
      (gone : x.pc.Gone ↔ (s.inst p).pc.Gone)
      (next : file.next = s.file.next)
      (entry : file.entry = s.file.entry)
      (preserves : LockFile.Preserves (.child p) s.file file)
  /-- The instance opens the file. -/
  | opens
      (pc : (s.inst p).pc = .openFile)
      (pc' : x.pc = .tryLock s.file.openCreate.1)
      (file_eq : file = s.file.openCreate.2)
  /-- The initial lock is granted. -/
  | locks (fd : ℕ)
      (action : a = .main p)
      (pc : (s.inst p).pc = .tryLock fd)
      (pc' : x.pc = .writePid fd)
      (granted : s.file.tryLock (.main p) fd = some file)
  /-- The instance removes the name. -/
  | unlinks (fd : ℕ)
      (pc : (s.inst p).pc = .unlink fd)
      (pc' : x.pc = .ret)
      (file_eq : file = s.file.unlink)
  /-- The instance ends. -/
  | ends (status : Option ℕ)
      (pc' : x.pc = .exited status)
      (file_eq : file = s.file.exit (.main p))

/-- A step of the child leaves the instance where it is. -/
theorem Effect.of_child {a : Action ι} {file : LockFile (Owner ι)} {c : ChildPc}
    (hnext : file.next = s.file.next) (hentry : file.entry = s.file.entry)
    (hpreserves : LockFile.Preserves (.child p) s.file file) :
    Effect s a p { s.inst p with child := c } file :=
  .goesOn rfl rfl Iff.rfl hnext hentry hpreserves

/-- What a step of the parent does to its own instance and to the lock file. -/
theorem mainStep_effect (hs : mainStep pid s p = some s') :
    ∃ x, s'.inst = Function.update s.inst p x ∧ Effect s (.main p) p x s'.file := by
  unfold mainStep at hs
  cases hpc : (s.inst p).pc <;> simp only [hpc, Option.some.injEq, reduceCtorEq] at hs
  case openFile =>
    subst hs
    exact ⟨_, rfl, .opens hpc rfl rfl⟩
  case tryLock fd =>
    cases hlock : s.file.tryLock (.main p) fd <;>
      simp only [hlock, Option.some.injEq] at hs <;> subst hs
    · exact ⟨_, rfl, .ends _ rfl rfl⟩
    · exact ⟨_, rfl, .locks fd rfl hpc rfl hlock⟩
  case writePid fd =>
    subst hs
    refine ⟨_, rfl, .goesOn ?_ ?_ ?_ rfl rfl (LockFile.write_preserves _ _ _ _)⟩ <;>
      simp [hpc, Pc.openInode, Pc.lockedInode, Pc.Gone]
  case fork fd =>
    subst hs
    refine ⟨_, rfl, .goesOn ?_ ?_ ?_ rfl rfl (.refl _ _)⟩ <;>
      simp [hpc, Pc.openInode, Pc.lockedInode, Pc.Gone]
  case waitForPid fd =>
    cases hchild : (s.inst p).child <;>
      simp only [hchild, Option.some.injEq, reduceCtorEq] at hs
    subst hs
    refine ⟨_, rfl, .goesOn ?_ ?_ ?_ rfl rfl (.refl _ _)⟩ <;>
      simp [hpc, Pc.openInode, Pc.lockedInode, Pc.Gone]
  case unlink fd =>
    subst hs
    exact ⟨_, rfl, .unlinks fd hpc rfl rfl⟩
  case ret =>
    subst hs
    exact ⟨_, rfl, .ends _ rfl rfl⟩

/-- What a step of the child does to its own instance and to the lock file. -/
theorem childStep_effect (a : Action ι) (hs : childStep s p = some s') :
    ∃ x, s'.inst = Function.update s.inst p x ∧ Effect s a p x s'.file := by
  unfold childStep at hs
  cases hpc : (s.inst p).child <;> simp only [hpc, Option.some.injEq, reduceCtorEq] at hs
  case tryLock competing =>
    rcases competing with _ | fd
    · obtain rfl : s.nextChild p s.file .print = s' := Option.some.inj hs
      exact ⟨_, rfl, .of_child rfl rfl (.refl _ _)⟩
    · cases hlock : s.file.tryLock (.child p) fd <;>
        simp only [hlock, Option.some.injEq] at hs <;> subst hs
      · exact ⟨_, rfl, .of_child rfl rfl (.refl _ _)⟩
      · obtain ⟨-, rfl⟩ := LockFile.tryLock_eq_some_iff.mp hlock
        exact ⟨_, rfl, .of_child rfl rfl (.of_tryLock hlock)⟩
  case exit status =>
    subst hs
    exact ⟨_, rfl, .of_child rfl rfl (LockFile.exit_preserves _ _)⟩
  all_goals
    subst hs
    exact ⟨_, rfl, .of_child rfl rfl (.refl _ _)⟩

/-- Every step changes one instance, by one of the effects. -/
theorem step_effect {a : Action ι} (hs : step pid s a = some s') :
    ∃ p x, s'.inst = Function.update s.inst p x ∧ Effect s a p x s'.file := by
  cases a <;> simp only [step] at hs
  case main p => exact ⟨p, mainStep_effect hs⟩
  case child p => exact ⟨p, childStep_effect _ hs⟩
  case killChild p =>
    split at hs <;> simp only [Option.some.injEq, reduceCtorEq] at hs
    subst hs
    exact ⟨p, _, rfl, .of_child rfl rfl (LockFile.exit_preserves _ _)⟩
  all_goals
    split at hs <;> simp only [Option.some.injEq, reduceCtorEq] at hs
    subst hs
    exact ⟨_, _, rfl, .ends _ rfl rfl⟩

/-! ## Runs that lock the current file -/

/-- Every running instance holds the lock of the inode that `LOCK_PATH` refers to. -/
def Exclusive (s : State ι) : Prop :=
  ∀ p fd, (s.inst p).pc.lockedInode = some fd →
    s.file.entry = some fd ∧ s.file.holder fd = some (.main p)

omit [DecidableEq ι] in
/-- A lock on the current file belongs to one instance. -/
theorem Exclusive.singleInstance (h : Exclusive s) : s.SingleInstance := by
  intro p q hp hq
  obtain ⟨i, hi⟩ := Option.isSome_iff_exists.mp hp
  obtain ⟨j, hj⟩ := Option.isSome_iff_exists.mp hq
  obtain ⟨hentry, hholder⟩ := h p i hi
  obtain ⟨hentry', hholder'⟩ := h q j hj
  -- both hold the lock of the one inode that the name refers to
  obtain rfl : i = j := Option.some.inj (hentry.symm.trans hentry')
  exact Owner.main.inj (Option.some.inj (hholder.symm.trans hholder'))

/-- Instance `p` may change if the others keep their locks and its own lock is in order. -/
theorem Exclusive.update {x : Instance} (hinst : s'.inst = Function.update s.inst p x)
    (hself : ∀ fd, x.pc.lockedInode = some fd →
      s'.file.entry = some fd ∧ s'.file.holder fd = some (.main p))
    (hothers : ∀ q fd, q ≠ p → (s.inst q).pc.lockedInode = some fd →
      s'.file.entry = some fd ∧ s'.file.holder fd = some (.main q)) : Exclusive s' := by
  intro q fd
  rw [hinst]
  by_cases hq : q = p
  · rw [hq, Function.update_self]
    exact hself fd
  · rw [Function.update_of_ne hq]
    exact hothers q fd hq

omit [DecidableEq ι] in
/-- Running instances are safe from every step that preserves the locks of others. -/
theorem Exclusive.of_preserves {o : Owner ι} {q : ι} {fd : ℕ} (h : Exclusive s)
    (hpreserves : LockFile.Preserves o s.file s'.file) (ho : Owner.main q ≠ o)
    (hfd : (s.inst q).pc.lockedInode = some fd) :
    s'.file.entry = some fd ∧ s'.file.holder fd = some (.main q) :=
  ⟨hpreserves.entry fd (h q fd hfd).1, hpreserves.holder fd _ ho (h q fd hfd).2⟩

/-- Exclusion is kept as long as locks are taken on the file that is under the name. -/
theorem Exclusive.step {a : Action ι} (h : Exclusive s) (hok : LocksCurrent s a)
    (hs : step pid s a = some s') : Exclusive s' := by
  obtain ⟨p, x, hinst, heffect⟩ := step_effect hs
  have hmain : ∀ q, q ≠ p → Owner.main q ≠ Owner.main p := fun q hq heq => hq (Owner.main.inj heq)
  rcases heffect with ⟨-, hlocked, -, -, -, hpreserves⟩ | ⟨hpc, hpc', hfile⟩ |
    ⟨fd, ha, hpc, hpc', hlock⟩ | ⟨fd, hpc, hpc', hfile⟩ | ⟨status, hpc', hfile⟩
  · -- locks are not touched except by the child, which owns none that an instance holds
    refine .update hinst ?_ fun q i _ hi => h.of_preserves hpreserves nofun hi
    intro i hi
    exact h.of_preserves hpreserves nofun (hlocked.symm.trans hi)
  · -- `open` leaves an existing name alone, and the instance has no lock yet
    have hpreserves : LockFile.Preserves (.child p) s.file s'.file :=
      hfile ▸ LockFile.openCreate_preserves _ _
    refine .update hinst ?_ fun q i _ hi => h.of_preserves hpreserves nofun hi
    simp [hpc', Pc.lockedInode]
  · -- the lock is on the current inode by assumption
    refine .update hinst ?_ fun q i hq hi => h.of_preserves (.of_tryLock hlock) (hmain q hq) hi
    intro i hi
    rw [hpc'] at hi
    obtain rfl : fd = i := Option.some.inj hi
    rw [(LockFile.tryLock_eq_some_iff.mp hlock).2]
    exact ⟨hok p fd _ ha hpc hlock, Function.update_self ..⟩
  · -- the only running instance removes the name
    refine .update hinst (by simp [hpc', Pc.lockedInode]) fun q i hq hi => ?_
    have hsome : (s.inst p).pc.lockedInode.isSome := by rw [hpc]; rfl
    exact absurd (h.singleInstance q p (Option.isSome_of_eq_some hi) hsome) hq
  · -- an instance that ends gives up its own locks only
    refine .update hinst (by simp [hpc', Pc.lockedInode]) fun q i hq hi => ?_
    exact h.of_preserves (hfile ▸ LockFile.exit_preserves _ _) (hmain q hq) hi

/-- Runs in which every lock is on the current file have one instance at a time. -/
theorem exclusive_of_reachableVia (h : (system pid leftover).ReachableVia LocksCurrent s) :
    Exclusive s :=
  h.invariant (fun _ _ hfd => by cases hfd) fun _ _ _ hinv hok hs => hinv.step hok hs

/-! ## Runs of at most two instances -/

/-- As long as no instance has got past its `unlink` or ended, there is only one inode. -/
structure FirstInode (s : State ι) : Prop where
  open_lt : ∀ p fd, (s.inst p).pc.openInode = some fd → fd < s.file.next
  holder_eq : ∀ p fd, (s.inst p).pc.lockedInode = some fd → s.file.holder fd = some (.main p)
  entry_lt : ∀ fd, s.file.entry = some fd → fd < s.file.next
  first : (∀ p, ¬(s.inst p).pc.Gone) →
    s.file.next = 0 ∧ s.file.entry = none ∨ s.file.next = 1 ∧ s.file.entry = some 0

/-- An instance that is gone stays gone. -/
theorem Effect.gone {a : Action ι} {x : Instance} {file : LockFile (Owner ι)}
    (h : Effect s a p x file) (hgone : (s.inst p).pc.Gone) : x.pc.Gone := by
  rcases h with ⟨-, -, hiff, -⟩ | ⟨hpc, -⟩ | ⟨fd, -, hpc, -⟩ | ⟨fd, hpc, -⟩ | ⟨status, hpc', -⟩
  · exact hiff.mpr hgone
  · simp [Pc.Gone, hpc] at hgone
  · simp [Pc.Gone, hpc] at hgone
  · simp [Pc.Gone, hpc] at hgone
  · exact .inr ⟨status, hpc'⟩

/-- Instance `p` may change if it is in order itself and the others keep their locks. -/
theorem FirstInode.update {x : Instance} (h : FirstInode s)
    (hinst : s'.inst = Function.update s.inst p x) (hnext : s.file.next ≤ s'.file.next)
    (hopen : ∀ fd, x.pc.openInode = some fd → fd < s'.file.next)
    (hself : ∀ fd, x.pc.lockedInode = some fd → s'.file.holder fd = some (.main p))
    (hothers : ∀ q fd, q ≠ p → s.file.holder fd = some (.main q) →
      s'.file.holder fd = some (.main q))
    (hentry : ∀ fd, s'.file.entry = some fd → fd < s'.file.next)
    (hfirst : (∀ q, ¬(s'.inst q).pc.Gone) →
      s'.file.next = 0 ∧ s'.file.entry = none ∨ s'.file.next = 1 ∧ s'.file.entry = some 0) :
    FirstInode s' where
  open_lt q fd := by
    rw [hinst]
    by_cases hq : q = p
    · rw [hq, Function.update_self]
      exact hopen fd
    · rw [Function.update_of_ne hq]
      exact fun hfd => (h.open_lt q fd hfd).trans_le hnext
  holder_eq q fd := by
    rw [hinst]
    by_cases hq : q = p
    · rw [hq, Function.update_self]
      exact hself fd
    · rw [Function.update_of_ne hq]
      exact fun hfd => hothers q fd hq (h.holder_eq q fd hfd)
  entry_lt := hentry
  first := hfirst

/-- Until an instance has ended there is at most one inode, and locks are on inodes that are open.
-/
theorem FirstInode.step {a : Action ι} (h : FirstInode s) (hs : step pid s a = some s') :
    FirstInode s' := by
  obtain ⟨p, x, hinst, heffect⟩ := step_effect hs
  have hmain : ∀ q, q ≠ p → Owner.main q ≠ Owner.main p := fun q hq heq => hq (Owner.main.inj heq)
  -- if no instance is gone after the step, none was before it
  have hx : (∀ q, ¬(s'.inst q).pc.Gone) → ¬x.pc.Gone := by
    intro hnone
    have hp := hnone p
    rwa [hinst, Function.update_self] at hp
  have hfirst : (∀ q, ¬(s'.inst q).pc.Gone) →
      s.file.next = 0 ∧ s.file.entry = none ∨ s.file.next = 1 ∧ s.file.entry = some 0 := by
    refine fun hnone => h.first fun q hq => ?_
    by_cases hqp : q = p
    · exact hx hnone (heffect.gone (hqp ▸ hq))
    · refine hnone q ?_
      rwa [hinst, Function.update_of_ne hqp]
  rcases heffect with ⟨hopened, hlocked, -, hnext, hentry, hpreserves⟩ | ⟨hpc, hpc', hfile⟩ |
    ⟨fd, -, hpc, hpc', hlock⟩ | ⟨fd, hpc, hpc', hfile⟩ | ⟨status, hpc', hfile⟩
  · refine h.update hinst hnext.ge ?_ ?_ ?_ ?_ ?_
    · rw [hopened, hnext]
      exact h.open_lt p
    · intro fd hfd
      exact hpreserves.holder fd _ nofun (h.holder_eq p fd (hlocked ▸ hfd))
    · exact fun q fd _ hq => hpreserves.holder fd _ nofun hq
    · rw [hentry, hnext]
      exact h.entry_lt
    · rw [hentry, hnext]
      exact hfirst
  · -- a new inode is created only when the name is absent
    have hpreserves : LockFile.Preserves (.child p) s.file s'.file :=
      hfile ▸ LockFile.openCreate_preserves _ _
    rcases hentry : s.file.entry with _ | i
    · simp only [LockFile.openCreate, hentry] at hfile hpc'
      refine h.update hinst ?_ ?_ ?_ ?_ ?_ ?_
      · simp [hfile]
      · simp [hfile, hpc', Pc.openInode]
      · simp [hpc', Pc.lockedInode]
      · exact fun q fd _ hq => hpreserves.holder fd _ nofun hq
      · simp [hfile]
      · -- the name is absent, so the inode created is the first one
        intro hnone
        have := hfirst hnone
        simp_all
    · simp only [LockFile.openCreate, hentry] at hfile hpc'
      refine h.update hinst (by rw [hfile]) ?_ ?_ ?_ ?_ ?_
      · simpa [hfile, hpc', Pc.openInode] using h.entry_lt i hentry
      · simp [hpc', Pc.lockedInode]
      · exact fun q fd _ hq => hpreserves.holder fd _ nofun hq
      · rw [hfile]
        exact h.entry_lt
      · rw [hfile]
        exact hfirst
  · have hpreserves := LockFile.Preserves.of_tryLock hlock
    have hfile := (LockFile.tryLock_eq_some_iff.mp hlock).2
    refine h.update hinst (by rw [hfile]) ?_ ?_ ?_ ?_ ?_
    · rw [hfile, hpc']
      exact fun i hi => h.open_lt p i (by rw [hpc]; exact hi)
    · intro i hi
      rw [hpc'] at hi
      obtain rfl : fd = i := Option.some.inj hi
      rw [hfile]
      exact Function.update_self ..
    · exact fun q fd hq hfd => hpreserves.holder fd _ (hmain q hq) hfd
    · rw [hfile]
      exact h.entry_lt
    · rw [hfile]
      exact hfirst
  · refine h.update hinst (by rw [hfile]; exact le_rfl) ?_ ?_ ?_ ?_ ?_
    · simp [hpc', Pc.openInode]
    · simp [hpc', Pc.lockedInode]
    · exact fun q fd _ hq => by rw [hfile]; exact hq
    · simp [hfile, LockFile.unlink]
    · -- the name is gone from here on, and so is the instance that removed it
      exact fun hnone => absurd (.inl hpc') (hx hnone)
  · have hpreserves := LockFile.exit_preserves (.main p) s.file
    rw [← hfile] at hpreserves
    refine h.update hinst (by rw [hfile]; exact le_rfl) ?_ ?_ ?_ ?_ ?_
    · simp [hpc', Pc.openInode]
    · simp [hpc', Pc.lockedInode]
    · exact fun q fd hq hfd => hpreserves.holder fd _ (hmain q hq) hfd
    · rw [hfile]
      exact h.entry_lt
    · exact fun hnone => absurd (.inr ⟨status, hpc'⟩) (hx hnone)

omit [DecidableEq ι] in
theorem FirstInode.init : FirstInode (init leftover : State ι) where
  open_lt _ _ hfd := by cases hfd
  holder_eq _ _ hfd := by cases hfd
  entry_lt fd := by
    rcases leftover with _ | text <;>
      simp [LockfileSingleInstance.init, LockFile.unlocked, eq_comm]
  first _ := by
    rcases leftover with _ | text <;> simp [LockfileSingleInstance.init, LockFile.unlocked]

/-- The invariant of all runs, whatever the instances lock. -/
theorem firstInode_of_reachable (h : (system pid leftover).Reachable s) : FirstInode s :=
  h.invariant FirstInode.init fun _ _ _ hinv hs => hinv.step hs

/-- An instance that holds a lock is running. -/
theorem Pc.not_gone_of_locked {pc : Pc} {fd : ℕ} (h : pc.lockedInode = some fd) : ¬pc.Gone := by
  rintro (hret | ⟨status, hexited⟩)
  · rw [hret] at h
    cases h
  · rw [hexited] at h
    cases h

/-- The lock is on the file that the instance has open. -/
theorem Pc.openInode_of_locked {pc : Pc} {fd : ℕ} (h : pc.lockedInode = some fd) :
    pc.openInode = some fd := by
  cases pc <;> simp_all [Pc.lockedInode, Pc.openInode]

/-- Two running instances need a third one that has removed the name. -/
theorem FirstInode.exists_third (h : FirstInode s) {p q : ι} (hpq : p ≠ q)
    (hp : (s.inst p).pc.lockedInode.isSome) (hq : (s.inst q).pc.lockedInode.isSome) :
    ∃ r, r ≠ p ∧ r ≠ q := by
  obtain ⟨i, hi⟩ := Option.isSome_iff_exists.mp hp
  obtain ⟨j, hj⟩ := Option.isSome_iff_exists.mp hq
  by_contra hno
  push Not at hno
  have hnone : ∀ r, ¬(s.inst r).pc.Gone := by
    intro r
    by_cases hrp : r = p
    · rw [hrp]
      exact Pc.not_gone_of_locked hi
    · rw [hno r hrp]
      exact Pc.not_gone_of_locked hj
  -- so there is one inode at most, which both have locked
  have hlt := h.open_lt p i (Pc.openInode_of_locked hi)
  have hlt' := h.open_lt q j (Pc.openInode_of_locked hj)
  obtain rfl : i = j := by
    have := h.first hnone
    omega
  have hholder := (h.holder_eq p i hi).symm.trans (h.holder_eq q i hj)
  exact hpq (Owner.main.inj (Option.some.inj hholder))

/-! ## The failing schedule -/

/-- What is left of the run of an instance, and of its child, that is alone and has opened the
file. -/
def lockToEnd (p : ι) : List (Action ι) :=
  [.main p, .main p, .main p, .child p, .child p, .child p, .child p, .main p, .main p, .main p]

/-- An instance that gets the lock writes its pid and forks. -/
theorem run_tryLock_fork (pid : ι → ℕ) (leftover : Option (List Char)) {fd : ℕ} {child : ChildPc}
    {file : LockFile (Owner ι)} (hp : s.inst p = { pc := .tryLock fd, child := child })
    (hlock : s.file.tryLock (.main p) fd = some file) :
    (system pid leftover).run s [.main p, .main p, .main p] =
      some
        { file := file.write fd (pidLine (pid p))
          inst := Function.update s.inst p { pc := .waitForPid fd, child := .openFile } } := by
  simp [TransitionSystem.run, system, step, mainStep, State.next, hp, hlock]

/-- A child that is denied the lock prints and exits. -/
theorem run_child_denied (pid : ι → ℕ) (leftover : Option (List Char)) {fd : ℕ} {pc : Pc}
    (hp : s.inst p = { pc := pc, child := .openFile }) (hentry : s.file.entry = some fd)
    (hdenied : s.file.tryLock (.child p) fd = none) :
    (system pid leftover).run s [.child p, .child p, .child p, .child p] =
      some
        { file := s.file.exit (.child p)
          inst := Function.update s.inst p { pc := pc, child := .exited (some 0) } } := by
  simp [TransitionSystem.run, system, step, childStep, State.nextChild, State.exitChild, hp, hentry,
    hdenied]

/-- An instance whose child has exited removes the name and exits. -/
theorem run_unlink_exit (pid : ι → ℕ) (leftover : Option (List Char)) {fd : ℕ}
    {status : Option ℕ} (hp : s.inst p = { pc := .waitForPid fd, child := .exited status }) :
    (system pid leftover).run s [.main p, .main p, .main p] =
      some
        { file := s.file.unlink.exit (.main p)
          inst := Function.update s.inst p
            { pc := .exited (some 0), child := .exited status } } := by
  simp [TransitionSystem.run, system, step, mainStep, State.next, State.exit, hp]

/-- An instance alone runs to its end, and leaves neither the name nor a lock behind. -/
theorem run_lockToEnd (pid : ι → ℕ) (leftover : Option (List Char)) {fd : ℕ}
    (hp : s.inst p = { pc := .tryLock fd, child := .unborn }) (hentry : s.file.entry = some fd)
    (hholder : ∀ i, s.file.holder i = none) :
    ∃ file : LockFile (Owner ι), file.entry = none ∧ file.next = s.file.next ∧
      (∀ i, file.holder i = none) ∧
      (system pid leftover).run s (lockToEnd p) =
        some
          { file := file
            inst := Function.update s.inst p
              { pc := .exited (some 0), child := .exited (some 0) } } := by
  -- `s₁` is the state after `fork`, and `s₂` that after the end of the child
  let locked : LockFile (Owner ι) :=
    { s.file with holder := Function.update s.file.holder fd (some (.main p)) }
  let s₁ : State ι :=
    { file := locked.write fd (pidLine (pid p))
      inst := Function.update s.inst p { pc := .waitForPid fd, child := .openFile } }
  let s₂ : State ι :=
    { file := s₁.file.exit (.child p)
      inst := Function.update s₁.inst p { pc := .waitForPid fd, child := .exited (some 0) } }
  have hlock : s.file.tryLock (.main p) fd = some locked :=
    LockFile.tryLock_eq_some_iff.mpr ⟨.inl (hholder fd), rfl⟩
  have hdenied : s₁.file.tryLock (.child p) fd = none := by
    simp [s₁, locked, LockFile.tryLock, LockFile.write, RecordLock.acquire]
  have hstart : (system pid leftover).run s [.main p, .main p, .main p] = some s₁ :=
    run_tryLock_fork pid leftover hp hlock
  have hp₁ : s₁.inst p = { pc := .waitForPid fd, child := .openFile } := by
    simp [s₁]
  have hp₂ : s₂.inst p = { pc := .waitForPid fd, child := .exited (some 0) } := by
    simp [s₂]
  have hchild : (system pid leftover).run s₁ [.child p, .child p, .child p, .child p] = some s₂ :=
    run_child_denied pid leftover hp₁ hentry hdenied
  have hend := run_unlink_exit pid leftover hp₂
  refine ⟨s₂.file.unlink.exit (.main p), ?_, ?_, fun i => ?_, ?_⟩
  · rfl
  · rfl
  · -- the ends of the child and of the instance leave no lock
    by_cases hi : i = fd
    · simp [s₂, s₁, locked, hi, LockFile.exit, LockFile.unlink, LockFile.write,
        RecordLock.release]
    · simp [s₂, s₁, locked, Function.update_of_ne hi, LockFile.exit, LockFile.unlink,
        LockFile.write, RecordLock.release, hholder]
  · have hphases : lockToEnd p = [Action.main p, Action.main p, Action.main p] ++
        ([Action.child p, Action.child p, Action.child p, Action.child p] ++
          [Action.main p, Action.main p, Action.main p]) := rfl
    rw [hphases, TransitionSystem.run_append hstart, TransitionSystem.run_append hchild, hend]
    simp only [s₂, s₁, Function.update_idem]

/-- `q` opens the file; before it locks it, `p` runs from its lock to its end and `r` starts. -/
def overtaken (p q r : ι) : List (Action ι) :=
  [.main p, .main q] ++ lockToEnd p ++ [.main r, .main r, .main q]

/-- At the end of the schedule both `q` and `r` are running instances. -/
theorem exists_two_running (pid : ι → ℕ) (leftover : Option (List Char)) {p q r : ι}
    (hpq : p ≠ q) (hpr : p ≠ r) (hqr : q ≠ r) :
    ∃ s, (system pid leftover).Reachable s ∧ (s.inst q).pc.lockedInode.isSome ∧
      (s.inst r).pc.lockedInode.isSome := by
  -- `p` and `q` open the same inode 0
  obtain ⟨s₁, hs₁, hp₁, hq₁, hr₁, hentry₁, hnext₁, hholder₁⟩ :
      ∃ s, (system pid leftover).run (system pid leftover).init [.main p, .main q] = some s ∧
        s.inst p = { pc := .tryLock 0, child := .unborn } ∧ (s.inst q).pc = .tryLock 0 ∧
        (s.inst r).pc = .openFile ∧ s.file.entry = some 0 ∧ s.file.next = 1 ∧
        ∀ i, s.file.holder i = none := by
    rcases leftover with _ | text <;>
      simp [TransitionSystem.run, system, init, step, mainStep, State.next, LockFile.unlocked,
        LockFile.openCreate, Function.update_of_ne, hpq, hpq.symm, hpr.symm, hqr.symm]
  -- `p` runs to its end, which removes the name and leaves inode 0 to `q`
  obtain ⟨file, hentry₂, hnext₂, hholder₂, hrun₂⟩ :=
    run_lockToEnd pid leftover hp₁ hentry₁ hholder₁
  -- `r` creates and locks inode 1, and the lock of inode 0 is free for `q`
  obtain ⟨s₃, hs₃, hq₃, hr₃⟩ :
      ∃ s, (system pid leftover).run
          { file := file
            inst := Function.update s₁.inst p
              { pc := .exited (some 0), child := .exited (some 0) } }
          [.main r, .main r, .main q] = some s ∧
        (s.inst q).pc = .writePid 0 ∧ (s.inst r).pc = .writePid 1 := by
    simp [TransitionSystem.run, system, step, mainStep, State.next, LockFile.openCreate,
      LockFile.tryLock, RecordLock.acquire, Function.update_of_ne, hpq.symm, hpr.symm, hqr,
      hqr.symm, hq₁, hr₁, hentry₂, hnext₂, hnext₁, hholder₂]
  have hrun : (system pid leftover).run (system pid leftover).init (overtaken p q r) = some s₃ := by
    rw [overtaken, List.append_assoc, TransitionSystem.run_append hs₁,
      TransitionSystem.run_append hrun₂, hs₃]
  exact ⟨s₃, TransitionSystem.reachable_of_run hrun, by rw [hq₃]; rfl, by rw [hr₃]; rfl⟩

/-! ## When the program is correct -/

/-- In every run in which each granted `try_lock` is on the inode that `LOCK_PATH` refers to, at
most one instance is running. Over all interleavings this holds exactly when there are not three
instances. -/
theorem single_instance_iff (pid : ι → ℕ) (leftover : Option (List Char)) :
    (∀ s, (system pid leftover).ReachableVia LocksCurrent s → s.SingleInstance) ∧
      ((∀ s, (system pid leftover).Reachable s → s.SingleInstance) ↔
        ∀ p q r : ι, p = q ∨ p = r ∨ q = r) := by
  refine ⟨fun s hs => (exclusive_of_reachableVia hs).singleInstance, ?_, ?_⟩
  · intro hsingle p q r
    by_contra hdistinct
    push Not at hdistinct
    obtain ⟨hpq, hpr, hqr⟩ := hdistinct
    obtain ⟨s, hs, hq, hr⟩ := exists_two_running pid leftover hpq hpr hqr
    exact hqr (hsingle s hs q r hq hr)
  · intro hfew s hs p q hp hq
    by_contra hpq
    obtain ⟨r, hrp, hrq⟩ := (firstInode_of_reachable hs).exists_third hpq hp hq
    rcases hfew p q r with heq | heq | heq
    · exact hpq heq
    · exact hrp heq.symm
    · exact hrq heq.symm

/-- Three instances with the pids 100, 101 and 102, started without a lock file: 101 opens the
file, 100 removes it and ends, 102 creates and locks a new one, and 101 locks the old one. -/
theorem two_running_instances :
    ∃ s, (system (fun p : Fin 3 => 100 + p.val) none).Reachable s ∧ ¬s.SingleInstance := by
  have hrun : ((system (fun p : Fin 3 => 100 + p.val) none).run
      (system (fun p : Fin 3 => 100 + p.val) none).init (overtaken 0 1 2)).map
        (fun s => ((s.inst 1).pc, (s.inst 2).pc)) = some (.writePid 0, .writePid 1) := by decide
  obtain ⟨s, hs, hend⟩ := Option.map_eq_some_iff.mp hrun
  rw [Prod.mk.injEq] at hend
  refine ⟨s, TransitionSystem.reachable_of_run hs, fun hsingle => ?_⟩
  exact absurd (hsingle 1 2 (by rw [hend.1]; rfl) (by rw [hend.2]; rfl)) (by decide)

end LockfileSingleInstance
