import OsPrograms.Lib.Descriptors
import OsPrograms.Lib.TransitionSystem

/-!
# `anonymous_pipeline_exec`

The parent makes a pipe, forks, and writes a payload into the pipe; the child makes the read end its
standard input and executes `tr`. Each process closes the descriptors it does not need:

```
child                              parent
xclose(pipefd[1]);                 xclose(pipefd[0]);
dup2(pipefd[0], STDIN_FILENO);     write_all(pipefd[1], payload, strlen(payload));
xclose(pipefd[0]);                 xclose(pipefd[1]);
execlp("tr", ...);                 wait_for_pid(child);
```

The model has a descriptor table for each process. The table that the program starts with is
arbitrary, so the pipe may get any two numbers, those of standard descriptors included. The payload
is shorter than `PIPE_BUF`, so it is written in one piece, and a write without a reader ends the
parent by `SIGPIPE`.

## Main results

- `inv_of_reachable`: what each table holds at each statement.
- `pipeline_iff`: the child executes `tr` with the pipe as its standard input, and sees the end of
  file after the payload, exactly when descriptor 0 was open at the start.
-/

namespace AnonymousPipelineExec

/-- What a descriptor refers to. -/
inductive File
  | readEnd
  | writeEnd
  /-- The file that was open as `k` when the program started. -/
  | inherited (k : ℕ)
  deriving DecidableEq, Repr

/-- The next statement of the parent. -/
inductive Parent
  | pipe
  | fork
  /-- `xclose(pipefd[0])`. -/
  | closeRead
  | write
  /-- `xclose(pipefd[1])`. -/
  | closeWrite
  | wait
  | returned
  /-- After `die_errno`. -/
  | died
  /-- Ended by `SIGPIPE`. -/
  | killed
  deriving DecidableEq, Repr

/-- The next statement of the child. -/
inductive Child
  | unborn
  /-- `xclose(pipefd[1])`. -/
  | closeWrite
  | dup2
  /-- `xclose(pipefd[0])`. -/
  | closeRead
  | exec
  /-- `tr` runs, and reads its standard input. -/
  | tr
  /-- A `read` of `tr` has returned 0. -/
  | eof
  | exited
  deriving DecidableEq, Repr

/-- Both processes and the pipe between them. -/
structure State where
  parent : Parent
  child : Child
  /-- The array `pipefd`, the same in both processes. -/
  pipefd : ℕ × ℕ
  parentTable : Descriptors File
  childTable : Descriptors File
  /-- What has been written to the pipe and not read. -/
  pipe : List Char
  /-- What `tr` has read. -/
  received : List Char

/-- One step. -/
inductive Action
  /-- The parent executes its next statement. -/
  | parent
  /-- `fork` fails in the parent. -/
  | forkFails
  /-- The child executes its next statement. -/
  | child
  /-- `execlp` fails. -/
  | execFails
  /-- `tr` calls `read` for `count + 1` bytes. -/
  | read (count : ℕ)
  /-- `tr` exits, for whatever reason. -/
  | exit
  deriving DecidableEq, Repr

/-- What the parent writes. -/
def payload : List Char :=
  "kernel pipes feed child process standard input\n".toList

/-- `xclose(fd)` in the parent, which goes on with `next`. -/
def parentClose (s : State) (fd : ℕ) (next : Parent) : State :=
  if s.parentTable.entry fd = none then
    { s with parent := .died, parentTable := .empty }
  else
    { s with parent := next, parentTable := s.parentTable.set fd none }

/-- `xclose(fd)` in the child, which goes on with `next`. -/
def childClose (s : State) (fd : ℕ) (next : Child) : State :=
  if s.childTable.entry fd = none then
    { s with child := .exited, childTable := .empty }
  else
    { s with child := next, childTable := s.childTable.set fd none }

/-- The next statement of the parent. -/
def parentStep (s : State) : Option State :=
  match s.parent with
  | .pipe =>
    -- the read end is made first and gets the lower number
    let r := s.parentTable.lowestFree
    let t := s.parentTable.set r (some .readEnd)
    let w := t.lowestFree
    some { s with
      parent := .fork
      pipefd := (r, w)
      parentTable := t.set w (some .writeEnd) }
  | .fork => some { s with parent := .closeRead, child := .closeWrite, childTable := s.parentTable }
  | .closeRead => some (parentClose s s.pipefd.1 .write)
  | .write =>
    if s.parentTable.entry s.pipefd.2 = some .writeEnd then
      -- a child that has ended leaves no reader
      if s.parentTable.RefersTo .readEnd ∨ s.childTable.RefersTo .readEnd then
        some { s with parent := .closeWrite, pipe := s.pipe ++ payload }
      else
        some { s with parent := .killed, parentTable := .empty }
    else
      some { s with parent := .died, parentTable := .empty }
  | .closeWrite => some (parentClose s s.pipefd.2 .wait)
  | .wait =>
    if s.child = .exited then
      some { s with parent := .returned, parentTable := .empty }
    else
      none
  | .returned | .died | .killed => none

/-- The next statement of the child before it becomes `tr`. -/
def childStep (s : State) : Option State :=
  match s.child with
  | .closeWrite => some (childClose s s.pipefd.2 .dup2)
  | .dup2 =>
    match s.childTable.entry s.pipefd.1 with
    | none => some { s with child := .exited, childTable := .empty }
    -- when the two numbers are the same, this changes nothing
    | some file => some { s with
        child := .closeRead
        childTable := s.childTable.set 0 (some file) }
  | .closeRead => some (childClose s s.pipefd.1 .exec)
  | .exec => some { s with child := .tr }
  | .unborn | .tr | .eof | .exited => none

/-- `read(0, …, count + 1)` in `tr`. It blocks while the pipe is empty and has a writer. -/
def readStep (s : State) (count : ℕ) : Option State :=
  if s.child = .tr then
    if s.childTable.entry 0 = some .readEnd then
      if s.pipe ≠ [] then
        some { s with
          pipe := s.pipe.drop (count + 1)
          received := s.received ++ s.pipe.take (count + 1) }
      else if s.parentTable.RefersTo .writeEnd ∨ s.childTable.RefersTo .writeEnd then
        none
      else
        some { s with child := .eof }
    else
      -- standard input is another file, or is closed
      some { s with child := .exited, childTable := .empty }
  else
    none

/-- One step of the system. -/
def step (s : State) : Action → Option State
  | .parent => parentStep s
  | .forkFails =>
    if s.parent = .fork then some { s with parent := .died, parentTable := .empty } else none
  | .child => childStep s
  | .execFails =>
    if s.child = .exec then some { s with child := .exited, childTable := .empty } else none
  | .read count => readStep s count
  | .exit =>
    if s.child = .tr ∨ s.child = .eof then
      some { s with child := .exited, childTable := .empty }
    else
      none

/-! ## The descriptor tables -/

section Tables

variable (opened : Finset ℕ)

/-- The table with which the program starts. -/
def startTable : Descriptors File :=
  .ofFinset opened .inherited

/-- The program, started with the descriptors `opened`. -/
def system : TransitionSystem State Action where
  init :=
    { parent := .pipe
      child := .unborn
      pipefd := (0, 0)
      parentTable := startTable opened
      childTable := .empty
      pipe := []
      received := [] }
  step := step

/-- `pipefd[0]`. -/
def readFd : ℕ :=
  (startTable opened).lowestFree

/-- The table when `pipe` has made the first descriptor. -/
def readTable : Descriptors File :=
  (startTable opened).set (readFd opened) (some .readEnd)

/-- `pipefd[1]`. -/
def writeFd : ℕ :=
  (readTable opened).lowestFree

/-- The table after `pipe`. -/
def pipeTable : Descriptors File :=
  (readTable opened).set (writeFd opened) (some .writeEnd)

/-- The parent's table at each of its statements. -/
def Parent.table : Parent → Descriptors File
  | .pipe => startTable opened
  | .fork | .closeRead => pipeTable opened
  | .write | .closeWrite => (pipeTable opened).set (readFd opened) none
  | .wait => ((pipeTable opened).set (readFd opened) none).set (writeFd opened) none
  | .returned | .died | .killed => .empty

/-- The child's table at each of its statements. -/
def Child.table : Child → Descriptors File
  | .unborn | .exited => .empty
  | .closeWrite => pipeTable opened
  | .dup2 => (pipeTable opened).set (writeFd opened) none
  | .closeRead => ((pipeTable opened).set (writeFd opened) none).set 0 (some .readEnd)
  | .exec | .tr | .eof =>
    (((pipeTable opened).set (writeFd opened) none).set 0 (some .readEnd)).set (readFd opened) none

theorem readFd_lt_writeFd : readFd opened < writeFd opened :=
  (startTable opened).lowestFree_lt_lowestFree_set .readEnd

/-- The pipe gets descriptor 0 for its read end exactly when that was free. -/
theorem readFd_eq_zero_iff : readFd opened = 0 ↔ 0 ∉ opened := by
  constructor
  · intro h hmem
    have hfree := (startTable opened).lowestFree_spec
    rw [← readFd, h] at hfree
    simp [startTable, Descriptors.ofFinset, hmem] at hfree
  · intro hmem
    have hfree : (startTable opened).entry 0 = none := by
      simp [startTable, Descriptors.ofFinset, hmem]
    exact Nat.le_zero.mp (Descriptors.lowestFree_le hfree)

/-- After `pipe`, one descriptor refers to each end of the pipe, and the others to other files. -/
theorem entry_pipeTable (k : ℕ) :
    (pipeTable opened).entry k =
      if k = writeFd opened then some .writeEnd
      else if k = readFd opened then some .readEnd
      else if k ∈ opened then some (.inherited k) else none := by
  rw [pipeTable, Descriptors.entry_set, readTable, Descriptors.entry_set]
  rfl

/-- After `pipe` one number refers to the read end. -/
theorem pipeTable_eq_readEnd_iff {k : ℕ} :
    (pipeTable opened).entry k = some .readEnd ↔ k = readFd opened := by
  have hlt := readFd_lt_writeFd opened
  rw [entry_pipeTable]
  split_ifs <;> simp <;> omega

/-- After `pipe` one number refers to the write end. -/
theorem pipeTable_eq_writeEnd_iff {k : ℕ} :
    (pipeTable opened).entry k = some .writeEnd ↔ k = writeFd opened := by
  have hlt := readFd_lt_writeFd opened
  rw [entry_pipeTable]
  split_ifs <;> simp <;> omega

/-- The parent still has both ends when it closes the first. -/
theorem closeRead_ne_none : (Parent.closeRead.table opened).entry (readFd opened) ≠ none := by
  rw [Parent.table, (pipeTable_eq_readEnd_iff opened).mpr rfl]
  exact Option.some_ne_none _

/-- The parent has the write end until it closes it. -/
theorem write_eq_writeEnd :
    (Parent.write.table opened).entry (writeFd opened) = some .writeEnd := by
  rw [Parent.table, Descriptors.entry_set_of_ne (readFd_lt_writeFd opened).ne',
    (pipeTable_eq_writeEnd_iff opened).mpr rfl]

/-- The child's first `xclose` finds an open descriptor. -/
theorem closeWrite_ne_none : (Child.closeWrite.table opened).entry (writeFd opened) ≠ none := by
  rw [Child.table, (pipeTable_eq_writeEnd_iff opened).mpr rfl]
  exact Option.some_ne_none _

/-- `dup2` finds the read end where `pipe` has put it. -/
theorem dup2_eq_readEnd :
    (Child.dup2.table opened).entry (readFd opened) = some .readEnd := by
  rw [Child.table, Descriptors.entry_set_of_ne (readFd_lt_writeFd opened).ne,
    (pipeTable_eq_readEnd_iff opened).mpr rfl]

/-- The child's second `xclose` finds an open descriptor. -/
theorem childCloseRead_ne_none :
    (Child.closeRead.table opened).entry (readFd opened) ≠ none := by
  rw [Child.table, Descriptors.entry_set]
  -- the read end is descriptor 0, or is still where `pipe` put it
  split
  · exact Option.some_ne_none _
  · rw [← Child.table.eq_4, dup2_eq_readEnd]
    exact Option.some_ne_none _

end Tables

/-! ## The invariant -/

/-- The parent has written the payload. -/
def Parent.Wrote : Parent → Prop
  | .closeWrite | .wait | .returned => True
  | .pipe | .fork | .closeRead | .write | .died | .killed => False

instance : DecidablePred Parent.Wrote
  | .closeWrite | .wait | .returned => isTrue trivial
  | .pipe | .fork | .closeRead | .write | .died | .killed => isFalse id

/-- The parent has no descriptor of the pipe any more. -/
def Parent.Closed : Parent → Prop
  | .wait | .returned | .died | .killed => True
  | .pipe | .fork | .closeRead | .write | .closeWrite => False

/-- The tables are those of the statements the processes have come to, and nothing of the payload
is lost between the pipe and `tr`. -/
structure Inv (opened : Finset ℕ) (s : State) : Prop where
  parentTable : s.parentTable = s.parent.table opened
  childTable : s.childTable = s.child.table opened
  pipefd : s.parent ≠ .pipe → s.pipefd = (readFd opened, writeFd opened)
  unborn : s.parent = .pipe ∨ s.parent = .fork → s.child = .unborn
  data : s.received ++ s.pipe = if s.parent.Wrote then payload else []
  eof : s.child = .eof → s.pipe = [] ∧ s.parent.Closed

section Invariant

variable {opened : Finset ℕ} {s s' : State}

theorem inv_init : Inv opened (system opened).init where
  parentTable := rfl
  childTable := rfl
  pipefd h := absurd rfl h
  unborn _ := rfl
  data := rfl
  eof h := by cases h

/-- A step of the parent that touches neither the child nor the pipe. -/
theorem Inv.parent_next (h : Inv opened s) (next : Parent)
    (hpipefd : s.parent ≠ .pipe) (hnext : next ≠ .pipe ∧ next ≠ .fork)
    (hwrote : next.Wrote ↔ s.parent.Wrote) (hclosed : s.parent.Closed → next.Closed) :
    Inv opened { s with parent := next, parentTable := next.table opened } where
  parentTable := rfl
  childTable := h.childTable
  pipefd _ := h.pipefd hpipefd
  unborn hpc := by
    rcases hpc with hpc | hpc
    · exact absurd hpc hnext.1
    · exact absurd hpc hnext.2
  data := by
    rw [h.data]
    exact if_congr hwrote.symm rfl rfl
  eof hpc := ⟨(h.eof hpc).1, hclosed (h.eof hpc).2⟩

/-- A step of the child that does not read. -/
theorem Inv.child_next (h : Inv opened s) (next : Child) (hborn : s.child ≠ .unborn)
    (hnext : next ≠ .eof) :
    Inv opened { s with child := next, childTable := next.table opened } where
  parentTable := h.parentTable
  childTable := rfl
  pipefd := h.pipefd
  unborn hpc := absurd (h.unborn hpc) hborn
  data := h.data
  eof hpc := absurd hpc hnext

/-- The child is there only after `pipe`. -/
theorem Inv.pipefd_of_child (h : Inv opened s) (hborn : s.child ≠ .unborn) :
    s.pipefd = (readFd opened, writeFd opened) :=
  h.pipefd fun hpc => hborn (h.unborn (.inl hpc))

/-- The parent moves on to the table of its next statement. -/
theorem Inv.parentStep (h : Inv opened s) (hstep : parentStep s = some s') : Inv opened s' := by
  obtain ⟨parent, child, pipefd, parentTable, childTable, pipe, received⟩ := s
  obtain rfl : parentTable = parent.table opened := h.parentTable
  have hfds := h.pipefd
  cases parent <;> simp only [AnonymousPipelineExec.parentStep, reduceCtorEq] at hstep
  case pipe =>
    obtain rfl := Option.some.inj hstep
    exact
      { parentTable := rfl
        childTable := h.childTable
        pipefd := fun _ => rfl
        unborn := fun _ => h.unborn (.inl rfl)
        data := h.data
        eof := h.eof }
  case fork =>
    obtain rfl := Option.some.inj hstep
    exact
      { parentTable := rfl
        childTable := rfl
        pipefd := fun _ => h.pipefd (by simp)
        unborn := by simp
        data := h.data
        eof := by simp }
  case closeRead =>
    obtain rfl : pipefd = (readFd opened, writeFd opened) := hfds (by simp)
    obtain rfl := Option.some.inj hstep
    rw [parentClose, if_neg (closeRead_ne_none opened)]
    exact h.parent_next .write (by simp) (by simp) Iff.rfl False.elim
  case write =>
    obtain rfl : pipefd = (readFd opened, writeFd opened) := hfds (by simp)
    rw [if_pos (write_eq_writeEnd opened)] at hstep
    split_ifs at hstep
    · obtain rfl := Option.some.inj hstep
      have hempty : received = [] ∧ pipe = [] := List.append_eq_nil_iff.mp h.data
      exact
        { parentTable := rfl
          childTable := h.childTable
          pipefd := fun _ => rfl
          unborn := by simp
          data := by simp [hempty, Parent.Wrote]
          -- `tr` has not seen the end of file, since the parent could still write
          eof := fun hpc => (h.eof hpc).2.elim }
    · obtain rfl := Option.some.inj hstep
      exact h.parent_next .killed (by simp) (by simp) Iff.rfl False.elim
  case closeWrite =>
    obtain rfl : pipefd = (readFd opened, writeFd opened) := hfds (by simp)
    obtain rfl := Option.some.inj hstep
    have hopen : (Parent.closeWrite.table opened).entry (writeFd opened) ≠ none := by
      rw [show Parent.closeWrite.table opened = Parent.write.table opened from rfl,
        write_eq_writeEnd]
      exact Option.some_ne_none _
    rw [parentClose, if_neg hopen]
    exact h.parent_next .wait (by simp) (by simp) Iff.rfl False.elim
  case wait =>
    split_ifs at hstep with hexited
    obtain rfl := Option.some.inj hstep
    exact h.parent_next .returned (by simp) (by simp) Iff.rfl id

/-- What the child executes next, until it is `tr`. -/
def Child.next : Child → Option Child
  | .closeWrite => some .dup2
  | .dup2 => some .closeRead
  | .closeRead => some .exec
  | .exec => some .tr
  | .unborn | .tr | .eof | .exited => none

/-- None of the child's calls fails, and each leaves the table of the next statement. -/
theorem Inv.childStep_eq (h : Inv opened s) :
    childStep s =
      s.child.next.map fun next => { s with child := next, childTable := next.table opened } := by
  obtain ⟨parent, child, pipefd, parentTable, childTable, pipe, received⟩ := s
  obtain rfl : childTable = child.table opened := h.childTable
  have hfds := h.pipefd_of_child
  cases child
  case closeWrite =>
    obtain rfl : pipefd = (readFd opened, writeFd opened) := hfds (by simp)
    exact congrArg some (if_neg (closeWrite_ne_none opened))
  case dup2 =>
    obtain rfl : pipefd = (readFd opened, writeFd opened) := hfds (by simp)
    simp only [AnonymousPipelineExec.childStep, dup2_eq_readEnd]
    rfl
  case closeRead =>
    obtain rfl : pipefd = (readFd opened, writeFd opened) := hfds (by simp)
    exact congrArg some (if_neg (childCloseRead_ne_none opened))
  all_goals rfl

/-- The child moves on to the table of its next statement. -/
theorem Inv.childStep (h : Inv opened s) (hstep : childStep s = some s') : Inv opened s' := by
  rw [h.childStep_eq, Option.map_eq_some_iff] at hstep
  obtain ⟨next, hnext, rfl⟩ := hstep
  refine h.child_next next ?_ ?_
  · intro hpc
    rw [hpc] at hnext
    cases hnext
  · rintro rfl
    cases hpc : s.child <;> rw [hpc] at hnext <;> cases hnext

/-- While the parent has not closed its write end, its table shows it. -/
theorem closed_of_not_refersTo {parent : Parent} (hpc : parent ≠ .pipe ∧ parent ≠ .fork)
    (h : ¬(parent.table opened).RefersTo .writeEnd) : parent.Closed := by
  rw [Descriptors.refersTo_iff, not_exists] at h
  cases parent with
  | pipe => exact absurd rfl hpc.1
  | fork => exact absurd rfl hpc.2
  | closeRead => exact h _ ((pipeTable_eq_writeEnd_iff opened).mpr rfl)
  | write | closeWrite => exact h _ (write_eq_writeEnd opened)
  | wait | returned | died | killed => trivial

/-- What `tr` reads was in the pipe. -/
theorem Inv.readStep (h : Inv opened s) {count : ℕ} (hstep : readStep s count = some s') :
    Inv opened s' := by
  rw [AnonymousPipelineExec.readStep] at hstep
  split_ifs at hstep with htr hstdin hpipe hwriter
  -- data, end of file, or an error
  · obtain rfl := Option.some.inj hstep
    exact
      { parentTable := h.parentTable
        childTable := h.childTable
        pipefd := h.pipefd
        unborn := h.unborn
        data := by
          rw [List.append_assoc, List.take_append_drop]
          exact h.data
        eof := fun hpc => by
          rw [htr] at hpc
          cases hpc }
  · obtain rfl := Option.some.inj hstep
    rw [not_or, h.parentTable] at hwriter
    refine
      { parentTable := h.parentTable
        childTable := ?_
        pipefd := h.pipefd
        unborn := fun hpc => ?_
        data := h.data
        eof := fun _ => ⟨not_not.mp hpipe, closed_of_not_refersTo ⟨?_, ?_⟩ hwriter.1⟩ }
    · rw [h.childTable, htr]
      rfl
    · rw [h.unborn hpc] at htr
      cases htr
    · intro hpc
      rw [h.unborn (.inl hpc)] at htr
      cases htr
    · intro hpc
      rw [h.unborn (.inr hpc)] at htr
      cases htr
  · obtain rfl := Option.some.inj hstep
    exact h.child_next .exited (by simp [htr]) (by simp)

/-- The invariant holds along every run. -/
theorem inv_of_reachable (h : (system opened).Reachable s) : Inv opened s := by
  refine h.invariant inv_init ?_
  intro s a s' hs hstep
  cases a with
  | parent => exact hs.parentStep hstep
  | child => exact hs.childStep hstep
  | read count => exact hs.readStep hstep
  | forkFails =>
    simp only [system, step] at hstep
    split_ifs at hstep with hpc
    obtain rfl := Option.some.inj hstep
    exact hs.parent_next .died (by simp [hpc]) (by simp) (by simp [hpc, Parent.Wrote])
      (fun _ => trivial)
  | execFails =>
    simp only [system, step] at hstep
    split_ifs at hstep with hpc
    obtain rfl := Option.some.inj hstep
    exact hs.child_next .exited (by simp [hpc]) (by simp)
  | exit =>
    simp only [system, step] at hstep
    split_ifs at hstep with hpc
    obtain rfl := Option.some.inj hstep
    refine hs.child_next .exited ?_ (by simp)
    rcases hpc with hpc | hpc <;> simp [hpc]

end Invariant

/-! ## At `execlp`, and at the end of the payload -/

/-- Descriptor 0 is the read end of the pipe, and nothing else refers to the pipe. -/
structure StdinIsPipe (t : Descriptors File) : Prop where
  stdin : t.entry 0 = some .readEnd
  noWriteEnd : ¬t.RefersTo .writeEnd
  noOther : ∀ k, t.entry k = some .readEnd → k = 0

/-- No process holds the write end any more, except for a child that has yet to execute its first
statement; and a `tr` that finds the pipe empty has read the payload and now sees the end of
file. -/
structure PayloadEnds (s : State) : Prop where
  parent : ¬s.parentTable.RefersTo .writeEnd
  child : s.child ≠ .closeWrite → ¬s.childTable.RefersTo .writeEnd
  eof : s.child = .tr → s.pipe = [] →
    s.received = payload ∧ ∀ count, step s (.read count) = some { s with child := .eof }

section Results

variable (opened : Finset ℕ) {s : State}

/-- The child's table at `execlp`. -/
theorem entry_exec (k : ℕ) :
    (Child.exec.table opened).entry k =
      if k = readFd opened then none
      else if k = 0 then some .readEnd
      else if k = writeFd opened then none
      else if k ∈ opened then some (.inherited k) else none := by
  rw [Child.table, Descriptors.entry_set, Descriptors.entry_set, Descriptors.entry_set,
    entry_pipeTable]
  split_ifs <;> rfl

/-- The standard input of `tr` is the pipe exactly when 0 is not the number that is closed last. -/
theorem stdinIsPipe_exec_iff : StdinIsPipe (Child.exec.table opened) ↔ 0 ∈ opened := by
  constructor
  · intro h
    by_contra hclosed
    have hstdin := h.stdin
    rw [entry_exec, if_pos ((readFd_eq_zero_iff opened).mpr hclosed).symm] at hstdin
    cases hstdin
  · intro hopen
    have hne : 0 ≠ readFd opened := fun h => (readFd_eq_zero_iff opened).mp h.symm hopen
    refine ⟨?_, ?_, ?_⟩
    · rw [entry_exec, if_neg hne, if_pos rfl]
    · rw [Descriptors.refersTo_iff]
      rintro ⟨k, hk⟩
      rw [entry_exec] at hk
      split_ifs at hk <;> simp at hk
    · intro k hk
      rw [entry_exec] at hk
      split_ifs at hk with h1 h2 <;> simp_all

/-- Clearing its entry, the last descriptor of the write end goes. -/
theorem not_refersTo_dup2Table : ¬(Child.dup2.table opened).RefersTo .writeEnd := by
  intro h
  rcases h.of_set with h | ⟨j, hj, h⟩
  · cases h
  · exact hj ((pipeTable_eq_writeEnd_iff opened).mp h)

/-- The child gives up the write end with its first statement. -/
theorem not_refersTo_childTable {child : Child} (h : child ≠ .closeWrite) :
    ¬(child.table opened).RefersTo .writeEnd := by
  have hempty : ¬(Descriptors.empty : Descriptors File).RefersTo .writeEnd := by
    rw [Descriptors.refersTo_iff]
    rintro ⟨k, hk⟩
    cases hk
  have hclose : ¬(Child.closeRead.table opened).RefersTo .writeEnd := by
    intro h
    rcases h.of_set with h | ⟨j, -, h⟩
    · cases h
    · exact not_refersTo_dup2Table opened (Descriptors.refersTo_iff.mpr ⟨j, h⟩)
  have hexec : ¬(Child.exec.table opened).RefersTo .writeEnd := by
    intro h
    rcases h.of_set with h | ⟨j, -, h⟩
    · cases h
    · exact hclose (Descriptors.refersTo_iff.mpr ⟨j, h⟩)
  cases child with
  | unborn | exited => exact hempty
  | closeWrite => exact absurd rfl h
  | dup2 => exact not_refersTo_dup2Table opened
  | closeRead => exact hclose
  | exec | tr | eof => exact hexec

/-- After its second `xclose` the parent has no write end. -/
theorem not_refersTo_waitTable : ¬(Parent.wait.table opened).RefersTo .writeEnd := by
  intro h
  rcases h.of_set with h | ⟨j, hj, h⟩
  · cases h
  · rw [Descriptors.entry_set] at h
    split_ifs at h
    exact hj ((pipeTable_eq_writeEnd_iff opened).mp h)

variable {opened}

/-- After the parent's last `xclose`, `tr` is all that stands between the pipe and its end. -/
theorem payloadEnds_of_reachable (hopen : 0 ∈ opened) (hs : (system opened).Reachable s)
    (hpc : s.parent = .wait ∨ s.parent = .returned) : PayloadEnds s := by
  have hinv := inv_of_reachable hs
  have hparent : ¬s.parentTable.RefersTo .writeEnd := by
    rw [hinv.parentTable]
    rcases hpc with hpc | hpc <;> rw [hpc]
    · exact not_refersTo_waitTable opened
    · rw [Descriptors.refersTo_iff]
      rintro ⟨k, hk⟩
      cases hk
  have hchild : s.child ≠ .closeWrite → ¬s.childTable.RefersTo .writeEnd := by
    intro hne
    rw [hinv.childTable]
    exact not_refersTo_childTable opened hne
  refine ⟨hparent, hchild, fun htr hempty => ⟨?_, fun count => ?_⟩⟩
  · have hdata := hinv.data
    rw [hempty, List.append_nil, if_pos] at hdata
    · exact hdata
    · rcases hpc with hpc | hpc <;> rw [hpc] <;> trivial
  · have hstdin : s.childTable.entry 0 = some .readEnd := by
      rw [hinv.childTable, htr]
      exact ((stdinIsPipe_exec_iff opened).mpr hopen).stdin
    have hwriter : ¬(s.parentTable.RefersTo .writeEnd ∨ s.childTable.RefersTo .writeEnd) :=
      not_or.mpr ⟨hparent, hchild (by simp [htr])⟩
    simp [step, readStep, htr, hstdin, hempty, hwriter]

/-- The child can go on to its next statement at any time. -/
theorem Reachable.childNext {next : Child} (hs : (system opened).Reachable s)
    (hnext : s.child.next = some next) :
    (system opened).Reachable { s with child := next, childTable := next.table opened } := by
  refine hs.next (a := .child) ?_
  change childStep s = _
  rw [(inv_of_reachable hs).childStep_eq, hnext]
  rfl

/-- Whatever the program starts with, the child can get to `execlp`. -/
theorem exec_reachable (opened : Finset ℕ) :
    ∃ s, (system opened).Reachable s ∧ s.child = .exec := by
  have hpipe : (system opened).Reachable _ :=
    TransitionSystem.Reachable.next .init (a := .parent) rfl
  have hfork : (system opened).Reachable _ := hpipe.next (a := .parent) rfl
  have hclose := Reachable.childNext hfork rfl
  have hdup2 := Reachable.childNext hclose rfl
  have hexec := Reachable.childNext hdup2 rfl
  exact ⟨_, hexec, rfl⟩

/-- For every set of descriptors open at the start: the child executes `tr` with the read end of the
pipe as its standard input and with no other descriptor of the pipe, and after the parent's last
`xclose` the write end is gone and `tr` sees the end of file after the payload, exactly when
descriptor 0 is open at the start. A child that has yet to execute its first `xclose` is exempt: it
still has the write end that it got from `fork`, whatever the parent has closed. -/
theorem pipeline_iff (opened : Finset ℕ) :
    (∀ s, (system opened).Reachable s →
      (s.child = .exec → StdinIsPipe s.childTable) ∧
        (s.parent = .wait ∨ s.parent = .returned → PayloadEnds s)) ↔ 0 ∈ opened := by
  constructor
  · intro hall
    obtain ⟨s, hs, hpc⟩ := exec_reachable opened
    have hstdin := (hall s hs).1 hpc
    rw [(inv_of_reachable hs).childTable, hpc] at hstdin
    exact (stdinIsPipe_exec_iff opened).mp hstdin
  · intro hopen s hs
    refine ⟨fun hpc => ?_, payloadEnds_of_reachable hopen hs⟩
    rw [(inv_of_reachable hs).childTable, hpc]
    exact (stdinIsPipe_exec_iff opened).mpr hopen

/-- With descriptor 0 closed at the start, `tr` is executed without a standard input. -/
theorem pipeline_without_stdin :
    ¬∀ (opened : Finset ℕ) (s : State), (system opened).Reachable s → s.child = .exec →
      s.childTable.entry 0 = some .readEnd := by
  intro hclaim
  obtain ⟨s, hs, hpc⟩ := exec_reachable {1, 2}
  have hzero : readFd {1, 2} = 0 := (readFd_eq_zero_iff {1, 2}).mpr (by decide)
  have hstdin := hclaim {1, 2} s hs hpc
  rw [(inv_of_reachable hs).childTable, hpc, entry_exec, if_pos hzero.symm] at hstdin
  cases hstdin

end Results

end AnonymousPipelineExec
