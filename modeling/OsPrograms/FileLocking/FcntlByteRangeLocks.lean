import OsPrograms.Lib.ProcessTable
import OsPrograms.Lib.RangeLock
import OsPrograms.Lib.Refinement
import OsPrograms.Lib.Termination

/-!
# `fcntl_byte_range_locks`

The parent forks children that each lock a range of one file, write a text to the beginning of the
range, print a line and exit, which releases the lock. In `main` there are two children, whose
ranges are disjoint; here there are any number, with any ranges. `pwrite` stores the text byte by
byte, so without locks two texts could be mixed in the file.

## Main results

- `writes_serializable`: whatever the ranges, the file is at the end what the children leave that
  write one after the other, each its whole text at once. They do so in the order in which they
  are granted their locks (`refinement`).
- `disjoint_ranges`: with disjoint ranges no child ever waits, and the file is at the end the same
  after every run.
- `locks_terminate`: all runs have the same length, and none of them deadlocks.
-/

namespace FcntlByteRangeLocks

open TransitionSystem

/-- What one child does. -/
structure Job where
  /-- The arguments of `lock_range`. -/
  range : ByteRange
  /-- What it writes to the beginning of the range. -/
  text : List UInt8
  /-- What it prints. -/
  message : String
  /-- The text stays in the range, as the two texts of the source do. -/
  fits : text.length ≤ range.len

/-- The next statement of a child. -/
inductive ChildPc
  | unborn
  /-- `lock_range` -/
  | lock
  /-- `pwrite`, which has stored `done` bytes. -/
  | write (done : ℕ)
  /-- `printf` and `fflush` -/
  | print
  /-- `_exit(0)` -/
  | exit
  | exited
  deriving DecidableEq, Repr

/-- The next statement of the parent. -/
inductive ParentPc
  /-- The `fork` of child `k`. -/
  | fork (k : ℕ)
  /-- `wait_for_pid` for child `k`. -/
  | wait (k : ℕ)
  | unlink
  | returned
  deriving DecidableEq, Repr

structure State (n : ℕ) where
  /-- The bytes of the file, zero after its end. -/
  content : ℕ → UInt8
  locks : Fin n → Option ByteRange
  child : Fin n → ChildPc
  parent : ParentPc
  /-- The children whose lines have been printed, in order. -/
  printed : List (Fin n)

inductive Action (n : ℕ)
  | parent
  | child (i : Fin n)
  deriving DecidableEq, Repr

/-- The parent when it has waited for `k` children. -/
def waitTest (n k : ℕ) : ParentPc :=
  if k < n then .wait k else .unlink

/-- The parent when it has forked `k` children. -/
def forkTest (n k : ℕ) : ParentPc :=
  if k < n then .fork k else waitTest n 0

/-- A child that has stored `done` bytes. -/
def writeTest (job : Job) (done : ℕ) : ChildPc :=
  if done < job.text.length then .write done else .print

section Model

variable {n : ℕ} (jobs : Fin n → Job)

/-- After `ftruncate`. -/
def init (n : ℕ) : State n where
  content := fun _ => 0
  locks := fun _ => none
  child := fun _ => .unborn
  parent := forkTest n 0
  printed := []

def parentStep (s : State n) : Option (State n) :=
  match s.parent with
  | .fork k =>
    if h : k < n then
      some { s with parent := forkTest n (k + 1), child := Function.update s.child ⟨k, h⟩ .lock }
    else
      none
  | .wait k =>
    if ∃ h : k < n, s.child ⟨k, h⟩ = .exited then
      some { s with parent := waitTest n (k + 1) }
    else
      none
  | .unlink => some { s with parent := .returned }
  | .returned => none

def childStep (s : State n) (i : Fin n) : Option (State n) :=
  match s.child i with
  | .lock =>
    -- `F_SETLKW` waits for the processes whose ranges are in the way
    if RangeLock.Grantable s.locks i (jobs i).range then
      some { s with
        child := Function.update s.child i (writeTest (jobs i) 0)
        locks := RangeLock.acquire s.locks i (jobs i).range }
    else
      none
  | .write done =>
    some { s with
      child := Function.update s.child i (writeTest (jobs i) (done + 1))
      content := Function.update s.content ((jobs i).range.start + done)
        ((jobs i).text.getD done 0) }
  | .print =>
    some { s with child := Function.update s.child i .exit, printed := s.printed ++ [i] }
  | .exit =>
    some { s with
      child := Function.update s.child i .exited
      locks := RangeLock.release s.locks i }
  | .unborn | .exited => none

/-- The parent and its children. -/
def system : TransitionSystem (State n) (Action n) where
  init := init n
  step s
    | .parent => parentStep s
    | .child i => childStep jobs s i

/-- What the children have printed. -/
def State.output (s : State n) : List String :=
  s.printed.map fun i => (jobs i).message

end Model

/-! ## The file with whole writes -/

/-- The byte that the write of `job` still has to store at `p` when it has stored `done` bytes. -/
def Job.byteFrom (job : Job) (done p : ℕ) : Option UInt8 :=
  if job.range.start + done ≤ p then job.text[p - job.range.start]? else none

/-- The file after the whole write of `job`. -/
def Job.overlay (job : Job) (content : ℕ → UInt8) (p : ℕ) : UInt8 :=
  (job.byteFrom 0 p).getD (content p)

/-- The file, with zeros first, after the whole writes of some children in order. -/
def wholeTexts {n : ℕ} (jobs : Fin n → Job) (order : List (Fin n)) : ℕ → UInt8 :=
  order.foldl (fun content i => (jobs i).overlay content) fun _ => 0

/-- A file and the children that have written to it. -/
structure WrittenFile (n : ℕ) where
  content : ℕ → UInt8
  written : Fin n → Bool

/-- The children write once each, and all of their text at once. -/
def wholeWrites {n : ℕ} (jobs : Fin n → Job) : TransitionSystem (WrittenFile n) (Fin n) where
  init := { content := fun _ => 0, written := fun _ => false }
  step t i :=
    if t.written i then
      none
    else
      some {
        content := (jobs i).overlay t.content
        written := Function.update t.written i true }

section Jobs

variable {job : Job} {done p : ℕ}

/-- A text is stored inside the range that is locked for it. -/
theorem contains_of_byteFrom {b : UInt8} (h : job.byteFrom done p = some b) :
    job.range.Contains p := by
  unfold Job.byteFrom at h
  split at h
  next hle =>
    have hlt := (List.getElem?_eq_some_iff.mp h).1
    have hfits := job.fits
    exact ⟨by omega, by omega⟩
  next => cases h

/-- After the last byte nothing is left to store. -/
theorem byteFrom_of_length_le (h : job.text.length ≤ done) : job.byteFrom done p = none := by
  unfold Job.byteFrom
  split
  next hle => exact List.getElem?_eq_none (by omega)
  next => rfl

/-- The next byte to write is the one at `done`. -/
theorem byteFrom_self (h : done < job.text.length) :
    job.byteFrom done (job.range.start + done) = some (job.text.getD done 0) := by
  simp [Job.byteFrom, h]

/-- A byte that has been written is not to be written again. -/
theorem byteFrom_succ_self : job.byteFrom (done + 1) (job.range.start + done) = none :=
  if_neg (by omega)

/-- One byte makes a difference where it is stored only. -/
theorem byteFrom_succ (h : p ≠ job.range.start + done) :
    job.byteFrom (done + 1) p = job.byteFrom done p := by
  have hiff : job.range.start + (done + 1) ≤ p ↔ job.range.start + done ≤ p := by omega
  simp only [Job.byteFrom, hiff]

variable {n : ℕ} {jobs : Fin n → Job} {t : WrittenFile n} {order : List (Fin n)}
  {content : ℕ → UInt8}

/-- The file is what some of the children leave that write one after the other. -/
theorem exists_order (h : (wholeWrites jobs).Reachable t) :
    ∃ order : List (Fin n), order.Nodup ∧ (∀ i, i ∈ order ↔ t.written i = true) ∧
      t.content = wholeTexts jobs order := by
  refine h.invariant (P := fun t => ∃ order : List (Fin n), order.Nodup ∧
    (∀ i, i ∈ order ↔ t.written i = true) ∧ t.content = wholeTexts jobs order) ?_ ?_
  · exact ⟨[], List.nodup_nil, by simp [wholeWrites], rfl⟩
  · rintro t i t' ⟨order, hnodup, hmem, hcontent⟩ hstep
    simp only [wholeWrites, Option.ite_none_left_eq_some, Option.some.injEq] at hstep
    obtain ⟨hnot, rfl⟩ := hstep
    have hi : i ∉ order := fun hi => hnot ((hmem i).mp hi)
    refine ⟨order ++ [i], ?_, fun j => ?_, ?_⟩
    · exact (List.perm_append_singleton i order).nodup_iff.mpr (List.nodup_cons.mpr ⟨hi, hnodup⟩)
    · simp only [List.mem_append, hmem, List.mem_singleton, Function.update_apply]
      split <;> simp_all
    · rw [wholeTexts, List.foldl_append, ← wholeTexts, ← hcontent]
      rfl

/-- Where no text is stored the file keeps its bytes. -/
theorem foldl_overlay_of_none (h : ∀ i ∈ order, (jobs i).byteFrom 0 p = none) :
    order.foldl (fun content i => (jobs i).overlay content) content p = content p := by
  induction order generalizing content with
  | nil => rfl
  | cons j order ih =>
    rw [List.foldl_cons, ih fun i hi => h i (List.mem_cons_of_mem j hi), Job.overlay,
      h j List.mem_cons_self, Option.getD_none]

/-- Where one text alone is stored it is in the file, at whatever place in the order. -/
theorem foldl_overlay_of_mem {i : Fin n} {b : UInt8} (hi : i ∈ order)
    (hb : (jobs i).byteFrom 0 p = some b)
    (hothers : ∀ j, j ≠ i → (jobs j).byteFrom 0 p = none) :
    order.foldl (fun content i => (jobs i).overlay content) content p = b := by
  induction order generalizing content with
  | nil => cases hi
  | cons j order ih =>
    rw [List.foldl_cons]
    by_cases hmem : i ∈ order
    · exact ih hmem
    · have hj : i = j := (List.mem_cons.mp hi).resolve_right hmem
      have hnone : ∀ k ∈ order, (jobs k).byteFrom 0 p = none :=
        fun k hk => hothers k fun hki => hmem (hki ▸ hk)
      rw [foldl_overlay_of_none hnone, Job.overlay, ← hj, hb, Option.getD_some]

end Jobs

/-! ## The invariant -/

/-- The child has its lock. -/
def ChildPc.Holds : ChildPc → Prop
  | .write _ | .print | .exit => True
  | .unborn | .lock | .exited => False

instance : DecidablePred ChildPc.Holds
  | .write _ | .print | .exit => .isTrue trivial
  | .unborn | .lock | .exited => .isFalse id

/-- The number of children that the parent has forked. -/
def ParentPc.forked (n : ℕ) : ParentPc → ℕ
  | .fork k => k
  | .wait _ | .unlink | .returned => n

/-- The number of children that the parent has waited for. -/
def ParentPc.waited (n : ℕ) : ParentPc → ℕ
  | .fork _ => 0
  | .wait k => k
  | .unlink | .returned => n

/-- What holds of a child with `pc`, whose lock is `lock`. -/
structure ChildInv (job : Job) (lock : Option ByteRange) (printed : Prop) (pc : ChildPc) :
    Prop where
  lock_eq : lock = if pc.Holds then some job.range else none
  write_lt : ∀ done, pc = .write done → done < job.text.length
  printed_iff : printed ↔ pc = .exit ∨ pc = .exited

structure Inv {n : ℕ} (jobs : Fin n → Job) (s : State n) : Prop where
  child : ∀ i, ChildInv (jobs i) (s.locks i) (i ∈ s.printed) (s.child i)
  exclusive : RangeLock.Exclusive s.locks
  unborn_iff : ∀ i, s.child i = .unborn ↔ s.parent.forked n ≤ i
  exited_of_waited : ∀ i, i.val < s.parent.waited n → s.child i = .exited
  parent_lt : ∀ k, s.parent = .fork k ∨ s.parent = .wait k → k < n
  nodup_printed : s.printed.Nodup

section Steps

variable {n : ℕ} {jobs : Fin n → Job} {s s' : State n} {a : Action n} {i : Fin n}

/-- `pwrite` is called again as long as there is text left. -/
theorem writeTest_cases (job : Job) (done : ℕ) :
    (done < job.text.length ∧ writeTest job done = .write done) ∨
      (job.text.length ≤ done ∧ writeTest job done = .print) := by
  unfold writeTest
  split
  next h => exact .inl ⟨h, rfl⟩
  next h => exact .inr ⟨Nat.le_of_not_lt h, rfl⟩

/-- The parent waits for the next child, or removes the file. -/
theorem waitTest_cases (n k : ℕ) :
    (k < n ∧ waitTest n k = .wait k) ∨ (n ≤ k ∧ waitTest n k = .unlink) := by
  unfold waitTest
  split
  next h => exact .inl ⟨h, rfl⟩
  next h => exact .inr ⟨Nat.le_of_not_lt h, rfl⟩

/-- The parent forks the next child, or starts to wait. -/
theorem forkTest_cases (n k : ℕ) :
    (k < n ∧ forkTest n k = .fork k) ∨ (n ≤ k ∧ forkTest n k = waitTest n 0) := by
  unfold forkTest
  split
  next h => exact .inl ⟨h, rfl⟩
  next h => exact .inr ⟨Nat.le_of_not_lt h, rfl⟩

/-- A parent that waits has forked all children. -/
theorem forked_waitTest (n k : ℕ) : (waitTest n k).forked n = n := by
  obtain ⟨-, h⟩ | ⟨-, h⟩ := waitTest_cases n k <;> rw [h] <;> rfl

theorem waited_waitTest {n k : ℕ} (hk : k ≤ n) : (waitTest n k).waited n = k := by
  obtain ⟨-, h⟩ | ⟨hle, h⟩ := waitTest_cases n k
  · rw [h]
    rfl
  · rw [h]
    exact le_antisymm hle hk

theorem forked_forkTest {n k : ℕ} (hk : k ≤ n) : (forkTest n k).forked n = k := by
  obtain ⟨-, h⟩ | ⟨hle, h⟩ := forkTest_cases n k
  · rw [h]
    rfl
  · rw [h, forked_waitTest]
    exact le_antisymm hle hk

theorem waited_forkTest (n k : ℕ) : (forkTest n k).waited n = 0 := by
  obtain ⟨-, h⟩ | ⟨-, h⟩ := forkTest_cases n k
  · rw [h]
    rfl
  · rw [h, waited_waitTest (Nat.zero_le n)]

/-- The loop that waits stays in range. -/
theorem lt_of_waitTest {n j k : ℕ} (h : waitTest n j = .fork k ∨ waitTest n j = .wait k) :
    k < n := by
  obtain ⟨hlt, hj⟩ | ⟨-, hj⟩ := waitTest_cases n j <;> simp_all

/-- The loop that forks stays in range. -/
theorem lt_of_forkTest {n j k : ℕ} (h : forkTest n j = .fork k ∨ forkTest n j = .wait k) :
    k < n := by
  obtain ⟨hlt, hj⟩ | ⟨-, hj⟩ := forkTest_cases n j
  · simp_all
  · rw [hj] at h
    exact lt_of_waitTest h

/-- The cases of a step of the parent. -/
theorem parentStep_cases (hs : parentStep s = some s') :
    (∃ k, ∃ h : k < n, s.parent = .fork k ∧ s' = { s with
      parent := forkTest n (k + 1), child := Function.update s.child ⟨k, h⟩ .lock }) ∨
    (∃ k, ∃ h : k < n, s.parent = .wait k ∧ s.child ⟨k, h⟩ = .exited ∧
      s' = { s with parent := waitTest n (k + 1) }) ∨
    (s.parent = .unlink ∧ s' = { s with parent := .returned }) := by
  unfold parentStep at hs
  split at hs
  next k hpc =>
    split at hs
    next h => exact .inl ⟨k, h, hpc, (Option.some.inj hs).symm⟩
    next => cases hs
  next k hpc =>
    simp only [Option.ite_none_right_eq_some, Option.some.injEq] at hs
    obtain ⟨⟨h, hexited⟩, hs⟩ := hs
    exact .inr (.inl ⟨k, h, hpc, hexited, hs.symm⟩)
  next hpc => exact .inr (.inr ⟨hpc, (Option.some.inj hs).symm⟩)
  next => cases hs

/-- The cases of a step of a child. -/
theorem childStep_cases (hs : childStep jobs s i = some s') :
    (s.child i = .lock ∧ RangeLock.Grantable s.locks i (jobs i).range ∧ s' = { s with
      child := Function.update s.child i (writeTest (jobs i) 0)
      locks := RangeLock.acquire s.locks i (jobs i).range }) ∨
    (∃ done, s.child i = .write done ∧ s' = { s with
      child := Function.update s.child i (writeTest (jobs i) (done + 1))
      content := Function.update s.content ((jobs i).range.start + done)
        ((jobs i).text.getD done 0) }) ∨
    (s.child i = .print ∧ s' = { s with
      child := Function.update s.child i .exit, printed := s.printed ++ [i] }) ∨
    (s.child i = .exit ∧ s' = { s with
      child := Function.update s.child i .exited
      locks := RangeLock.release s.locks i }) := by
  unfold childStep at hs
  split at hs
  next hpc =>
    simp only [Option.ite_none_right_eq_some, Option.some.injEq] at hs
    exact .inl ⟨hpc, hs.1, hs.2.symm⟩
  next done hpc => exact .inr (.inl ⟨done, hpc, (Option.some.inj hs).symm⟩)
  next hpc => exact .inr (.inr (.inl ⟨hpc, (Option.some.inj hs).symm⟩))
  next hpc => exact .inr (.inr (.inr ⟨hpc, (Option.some.inj hs).symm⟩))
  next => cases hs
  next => cases hs

theorem inv_init (jobs : Fin n → Job) : Inv jobs (init n) where
  child i := ⟨rfl, by simp [init], by simp [init]⟩
  exclusive := by
    rintro i j - r hr
    cases hr
  unborn_iff i := by simp [init, forked_forkTest (Nat.zero_le n)]
  exited_of_waited i h := by simp [init, waited_forkTest] at h
  parent_lt k h := lt_of_forkTest h
  nodup_printed := List.nodup_nil

/-- The parent forks and reaps, and does not touch the file. -/
theorem Inv.parentStep (h : Inv jobs s) (hs : parentStep s = some s') : Inv jobs s' := by
  obtain ⟨hchild, hexcl, hunborn, hexited, -, hnodup⟩ := h
  obtain ⟨k, hk, hpc, rfl⟩ | ⟨k, hk, hpc, hk', rfl⟩ | ⟨hpc, rfl⟩ := parentStep_cases hs
  · rw [hpc] at hunborn
    -- the new child was unborn and has neither a lock nor a line
    have hnew : s.child ⟨k, hk⟩ = .unborn := (hunborn ⟨k, hk⟩).mpr (le_refl k)
    refine ⟨?_, hexcl, fun i => ?_, fun i hi => ?_, fun _ => lt_of_forkTest, hnodup⟩
    · refine (Function.forall_update_iff s.child fun i pc =>
        ChildInv (jobs i) (s.locks i) (i ∈ s.printed) pc).mpr ⟨?_, fun i _ => hchild i⟩
      obtain ⟨hlock, -, hprinted⟩ := hchild ⟨k, hk⟩
      rw [hnew] at hlock hprinted
      exact ⟨hlock, by simp, by simpa using hprinted⟩
    · simp only [forked_forkTest (Nat.succ_le_of_lt hk), Function.update_apply]
      split
      next heq => simp [heq]
      next hne =>
        have hval : i.val ≠ k := fun h => hne (Fin.ext h)
        rw [hunborn i, ParentPc.forked]
        omega
    · simp [waited_forkTest] at hi
  · rw [hpc] at hunborn hexited
    refine ⟨hchild, hexcl, fun i => ?_, fun i hi => ?_, fun _ => lt_of_waitTest, hnodup⟩
    · simp only [forked_waitTest]
      exact hunborn i
    · simp only [waited_waitTest (Nat.succ_le_of_lt hk)] at hi
      obtain hlt | heq := Nat.lt_succ_iff_lt_or_eq.mp hi
      · exact hexited i hlt
      · obtain rfl : i = ⟨k, hk⟩ := Fin.ext heq
        exact hk'
  · rw [hpc] at hunborn hexited
    exact ⟨hchild, hexcl, hunborn, hexited, by simp, hnodup⟩

/-- A child that is running moves. The parent does not notice, so what is left to show is about the
child, its lock and its line. -/
theorem Inv.of_child {pc : ChildPc} (h : Inv jobs s) (hborn : s.child i ≠ .unborn)
    (hrunning : s.child i ≠ .exited) (hpc : pc ≠ .unborn)
    (hs' : s'.parent = s.parent ∧ s'.child = Function.update s.child i pc)
    (hothers : ∀ j, j ≠ i → s'.locks j = s.locks j ∧ (j ∈ s'.printed ↔ j ∈ s.printed))
    (hi : ChildInv (jobs i) (s'.locks i) (i ∈ s'.printed) pc)
    (hexcl : RangeLock.Exclusive s'.locks) (hnodup : s'.printed.Nodup) : Inv jobs s' := by
  obtain ⟨hparent, hchild⟩ := hs'
  refine ⟨?_, hexcl, fun j => ?_, fun j hj => ?_, fun k => hparent ▸ h.parent_lt k, hnodup⟩
  · rw [hchild]
    refine (Function.forall_update_iff s.child fun j pc =>
      ChildInv (jobs j) (s'.locks j) (j ∈ s'.printed) pc).mpr ⟨hi, fun j hj => ?_⟩
    rw [(hothers j hj).1, (hothers j hj).2]
    exact h.child j
  · have hj := h.unborn_iff j
    rw [hchild, hparent, Function.update_apply]
    split <;> simp_all
  · rw [hparent] at hj
    have hexited := h.exited_of_waited j hj
    have hne : j ≠ i := by
      rintro rfl
      exact hrunning hexited
    rw [hchild, Function.update_of_ne hne, hexited]

/-- A child keeps its lock until it has printed. -/
theorem holds_writeTest (job : Job) (done : ℕ) : (writeTest job done).Holds := by
  obtain ⟨-, h⟩ | ⟨-, h⟩ := writeTest_cases job done <;> rw [h] <;> trivial

/-- A child that is writing has its lock and no line. -/
theorem childInv_writeTest (job : Job) (done : ℕ) {printed : Prop} (hprinted : ¬printed) :
    ChildInv job (some job.range) printed (writeTest job done) := by
  refine ⟨(if_pos (holds_writeTest job done)).symm, ?_, ?_⟩ <;>
    obtain ⟨hlt, h⟩ | ⟨-, h⟩ := writeTest_cases job done <;> simp_all

theorem writeTest_ne_unborn (job : Job) (done : ℕ) : writeTest job done ≠ .unborn := by
  obtain ⟨-, h⟩ | ⟨-, h⟩ := writeTest_cases job done <;> simp [h]

/-- A child gets a lock only where no other child has one, and writes only while it holds it. -/
theorem Inv.childStep (h : Inv jobs s) (hs : childStep jobs s i = some s') : Inv jobs s' := by
  obtain ⟨hlock, -, hprinted⟩ := h.child i
  obtain ⟨hpc, hgrant, rfl⟩ | ⟨done, hpc, rfl⟩ | ⟨hpc, rfl⟩ | ⟨hpc, rfl⟩ := childStep_cases hs
  · rw [hpc] at hprinted
    refine h.of_child (by simp [hpc]) (by simp [hpc]) (writeTest_ne_unborn _ _) ⟨rfl, rfl⟩ ?_ ?_
      (h.exclusive.acquire hgrant) h.nodup_printed
    · exact fun j hj => ⟨Function.update_of_ne hj .., Iff.rfl⟩
    · simp only [RangeLock.acquire, Function.update_self]
      exact childInv_writeTest _ _ (by simpa using hprinted)
  · rw [hpc] at hlock hprinted
    refine h.of_child (by simp [hpc]) (by simp [hpc]) (writeTest_ne_unborn _ _) ⟨rfl, rfl⟩ ?_ ?_
      h.exclusive h.nodup_printed
    · exact fun j hj => ⟨rfl, Iff.rfl⟩
    · rw [hlock]
      exact childInv_writeTest _ _ (by simpa using hprinted)
  · rw [hpc] at hlock hprinted
    have hnot : i ∉ s.printed := by simpa using hprinted
    refine h.of_child (by simp [hpc]) (by simp [hpc]) (by simp) ⟨rfl, rfl⟩ ?_ ?_ h.exclusive ?_
    · exact fun j hj => ⟨rfl, by simp [hj]⟩
    · exact ⟨hlock, by simp, by simp⟩
    · exact (List.perm_append_singleton i s.printed).nodup_iff.mpr
        (List.nodup_cons.mpr ⟨hnot, h.nodup_printed⟩)
  · rw [hpc] at hprinted
    refine h.of_child (by simp [hpc]) (by simp [hpc]) (by simp) ⟨rfl, rfl⟩ ?_ ?_
      h.exclusive.release h.nodup_printed
    · exact fun j hj => ⟨Function.update_of_ne hj .., Iff.rfl⟩
    · exact ⟨Function.update_self .., by simp, by simpa using hprinted⟩

/-- The invariant holds along every run. -/
theorem inv_of_reachable (h : (system jobs).Reachable s) : Inv jobs s := by
  refine h.invariant (inv_init jobs) fun s a s' hinv hstep => ?_
  cases a with
  | parent => exact hinv.parentStep hstep
  | child i => exact hinv.childStep hstep

/-- Two children that have their locks cannot reach the same byte. -/
theorem Inv.eq_of_contains {j : Fin n} {p : ℕ} (h : Inv jobs s) (hi : (s.child i).Holds)
    (hj : (s.child j).Holds) (hpi : (jobs i).range.Contains p)
    (hpj : (jobs j).range.Contains p) : i = j := by
  by_contra hne
  have hlock : s.locks i = some (jobs i).range := by rw [(h.child i).lock_eq, if_pos hi]
  have hlock' : s.locks j = some (jobs j).range := by rw [(h.child j).lock_eq, if_pos hj]
  exact h.exclusive i j hne _ hlock _ hlock' (ByteRange.overlaps_of_contains hpi hpj)

end Steps

/-! ## Refinement -/

/-- The byte that a child is still to store at `p` under the lock that it has. -/
def ChildPc.pending (job : Job) (p : ℕ) : ChildPc → Option UInt8
  | .write done => job.byteFrom done p
  | .unborn | .lock | .print | .exit | .exited => none

/-- The child has been granted its lock. -/
def ChildPc.granted : ChildPc → Bool
  | .unborn | .lock => false
  | .write _ | .print | .exit | .exited => true

section Refinement

variable {n : ℕ} {jobs : Fin n → Job} {s s' : State n} {i : Fin n} {p : ℕ}

/-- The file as it will be when those that have locks have finished their writes. -/
def settled (jobs : Fin n → Job) (s : State n) (p : ℕ) : UInt8 :=
  ((List.finRange n).findSome? fun i => (s.child i).pending (jobs i) p).getD (s.content p)

/-- A byte is still to be written only by a child that holds a lock on it. -/
theorem holds_of_pending {job : Job} {pc : ChildPc} {b : UInt8}
    (h : pc.pending job p = some b) : pc.Holds ∧ job.range.Contains p := by
  cases pc with
  | write done => exact ⟨trivial, contains_of_byteFrom h⟩
  | unborn | lock | print | exit | exited => cases h

/-- What is left to write after `done` bytes. -/
@[simp]
theorem pending_writeTest (job : Job) (done p : ℕ) :
    (writeTest job done).pending job p = job.byteFrom done p := by
  obtain ⟨-, h⟩ | ⟨hle, h⟩ := writeTest_cases job done
  · rw [h]
    rfl
  · rw [h, byteFrom_of_length_le hle]
    rfl

/-- Where nobody has anything left to store, the file has its final content. -/
theorem settled_of_none (h : ∀ i, (s.child i).pending (jobs i) p = none) :
    settled jobs s p = s.content p := by
  rw [settled, List.findSome?_eq_none_iff.mpr fun i _ => h i, Option.getD_none]

/-- A byte has one child at most that is to store it. -/
theorem Inv.settled_of_some {b : UInt8} (h : Inv jobs s)
    (hb : (s.child i).pending (jobs i) p = some b) : settled jobs s p = b := by
  have hsome : ((List.finRange n).findSome? fun i => (s.child i).pending (jobs i) p).isSome := by
    rw [List.findSome?_isSome_iff]
    exact ⟨i, List.mem_finRange i, by rw [hb]; rfl⟩
  obtain ⟨b', hb'⟩ := Option.isSome_iff_exists.mp hsome
  obtain ⟨j, -, hj⟩ := List.exists_of_findSome?_eq_some hb'
  obtain ⟨hholds, hcontains⟩ := holds_of_pending hb
  obtain ⟨hholds', hcontains'⟩ := holds_of_pending hj
  obtain rfl := h.eq_of_contains hholds hholds' hcontains hcontains'
  rw [settled, hb', Option.getD_some]
  exact Option.some.inj (hj.symm.trans hb)

/-- What the writers will leave at an offset depends on what they have still to write and on the
file. -/
theorem settled_congr
    (hpending : ∀ j, (s'.child j).pending (jobs j) p = (s.child j).pending (jobs j) p)
    (hcontent : s'.content p = s.content p) : settled jobs s' p = settled jobs s p := by
  simp only [settled, hpending, hcontent]

/-- A step of child `i` that leaves its pending bytes alone leaves those of all children alone. -/
theorem pending_update {pc : ChildPc}
    (hpc : pc.pending (jobs i) p = (s.child i).pending (jobs i) p) (j : Fin n) :
    (Function.update s.child i pc j).pending (jobs j) p = (s.child j).pending (jobs j) p := by
  rw [Function.update_apply]
  split
  next h => rw [h, hpc]
  next => rfl

/-- What the children have done to the file, if the locked parts are not looked at. -/
def writtenFile (jobs : Fin n → Job) (s : State n) : WrittenFile n where
  content := settled jobs s
  written := fun i => (s.child i).granted

/-- A child writes at the moment at which it is granted its lock. -/
def writes (s : State n) : Action n → List (Fin n)
  | .parent => []
  | .child i => if s.child i = .lock then [i] else []

/-- Steps that grant no lock and change no final content leave the abstract file alone. -/
theorem writtenFile_congr (hcontent : ∀ p, settled jobs s' p = settled jobs s p)
    (hgranted : ∀ j, (s'.child j).granted = (s.child j).granted) :
    writtenFile jobs s' = writtenFile jobs s := by
  simp only [writtenFile, funext hcontent, hgranted]

/-- A child that moves without being granted a lock changes nobody's grant. -/
theorem granted_update {pc : ChildPc} (hpc : pc.granted = (s.child i).granted) (j : Fin n) :
    (Function.update s.child i pc j).granted = (s.child j).granted := by
  rw [Function.update_apply]
  split
  next h => rw [h, hpc]
  next => rfl

/-- A child that writes has been granted its lock. -/
@[simp]
theorem granted_writeTest (job : Job) (done : ℕ) : (writeTest job done).granted = true := by
  obtain ⟨-, h⟩ | ⟨-, h⟩ := writeTest_cases job done <;> rw [h] <;> rfl

/-- The steps of the parent are not visible in the abstract file. -/
theorem writtenFile_parentStep (h : Inv jobs s) (hs : parentStep s = some s') :
    writtenFile jobs s' = writtenFile jobs s := by
  obtain ⟨k, hk, hpc, rfl⟩ | ⟨k, hk, -, -, rfl⟩ | ⟨-, rfl⟩ := parentStep_cases hs
  · have hnew : s.child ⟨k, hk⟩ = .unborn := by
      rw [h.unborn_iff, hpc]
      exact le_refl k
    refine writtenFile_congr (fun p => settled_congr (pending_update ?_) rfl) (granted_update ?_)
    · rw [hnew]
      rfl
    · rw [hnew]
      rfl
  · rfl
  · rfl

/-- The grant of the lock is the whole write. -/
theorem writtenFile_lock (h : Inv jobs s) (hs : childStep jobs s i = some s')
    (hpc : s.child i = .lock) :
    (wholeWrites jobs).step (writtenFile jobs s) i = some (writtenFile jobs s') := by
  have hinv' := h.childStep hs
  obtain ⟨-, hgrant, rfl⟩ | ⟨done, hpc', -⟩ | ⟨hpc', -⟩ | ⟨hpc', -⟩ := childStep_cases hs
  · have hnot : (writtenFile jobs s).written i = false := by
      simp only [writtenFile, hpc, ChildPc.granted]
    simp only [wholeWrites, hnot, Bool.false_eq_true, ↓reduceIte, Option.some.injEq]
    refine WrittenFile.mk.injEq .. ▸ ⟨funext fun p => ?_, funext fun j => ?_⟩
    · rw [Job.overlay]
      cases hb : (jobs i).byteFrom 0 p with
      | some b =>
        rw [Option.getD_some]
        refine (hinv'.settled_of_some (i := i) ?_).symm
        simp only [Function.update_self, pending_writeTest, hb]
      | none =>
        rw [Option.getD_none]
        refine Eq.symm (settled_congr (pending_update ?_) rfl)
        rw [pending_writeTest, hb, hpc]
        rfl
    · simp only [writtenFile, Function.update_apply]
      split
      next => rw [granted_writeTest]
      next => rfl
  all_goals simp [hpc] at hpc'

/-- The stores go where the bytes are pending. -/
theorem writtenFile_childStep (h : Inv jobs s) (hs : childStep jobs s i = some s')
    (hpc : s.child i ≠ .lock) : writtenFile jobs s' = writtenFile jobs s := by
  obtain ⟨hpc', -, -⟩ | ⟨done, hpc', rfl⟩ | ⟨hpc', rfl⟩ | ⟨hpc', rfl⟩ := childStep_cases hs
  · exact absurd hpc' hpc
  · have hlt := (h.child i).write_lt done hpc'
    refine writtenFile_congr (fun p => ?_) (granted_update (by rw [granted_writeTest, hpc']; rfl))
    by_cases hp : p = (jobs i).range.start + done
    · -- the byte is pending before the step and in the file after it
      subst hp
      have hbefore : (s.child i).pending (jobs i) ((jobs i).range.start + done) =
          some ((jobs i).text.getD done 0) := by
        rw [hpc']
        exact byteFrom_self hlt
      rw [h.settled_of_some hbefore, settled_of_none fun j => ?_]
      · exact Function.update_self ..
      · simp only [Function.update_apply]
        split
        next hj => rw [hj, pending_writeTest, byteFrom_succ_self]
        next hj =>
          -- another child that had this byte to store would have it locked, too
          by_contra hsome
          obtain ⟨b, hb⟩ := Option.ne_none_iff_exists'.mp hsome
          obtain ⟨hholds, hcontains⟩ := holds_of_pending hb
          obtain ⟨hholds', hcontains'⟩ := holds_of_pending hbefore
          exact hj (h.eq_of_contains hholds hholds' hcontains hcontains')
    · refine settled_congr (pending_update ?_) (Function.update_of_ne hp ..)
      rw [pending_writeTest, byteFrom_succ hp, hpc']
      rfl
  all_goals
    refine writtenFile_congr (fun p => settled_congr (pending_update ?_) rfl) (granted_update ?_)
    · rw [hpc']
      rfl
    · rw [hpc']
      rfl

/-- The program refines the file with whole writes. -/
def refinement (jobs : Fin n → Job) : Refinement (system jobs) (wholeWrites jobs) where
  abs := writtenFile jobs
  event := writes
  abs_init := by
    refine WrittenFile.mk.injEq .. ▸ ⟨funext fun p => ?_, rfl⟩
    exact settled_of_none fun i => rfl
  run_event := by
    intro s a s' hreach hstep
    have hinv := inv_of_reachable hreach
    cases a with
    | parent => exact congrArg some (writtenFile_parentStep hinv hstep).symm
    | child i =>
      by_cases hpc : s.child i = .lock
      · rw [writes, if_pos hpc, run_cons (writtenFile_lock hinv hstep hpc), run_nil]
      · rw [writes, if_neg hpc, run_nil, writtenFile_childStep hinv hstep hpc]

end Refinement

/-! ## The file at the end -/

section Results

variable {n : ℕ} {jobs : Fin n → Job} {s s' : State n} {i : Fin n}

/-- A parent that returns has reaped all children. -/
theorem Inv.exited_of_returned (h : Inv jobs s) (hreturned : s.parent = .returned) (i : Fin n) :
    s.child i = .exited := by
  refine h.exited_of_waited i ?_
  rw [hreturned]
  exact i.isLt

/-- A byte that nobody has locked has no write pending. -/
theorem Inv.settled_eq {p : ℕ} (h : Inv jobs s)
    (hp : ∀ i, ∀ r ∈ s.locks i, ¬r.Contains p) : settled jobs s p = s.content p := by
  refine settled_of_none fun i => ?_
  by_contra hsome
  obtain ⟨b, hb⟩ := Option.ne_none_iff_exists'.mp hsome
  obtain ⟨hholds, hcontains⟩ := holds_of_pending hb
  exact hp i (jobs i).range (by rw [(h.child i).lock_eq, if_pos hholds]; rfl) hcontains

/-- The children that have been granted their locks have written one after the other, as far as the
bytes are not locked. -/
theorem exists_order_of_reachable (h : (system jobs).Reachable s) :
    ∃ order : List (Fin n), order.Nodup ∧ (∀ i, i ∈ order ↔ (s.child i).granted = true) ∧
      ∀ p, (∀ i, ∀ r ∈ s.locks i, ¬r.Contains p) → s.content p = wholeTexts jobs order p := by
  obtain ⟨order, hnodup, hmem, hcontent⟩ := exists_order ((refinement jobs).reachable_abs h)
  refine ⟨order, hnodup, hmem, fun p hp => ?_⟩
  rw [← (inv_of_reachable h).settled_eq hp, ← hcontent]
  rfl

/-- When the parent has returned nothing is locked, and everybody has written. -/
theorem content_of_returned {order : List (Fin n)} (h : (system jobs).Reachable s)
    (hreturned : s.parent = .returned)
    (hmem : ∀ i, i ∈ order ↔ (s.child i).granted = true)
    (hcontent : ∀ p, (∀ i, ∀ r ∈ s.locks i, ¬r.Contains p) →
      s.content p = wholeTexts jobs order p) :
    (∀ i, i ∈ order) ∧ s.content = wholeTexts jobs order := by
  have hexited := (inv_of_reachable h).exited_of_returned hreturned
  refine ⟨fun i => (hmem i).mpr (by rw [hexited i]; rfl), funext fun p => hcontent p ?_⟩
  intro i r hr
  rw [((inv_of_reachable h).child i).lock_eq, hexited i] at hr
  cases hr

/-- At any time the children that have been granted their locks have written one after the other,
each its whole text, as far as the bytes are not locked. In the end all have, the whole file is as
they have left it, and each has printed its line once. -/
theorem writes_serializable (h : (system jobs).Reachable s) :
    ∃ order : List (Fin n), order.Nodup ∧
      (∀ i, i ∈ order ↔ (s.child i).granted = true) ∧
      (∀ p, (∀ i, ∀ r ∈ s.locks i, ¬r.Contains p) → s.content p = wholeTexts jobs order p) ∧
      (s.parent = .returned →
        order.Perm (List.finRange n) ∧ s.content = wholeTexts jobs order ∧
          (s.output jobs).Perm ((List.finRange n).map fun i => (jobs i).message)) := by
  have hinv := inv_of_reachable h
  obtain ⟨order, hnodup, hmem, hcontent⟩ := exists_order_of_reachable h
  refine ⟨order, hnodup, hmem, hcontent, fun hreturned => ?_⟩
  obtain ⟨hall, hfile⟩ := content_of_returned h hreturned hmem hcontent
  refine ⟨hnodup.perm_finRange hall, hfile, (hinv.nodup_printed.perm_finRange fun i => ?_).map _⟩
  exact (hinv.child i).printed_iff.mpr (.inr (hinv.exited_of_returned hreturned i))

/-- With disjoint ranges a lock is granted at once, and in the end every text is in the file, with
zeros around it. -/
theorem disjoint_ranges
    (hdisjoint : ∀ i j, i ≠ j → ¬(jobs i).range.Overlaps (jobs j).range)
    (h : (system jobs).Reachable s) :
    (∀ i, s.child i = .lock → ((system jobs).step s (.child i)).isSome) ∧
      (s.parent = .returned →
        (∀ i k, k < (jobs i).text.length →
          some (s.content ((jobs i).range.start + k)) = (jobs i).text[k]?) ∧
        ∀ p, (∀ i, p < (jobs i).range.start ∨
          (jobs i).range.start + (jobs i).text.length ≤ p) → s.content p = 0) := by
  have hinv := inv_of_reachable h
  refine ⟨fun i hi => ?_, fun hreturned => ?_⟩
  -- another child has a lock on its own range only, which does not overlap
  · have hgrant : RangeLock.Grantable s.locks i (jobs i).range := by
      intro j hj r hr
      rw [(hinv.child j).lock_eq] at hr
      split at hr
      next =>
        obtain rfl := Option.some.inj hr
        exact hdisjoint i j hj.symm
      next => cases hr
    simp [system, childStep, hi, hgrant]
  · obtain ⟨order, -, hmem, hcontent⟩ := exists_order_of_reachable h
    obtain ⟨hall, hfile⟩ := content_of_returned h hreturned hmem hcontent
    rw [hfile]
    refine ⟨fun i k hk => ?_, fun p hp => ?_⟩
    -- at a byte of a text no other text has a byte, so the order does not matter
    · have hb : (jobs i).byteFrom 0 ((jobs i).range.start + k) = some ((jobs i).text.getD k 0) := by
        simp [Job.byteFrom, hk]
      have hothers : ∀ j, j ≠ i → (jobs j).byteFrom 0 ((jobs i).range.start + k) = none := by
        intro j hj
        by_contra hsome
        obtain ⟨b, hb'⟩ := Option.ne_none_iff_exists'.mp hsome
        exact hdisjoint j i hj (ByteRange.overlaps_of_contains (contains_of_byteFrom hb')
          (contains_of_byteFrom hb))
      rw [wholeTexts, foldl_overlay_of_mem (hall i) hb hothers]
      simp [hk]
    -- outside the texts the file is what `ftruncate` has made of it
    · refine foldl_overlay_of_none fun i _ => ?_
      unfold Job.byteFrom
      split
      next hle =>
        have := hp i
        exact List.getElem?_eq_none (by omega)
      next => rfl

end Results

/-- The bytes of a text. -/
def bytes (text : List Char) : List UInt8 :=
  text.map fun c => UInt8.ofNat c.toNat

/-- The child `left`. -/
def left : Job where
  range := { start := 0, len := 32, len_pos := by decide }
  text := bytes ['l', 'e', 'f', 't', '-', 'r', 'a', 'n', 'g', 'e', '\n']
  message := "child locked bytes 0..31\n"
  fits := by decide

/-- The child `right`. -/
def right : Job where
  range := { start := 64, len := 32, len_pos := by decide }
  text := bytes ['r', 'i', 'g', 'h', 't', '-', 'r', 'a', 'n', 'g', 'e', '\n']
  message := "child locked bytes 64..95\n"
  fits := by decide

/-- The children of `main`. -/
def children (i : Fin 2) : Job :=
  if i.val = 0 then left else right

/-- `main`, with the children taking turns. -/
theorem exists_reachable_returned :
    ∃ s, (system children).Reachable s ∧ s.parent = .returned := by
  have hrun : ((system children).run (init 2)
      ([.parent, .parent] ++ (List.replicate 14 [.child 0, .child 1]).flatten ++
        [.child 1, .parent, .parent, .parent])).map (·.parent) = some .returned := by decide
  obtain ⟨s, hs, hparent⟩ := Option.map_eq_some_iff.mp hrun
  exact ⟨s, reachable_of_run hs, hparent⟩

/-- When `main` returns, the file is as if its children had written one after the other. -/
theorem writes_serializable_main :
    ∃ s, (system children).Reachable s ∧ ∃ order : List (Fin 2),
      order.Perm [0, 1] ∧ s.content = wholeTexts children order := by
  obtain ⟨s, hs, hreturned⟩ := exists_reachable_returned
  obtain ⟨order, -, -, -, hend⟩ := writes_serializable hs
  obtain ⟨hperm, hcontent, -⟩ := hend hreturned
  exact ⟨s, hs, order, hperm, hcontent⟩

/-- In `main` the second text starts at byte 64, and byte 40, which is in neither range, stays 0. -/
theorem disjoint_ranges_main :
    ∃ s, (system children).Reachable s ∧ s.parent = .returned ∧
      s.content 64 = UInt8.ofNat 'r'.toNat ∧ s.content 40 = 0 := by
  obtain ⟨s, hs, hreturned⟩ := exists_reachable_returned
  obtain ⟨htexts, hzeros⟩ := (disjoint_ranges (by decide) hs).2 hreturned
  exact ⟨s, hs, hreturned, Option.some.inj (htexts 1 0 (by decide)), hzeros 40 (by decide)⟩

/-! ## Termination -/

/-- The steps that a child will still make. -/
def ChildPc.rank (job : Job) : ChildPc → ℕ
  | .unborn | .lock => job.text.length + 3
  | .write done => job.text.length - done + 2
  | .print => 2
  | .exit => 1
  | .exited => 0

/-- The steps that the parent will still make. -/
def ParentPc.rank (n : ℕ) : ParentPc → ℕ
  | .fork k => n - k + (n + 1)
  | .wait k => n - k + 1
  | .unlink => 1
  | .returned => 0

section Termination

variable {n : ℕ} {jobs : Fin n → Job} {s s' : State n} {a : Action n} {i : Fin n}

def State.rank (jobs : Fin n → Job) (s : State n) : ℕ :=
  s.parent.rank n + ∑ i, (s.child i).rank (jobs i)

/-- The steps of a child that has written `done` bytes. -/
theorem rank_writeTest (job : Job) (done : ℕ) :
    (writeTest job done).rank job = job.text.length - done + 2 := by
  obtain ⟨-, h⟩ | ⟨hle, h⟩ := writeTest_cases job done
  · rw [h]
    rfl
  · rw [h, Nat.sub_eq_zero_of_le hle]
    rfl

/-- The steps of a parent that has waited for `k` children. -/
theorem rank_waitTest (n k : ℕ) : (waitTest n k).rank n = n - k + 1 := by
  obtain ⟨-, h⟩ | ⟨hle, h⟩ := waitTest_cases n k
  · rw [h]
    rfl
  · rw [h, Nat.sub_eq_zero_of_le hle]
    rfl

/-- The steps of a parent that has forked `k` children. -/
theorem rank_forkTest (n k : ℕ) : (forkTest n k).rank n = n - k + (n + 1) := by
  obtain ⟨-, h⟩ | ⟨hle, h⟩ := forkTest_cases n k
  · rw [h]
    rfl
  · rw [h, rank_waitTest, Nat.sub_eq_zero_of_le hle, Nat.sub_zero, Nat.zero_add]

/-- When one child moves, the sum changes by its own rank. -/
theorem sum_rank_update (jobs : Fin n → Job) (s : State n) (i : Fin n) (pc : ChildPc) :
    ∑ j, (Function.update s.child i pc j).rank (jobs j) + (s.child i).rank (jobs i) =
      ∑ j, (s.child j).rank (jobs j) + pc.rank (jobs i) := by
  have hupdate : ∀ j, (Function.update s.child i pc j).rank (jobs j) =
      Function.update (fun j => (s.child j).rank (jobs j)) i (pc.rank (jobs i)) j :=
    fun j => Function.apply_update (fun j pc => pc.rank (jobs j)) s.child i pc j
  simp only [hupdate]
  exact Finset.sum_update_add id _ i _

/-- Every step is one of those that were to come. -/
theorem rank_of_step (h : (system jobs).Reachable s) (hs : (system jobs).step s a = some s') :
    s'.rank jobs + 1 = s.rank jobs := by
  have hinv := inv_of_reachable h
  cases a with
  | parent =>
    obtain ⟨k, hk, hpc, rfl⟩ | ⟨k, hk, hpc, -, rfl⟩ | ⟨hpc, rfl⟩ := parentStep_cases hs
    · have hnew : s.child ⟨k, hk⟩ = .unborn := by
        rw [hinv.unborn_iff, hpc]
        exact le_refl k
      have hsum := sum_rank_update jobs s ⟨k, hk⟩ .lock
      rw [hnew] at hsum
      simp only [State.rank, rank_forkTest]
      simp only [hpc, ParentPc.rank, ChildPc.rank] at hsum ⊢
      omega
    · simp only [State.rank, rank_waitTest]
      simp only [hpc, ParentPc.rank]
      omega
    · simp only [State.rank, hpc, ParentPc.rank]
      omega
  | child i =>
    obtain ⟨hpc, -, rfl⟩ | ⟨done, hpc, rfl⟩ | ⟨hpc, rfl⟩ | ⟨hpc, rfl⟩ := childStep_cases hs
    · have hsum := sum_rank_update jobs s i (writeTest (jobs i) 0)
      rw [hpc, rank_writeTest] at hsum
      simp only [State.rank, ChildPc.rank] at hsum ⊢
      omega
    · have hlt := (hinv.child i).write_lt done hpc
      have hsum := sum_rank_update jobs s i (writeTest (jobs i) (done + 1))
      rw [hpc, rank_writeTest] at hsum
      simp only [State.rank, ChildPc.rank] at hsum ⊢
      omega
    · have hsum := sum_rank_update jobs s i .exit
      rw [hpc] at hsum
      simp only [State.rank, ChildPc.rank] at hsum ⊢
      omega
    · have hsum := sum_rank_update jobs s i .exited
      rw [hpc] at hsum
      simp only [State.rank, ChildPc.rank] at hsum ⊢
      omega

/-- Nothing is left to do exactly when the parent has returned. -/
theorem rank_eq_zero_iff (h : (system jobs).Reachable s) :
    s.rank jobs = 0 ↔ s.parent = .returned := by
  constructor
  · intro hzero
    have hparent : s.parent.rank n = 0 := (Nat.add_eq_zero_iff.mp hzero).1
    cases hpc : s.parent with
    | returned => rfl
    | fork k | wait k | unlink => simp [hpc, ParentPc.rank] at hparent
  · intro hreturned
    have hchild : ∀ i, (s.child i).rank (jobs i) = 0 := fun i => by
      rw [(inv_of_reachable h).exited_of_returned hreturned i]
      rfl
    rw [State.rank, hreturned, Finset.sum_eq_zero fun i _ => hchild i]
    rfl

/-- Somebody who has a lock can go on, so when nobody can, nobody has one. -/
theorem not_holds_of_stuck (hstuck : (system jobs).Stuck s) (i : Fin n) : ¬(s.child i).Holds := by
  intro hholds
  have hnone : childStep jobs s i = none := hstuck (.child i)
  unfold childStep at hnone
  cases hpc : s.child i with
  | write done | print | exit => simp [hpc] at hnone
  | unborn | lock | exited => simp [hpc, ChildPc.Holds] at hholds

/-- No child waits for a lock for ever, so that the parent gets to its end. -/
theorem returned_of_stuck (h : (system jobs).Reachable s) (hstuck : (system jobs).Stuck s) :
    s.parent = .returned := by
  have hinv := inv_of_reachable h
  have hfree : ∀ i, s.locks i = none := fun i => by
    rw [(hinv.child i).lock_eq, if_neg (not_holds_of_stuck hstuck i)]
  -- so no child waits for a lock
  have hchild : ∀ i, s.child i = .unborn ∨ s.child i = .exited := by
    intro i
    have hholds := not_holds_of_stuck hstuck i
    cases hpc : s.child i with
    | unborn => exact .inl rfl
    | exited => exact .inr rfl
    | write done | print | exit => simp [hpc, ChildPc.Holds] at hholds
    | lock =>
      have hgrant : RangeLock.Grantable s.locks i (jobs i).range := by
        intro j _ r hr
        rw [hfree j] at hr
        cases hr
      have hnone : childStep jobs s i = none := hstuck (.child i)
      simp [childStep, hpc, hgrant] at hnone
  have hnone : parentStep s = none := hstuck .parent
  cases hpc : s.parent with
  | returned => rfl
  | unlink => simp [parentStep, hpc] at hnone
  | fork k =>
    have hk := hinv.parent_lt k (.inl hpc)
    simp [parentStep, hpc, hk] at hnone
  | wait k =>
    have hk := hinv.parent_lt k (.inr hpc)
    -- the child that the parent waits for has been forked
    have hborn : s.child ⟨k, hk⟩ ≠ .unborn := by
      rw [Ne, hinv.unborn_iff, hpc]
      exact Nat.not_le_of_lt hk
    have hexited : s.child ⟨k, hk⟩ = .exited := (hchild ⟨k, hk⟩).resolve_left hborn
    simp [parentStep, hpc, hk, hexited] at hnone

/-- Every run of all processes to their ends takes the same number of steps, and a run that has not
got there can go on: the locks never deadlock, whatever ranges the children lock. -/
theorem locks_terminate (jobs : Fin n → Job) :
    (∀ as s, (system jobs).run (init n) as = some s →
      as.length ≤ 2 * n + 1 + ∑ i, ((jobs i).text.length + 3) ∧
      (as.length = 2 * n + 1 + ∑ i, ((jobs i).text.length + 3) ↔ s.parent = .returned)) ∧
    ∀ s, (system jobs).Reachable s → (system jobs).Stuck s → s.parent = .returned := by
  have hinit : (init n).rank jobs = 2 * n + 1 + ∑ i, ((jobs i).text.length + 3) := by
    simp only [State.rank, init, rank_forkTest, ChildPc.rank]
    omega
  have hends : (system jobs).EndsAfter _ fun s => s.parent = .returned :=
    endsAfter_of_rank (State.rank jobs) hinit (fun s a s' => rank_of_step)
      (fun s h => (rank_eq_zero_iff h).symm) fun s => returned_of_stuck
  exact ⟨fun as s hrun => ⟨hends.length_le as s hrun, (hends.ends_iff as s hrun).symm⟩,
    hends.of_stuck⟩

end Termination

end FcntlByteRangeLocks
