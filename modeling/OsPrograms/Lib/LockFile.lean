import Mathlib.Data.Nat.Notation
import Mathlib.Logic.Function.Basic
import OsPrograms.Lib.RecordLock

/-!
# A file name, its inodes and their locks

A name in a directory refers to at most one inode at a time. `unlink` removes the name and leaves
the inode to those that have it open, so a later `open` with `O_CREAT` makes a new inode. Write
locks belong to a process and an inode, not to the name.

`Preserves o f f'` is what every operation of the owner `o` except `unlink` guarantees to the
others: an existing name goes on referring to its inode, and their locks stay.
-/

/-- What the kernel knows of one file name, for lock owners in `ω`. -/
structure LockFile (ω : Type*) where
  /-- The inode that the name refers to, `none` when the name does not exist. -/
  entry : Option ℕ
  /-- The inode that is created next; those created so far are below it. -/
  next : ℕ
  /-- The owner of the write lock of an inode. -/
  holder : ℕ → Option ω
  /-- The bytes of an inode. -/
  content : ℕ → List Char

namespace LockFile

variable {ω : Type*} [DecidableEq ω]

/-- Nothing is locked, and the name is absent or refers to a file that was left behind. -/
def unlocked (leftover : Option (List Char)) : LockFile ω where
  entry := leftover.map fun _ => 0
  next := if leftover.isSome then 1 else 0
  holder := fun _ => none
  content := fun _ => leftover.getD []

/-- `open` with `O_CREAT`: the inode opened, and the state after it. -/
def openCreate (f : LockFile ω) : ℕ × LockFile ω :=
  match f.entry with
  | some i => (i, f)
  | none =>
    (f.next,
      { f with
        entry := some f.next
        next := f.next + 1
        content := Function.update f.content f.next [] })

/-- `fcntl(F_SETLK)` for a write lock on inode `i`, `none` when it conflicts. -/
def tryLock (f : LockFile ω) (o : ω) (i : ℕ) : Option (LockFile ω) := do
  let holder ← RecordLock.acquire (f.holder i) o
  some { f with holder := Function.update f.holder i holder }

/-- A write of `text` at offset 0, which replaces as many bytes as it has. -/
def write (f : LockFile ω) (i : ℕ) (text : List Char) : LockFile ω :=
  { f with content := Function.update f.content i (text ++ (f.content i).drop text.length) }

/-- The name is removed. -/
def unlink (f : LockFile ω) : LockFile ω :=
  { f with entry := none }

/-- The end of a process, which gives up all its locks. -/
def exit (f : LockFile ω) (o : ω) : LockFile ω :=
  { f with holder := fun i => RecordLock.release (f.holder i) o }

/-- The bytes of the file that the name refers to, none if there is no such file. -/
def text (f : LockFile ω) : List Char :=
  match f.entry with
  | some i => f.content i
  | none => []

/-- From `f` to `f'` an existing name kept its inode and all owners but `o` kept their locks. -/
structure Preserves (o : ω) (f f' : LockFile ω) : Prop where
  entry : ∀ i, f.entry = some i → f'.entry = some i
  holder : ∀ i o', o' ≠ o → f.holder i = some o' → f'.holder i = some o'

variable {f f' : LockFile ω} {o : ω} {i : ℕ}

omit [DecidableEq ω] in
theorem Preserves.refl (o : ω) (f : LockFile ω) : Preserves o f f where
  entry _ h := h
  holder _ _ _ h := h

omit [DecidableEq ω] in
/-- `open` with `O_CREAT` leaves the name referring to the inode it has opened. -/
theorem entry_openCreate (f : LockFile ω) : f.openCreate.2.entry = some f.openCreate.1 := by
  unfold openCreate
  split
  · assumption
  · rfl

omit [DecidableEq ω] in
/-- Opening the file locks nothing. -/
theorem holder_openCreate (f : LockFile ω) : f.openCreate.2.holder = f.holder := by
  unfold openCreate
  split <;> rfl

omit [DecidableEq ω] in
/-- What a reader of the name finds is the content of its inode. -/
theorem text_eq (h : f.entry = some i) : f.text = f.content i := by
  rw [text, h]

omit [DecidableEq ω] in
/-- A file that `open` creates is empty, and one that it finds is left as it is. -/
theorem text_openCreate (f : LockFile ω) : f.openCreate.2.text = f.text := by
  cases h : f.entry with
  | some i => simp [openCreate, h]
  | none => simp [openCreate, text, h]

omit [DecidableEq ω] in
/-- Writing leaves what is beyond the text. -/
theorem content_write (f : LockFile ω) (i : ℕ) (text : List Char) :
    (f.write i text).content i = text ++ (f.content i).drop text.length :=
  Function.update_self ..

omit [DecidableEq ω] in
theorem openCreate_preserves (o : ω) (f : LockFile ω) : Preserves o f f.openCreate.2 := by
  unfold openCreate
  split
  · exact .refl o f
  · next hnone =>
    constructor
    · intro i hi
      rw [hnone] at hi
      cases hi
    · exact fun _ _ _ h => h

/-- A lock is granted if nobody else holds it. -/
theorem tryLock_eq_some_iff :
    f.tryLock o i = some f' ↔ (f.holder i = none ∨ f.holder i = some o) ∧
      f' = { f with holder := Function.update f.holder i (some o) } := by
  simp only [tryLock, Option.bind_eq_bind, Option.bind_eq_some_iff,
    RecordLock.acquire_eq_some_iff, Option.some.injEq]
  constructor
  · rintro ⟨_, ⟨hfree, rfl⟩, rfl⟩
    exact ⟨hfree, rfl⟩
  · rintro ⟨hfree, rfl⟩
    exact ⟨_, ⟨hfree, rfl⟩, rfl⟩

/-- A lock that is granted takes none from others. -/
theorem Preserves.of_tryLock (h : f.tryLock o i = some f') : Preserves o f f' := by
  obtain ⟨hfree, rfl⟩ := tryLock_eq_some_iff.mp h
  refine ⟨fun _ he => he, fun k o' hne hk => ?_⟩
  -- the lock of inode `i` was free or held by `o`, so `o'` holds another inode's
  have hki : k ≠ i := by
    rintro rfl
    rcases hfree with hfree | hfree <;> rw [hfree] at hk <;> cases hk
    exact hne rfl
  show Function.update f.holder i (some o) k = some o'
  rw [Function.update_of_ne hki]
  exact hk

/-- Who holds a lock after `o` has granted itself that of inode `i`. -/
theorem holder_eq_some_iff_of_tryLock (h : f.tryLock o i = some f') (l : ℕ) (o' : ω) :
    f'.holder l = some o' ↔ if l = i then o' = o else f.holder l = some o' := by
  obtain ⟨-, rfl⟩ := tryLock_eq_some_iff.mp h
  simp only [Function.update_apply]
  split
  · rw [Option.some.injEq, eq_comm]
  · rfl

/-- A granted lock was held by nobody else, so the others hold what they held before. -/
theorem holder_eq_some_iff_of_ne (h : f.tryLock o i = some f') {o' : ω} (hne : o' ≠ o) (l : ℕ) :
    f'.holder l = some o' ↔ f.holder l = some o' := by
  obtain ⟨hfree, -⟩ := tryLock_eq_some_iff.mp h
  rw [holder_eq_some_iff_of_tryLock h]
  split
  next heq =>
    rw [heq]
    rcases hfree with hfree | hfree <;> simp [hfree, hne, hne.symm]
  next => rfl

/-- The end of `o` leaves the locks of the others. -/
theorem holder_exit_eq_some_iff {l : ℕ} {o' : ω} :
    (f.exit o).holder l = some o' ↔ f.holder l = some o' ∧ o' ≠ o :=
  RecordLock.release_eq_some_iff

omit [DecidableEq ω] in
theorem write_preserves (o : ω) (f : LockFile ω) (i : ℕ) (text : List Char) :
    Preserves o f (f.write i text) where
  entry _ h := h
  holder _ _ _ h := h

/-- A process that exits takes only its own locks with it. -/
theorem exit_preserves (o : ω) (f : LockFile ω) : Preserves o f (f.exit o) where
  entry _ h := h
  holder i o' hne h := by
    show RecordLock.release (f.holder i) o = some o'
    rw [RecordLock.release, h, if_neg (by simpa using hne)]

end LockFile
