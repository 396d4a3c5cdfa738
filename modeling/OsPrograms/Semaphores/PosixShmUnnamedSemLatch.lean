import Mathlib.Logic.Function.Basic
import OsPrograms.Lib.Printf
import OsPrograms.Lib.Semaphore
import OsPrograms.Lib.Stdio
import OsPrograms.Lib.Termination

/-!
# A latch in shared memory (`posix_shm_unnamed_sem_latch`)

The parent writes a message into shared memory and posts a semaphore; the child waits for the
semaphore and prints the message.

```
child                                           parent
sem_wait(&shared->ready);                       snprintf(shared->message, 64, …);
printf("child observed: %s\n", message);        sem_post(&shared->ready);
fflush(stdout);                                 wait_for_pid(child);
```

Neither `snprintf` nor `printf` is atomic: the one stores and the other loads a byte at a time, and
the child loads until it finds a NUL. The semaphore has to keep the child from a message that is
only partly there. The text is arbitrary here; `snprintf` keeps what fits.

## Main results

- `Inv`: which bytes have been stored, and that the child loads none before all have.
- `latch_outcome`: in every interleaving the child prints the whole message, and both processes end.
-/

namespace PosixShmUnnamedSemLatch

open TransitionSystem

/-- The text that is formatted, and how standard output is buffered. -/
structure Config where
  text : List Char
  buffering : Buffering
  /-- C strings have no NUL inside. -/
  noNul : '\x00' ∉ text

/-- `sizeof(shared->message)` -/
def messageSize : ℕ := 64

namespace Config

variable (c : Config)

/-- The message, as much of it as fits. -/
def message : List Char :=
  (Printf.snprintf messageSize c.text).2

/-- The bytes that `snprintf` stores. -/
def stored : List Char :=
  c.message ++ ['\x00']

/-- The line that the child prints when it has loaded `seen`. -/
def lineOf (seen : List Char) : List Char :=
  "child observed: ".toList ++ seen ++ ['\n']

end Config

/-- The next statement of the parent. -/
inductive Parent
  | fork
  /-- In `snprintf`, before it stores byte `k`. -/
  | snprintf (k : ℕ)
  | semPost
  | waitForPid
  | shmUnlink
  | returned
  deriving DecidableEq, Repr

/-- The next statement of the child. -/
inductive Child
  | unborn
  | semWait
  /-- In `printf`, before it loads byte `k`, when it has loaded `seen`. -/
  | printf (k : ℕ) (seen : List Char)
  /-- `printf` has loaded a byte behind the message. -/
  | overrun
  /-- Before `fflush`, with `buffer` in the buffer. -/
  | fflush (buffer : List (List Char))
  /-- `_exit(0)` -/
  | exit
  | exited
  deriving DecidableEq, Repr

/-- Both processes and the shared memory. -/
structure State where
  /-- The bytes of `shared->message`. -/
  message : ℕ → Char
  /-- The value of `shared->ready`. -/
  ready : ℕ
  parent : Parent
  child : Child
  /-- The lines that have reached standard output. -/
  output : List (List Char)

/-- Who takes the next step. -/
inductive Action
  | parent
  | child
  deriving DecidableEq, Repr

section Model

variable (c : Config) (s : State)

/-- The state before `fork`. A new shared memory object is filled with zeros. -/
def init : State where
  message := fun _ => '\x00'
  ready := 0
  parent := .fork
  child := .unborn
  output := []

/-- The next step of the parent. -/
def parentStep : Option State :=
  match s.parent with
  | .fork => some { s with parent := .snprintf 0, child := .semWait }
  | .snprintf k =>
    match c.stored[k]? with
    | some byte => some { s with
        message := Function.update s.message k byte
        parent := .snprintf (k + 1) }
    -- it returns
    | none => some { s with parent := .semPost }
  | .semPost => some { s with ready := Semaphore.post s.ready, parent := .waitForPid }
  | .waitForPid => if s.child = .exited then some { s with parent := .shmUnlink } else none
  | .shmUnlink => some { s with parent := .returned }
  | .returned => none

/-- The next step of the child, `none` while it waits. -/
def childStep : Option State :=
  match s.child with
  | .semWait =>
    match Semaphore.wait s.ready with
    | some ready => some { s with ready := ready, child := .printf 0 [] }
    | none => none
  | .printf k seen =>
    if k < messageSize then
      if s.message k = '\x00' then
        let printed := Stdio.printf c.buffering [] (Config.lineOf seen)
        some { s with
          output := s.output ++ printed.1
          child := .fflush printed.2 }
      else
        some { s with child := .printf (k + 1) (seen ++ [s.message k]) }
    else
      some { s with child := .overrun }
  | .fflush buffer => some { s with output := s.output ++ buffer, child := .exit }
  | .exit => some { s with child := .exited }
  | .unborn | .overrun | .exited => none

/-- Parent and child, interleaved. -/
def system : TransitionSystem State Action where
  init := init
  step s
    | .parent => parentStep c s
    | .child => childStep c s

end Model

/-! ## The invariant -/

/-- How many bytes of the message have been stored. -/
def Parent.progress (c : Config) : Parent → ℕ
  | .fork => 0
  | .snprintf k => k
  | .semPost | .waitForPid | .shmUnlink | .returned => c.stored.length

/-- The parent is past `sem_post`. -/
def Parent.posted : Parent → Bool
  | .fork | .snprintf _ | .semPost => false
  | .waitForPid | .shmUnlink | .returned => true

/-- The child is not past `sem_wait`. -/
def Child.waiting : Child → Bool
  | .unborn | .semWait => true
  | .printf _ _ | .overrun | .fflush _ | .exit | .exited => false

/-- What the child has loaded and printed. -/
def Child.Ok (c : Config) (output : List (List Char)) : Child → Prop
  | .unborn | .semWait => output = []
  | .printf k seen => output = [] ∧ k ≤ c.message.length ∧ seen = c.message.take k
  | .fflush buffer => output ++ buffer = [Config.lineOf c.message]
  | .exit | .exited => output = [Config.lineOf c.message]
  | .overrun => False

/-- The invariant of the program. -/
structure Inv (c : Config) (s : State) : Prop where
  /-- The bytes that have been stored are those of the message. -/
  message : ∀ k < s.parent.progress c, c.stored[k]? = some (s.message k)
  progress_le : s.parent.progress c ≤ c.stored.length
  ready : s.ready = if s.parent.posted && s.child.waiting then 1 else 0
  /-- The child gets past the semaphore only after the message is there. -/
  posted : s.child.waiting = false → s.parent.posted = true
  child : s.child.Ok c s.output
  unborn : s.child = .unborn ↔ s.parent = .fork
  reaped : s.parent = .shmUnlink ∨ s.parent = .returned → s.child = .exited

section Inv

variable {c : Config} {s s' : State}

theorem length_stored (c : Config) : c.stored.length = c.message.length + 1 := by
  simp [Config.stored]

/-- The message and its terminator fit the field. -/
theorem length_message_lt (c : Config) : c.message.length < messageSize := by
  simp only [Config.message, Printf.snprintf, messageSize, List.length_take]
  omega

/-- The byte behind the message is the only NUL. -/
theorem eq_nul_iff {k : ℕ} {byte : Char} (h : c.stored[k]? = some byte) :
    byte = '\x00' ↔ k = c.message.length := by
  unfold Config.stored at h
  by_cases hk : k < c.message.length
  · rw [List.getElem?_append_left hk] at h
    have hmem : byte ∈ c.text := List.mem_of_mem_take (List.mem_of_getElem? h)
    constructor
    · rintro rfl
      exact absurd hmem c.noNul
    · omega
  · have hend := (List.getElem?_eq_some_iff.mp h).1
    rw [List.length_append, List.length_singleton] at hend
    obtain rfl : k = c.message.length := by omega
    simpa [eq_comm] using h

/-- The child loads the next byte of the message, up to the terminator. -/
theorem take_succ_message {k : ℕ} {byte : Char} (h : c.stored[k]? = some byte)
    (hne : byte ≠ '\x00') :
    k < c.message.length ∧ c.message.take (k + 1) = c.message.take k ++ [byte] := by
  have hlt := (List.getElem?_eq_some_iff.mp h).1
  have hk : k < c.message.length := by
    have hlength := length_stored c
    have hlast := mt (eq_nul_iff h).mpr hne
    omega
  rw [Config.stored, List.getElem?_append_left hk] at h
  exact ⟨hk, by rw [List.take_add_one, h]; rfl⟩

theorem Inv.init (c : Config) : Inv c init where
  message k hk := absurd hk (Nat.not_lt_zero k)
  progress_le := Nat.zero_le _
  ready := rfl
  posted h := by cases h
  child := rfl
  unborn := ⟨fun _ => rfl, fun _ => rfl⟩
  reaped h := by simp [PosixShmUnnamedSemLatch.init] at h

/-- The parent stores the message byte by byte, and posts when all of it is there. -/
theorem Inv.parentStep (h : Inv c s) (hs : parentStep c s = some s') : Inv c s' := by
  -- until the parent posts, the child waits: this keeps it from a message that is not complete
  have hwaiting : s.parent.posted = false → s.child.waiting = true := by
    intro hnot
    by_contra hpassed
    simpa [hnot] using h.posted (eq_false_of_ne_true hpassed)
  have hready := h.ready
  have hunborn := h.unborn
  unfold PosixShmUnnamedSemLatch.parentStep at hs
  cases hpc : s.parent <;> simp only [hpc, Option.some.injEq, reduceCtorEq] at hs hwaiting hready
  case fork =>
    subst hs
    have hchild := h.child
    rw [hunborn.mpr hpc] at hchild
    refine ⟨fun k hk => absurd hk (Nat.not_lt_zero k), Nat.zero_le _, ?_, by simp [Child.waiting],
      hchild, by simp, by simp⟩
    simpa [Parent.posted, Child.waiting] using hready
  case snprintf k =>
    have hborn : s.child ≠ .unborn := by simp [hunborn, hpc]
    have hmessage := h.message
    simp only [hpc, Parent.progress] at hmessage
    have hwait := hwaiting rfl
    split at hs
    next byte hbyte =>
      obtain rfl := Option.some.inj hs
      refine ⟨fun j hj => ?_, (List.getElem?_eq_some_iff.mp hbyte).1, hready, ?_, h.child, ?_, ?_⟩
      · -- the new byte, or one of those before
        rcases Nat.lt_succ_iff_lt_or_eq.mp hj with hlt | rfl
        · show c.stored[j]? = some (Function.update s.message k byte j)
          rw [Function.update_of_ne hlt.ne]
          exact hmessage j hlt
        · show c.stored[j]? = some (Function.update s.message j byte j)
          rw [Function.update_self]
          exact hbyte
      · simp [hwait]
      · simp [hborn]
      · simp
    next hend =>
      obtain rfl := Option.some.inj hs
      -- all bytes are there, the NUL included
      have hle : c.stored.length ≤ k := List.getElem?_eq_none_iff.mp hend
      refine ⟨fun j hj => hmessage j (lt_of_lt_of_le hj hle), le_rfl, hready, ?_, h.child, ?_, ?_⟩
      · simp [hwait]
      · simp [hborn]
      · simp
  case semPost =>
    subst hs
    have hborn : s.child ≠ .unborn := by simp [hunborn, hpc]
    have hmessage := h.message
    rw [hpc] at hmessage
    refine ⟨hmessage, le_rfl, ?_, fun _ => rfl, h.child, by simp [hborn], by simp⟩
    simp [Semaphore.post, hready, Parent.posted, hwaiting rfl]
  case waitForPid =>
    split_ifs at hs with hexited
    obtain rfl := Option.some.inj hs
    have hmessage := h.message
    rw [hpc] at hmessage
    exact ⟨hmessage, le_rfl, hready, fun _ => rfl, h.child, by simp [hexited], fun _ => hexited⟩
  case shmUnlink =>
    subst hs
    have hmessage := h.message
    rw [hpc] at hmessage
    have hexited := h.reaped (.inl hpc)
    exact ⟨hmessage, le_rfl, hready, fun _ => rfl, h.child, by simp [hexited], fun _ => hexited⟩

/-- What is left when the child moves on past the semaphore. -/
theorem Inv.nextChild {child : Child} {ready : ℕ} {output : List (List Char)} (h : Inv c s)
    (hposted : s.parent.posted = true) (hrunning : s.child ≠ .exited) (hready : ready = 0)
    (hwaiting : child.waiting = false) (hok : child.Ok c output) :
    Inv c { s with ready := ready, child := child, output := output } where
  message := h.message
  progress_le := h.progress_le
  ready := by simp [hready, hwaiting]
  posted _ := hposted
  child := hok
  unborn := by
    constructor
    · rintro rfl
      cases hwaiting
    · intro hfork
      have hpc : s.parent = .fork := hfork
      simp [hpc, Parent.posted] at hposted
  reaped hend := absurd (h.reaped hend) hrunning

/-- What `printf` loads is inside the message, and has been stored. -/
theorem Inv.load {k : ℕ} {seen : List Char} (h : Inv c s) (hpc : s.child = .printf k seen) :
    k < messageSize ∧ c.stored[k]? = some (s.message k) := by
  have hok := h.child
  rw [hpc] at hok
  have hk : k ≤ c.message.length := hok.2.1
  have hposted := h.posted (by rw [hpc]; rfl)
  have hprogress : s.parent.progress c = c.stored.length := by
    cases hparent : s.parent <;> simp [hparent, Parent.posted] at hposted <;> rfl
  refine ⟨hk.trans_lt (length_message_lt c), h.message k ?_⟩
  rw [hprogress, length_stored]
  omega

/-- The child loads after its `sem_wait`, when nobody stores any more. -/
theorem Inv.childStep (h : Inv c s) (hs : childStep c s = some s') : Inv c s' := by
  have hready := h.ready
  have hok := h.child
  unfold PosixShmUnnamedSemLatch.childStep at hs
  cases hpc : s.child <;> simp only [hpc, Option.some.injEq, reduceCtorEq] at hs hready hok
  case semWait =>
    split at hs
    next ready hwait =>
      obtain rfl := Option.some.inj hs
      rw [Semaphore.wait_eq_some_iff] at hwait
      -- the semaphore was posted, so the message is there
      have hposted : s.parent.posted = true := by
        by_contra hnot
        simp [hnot] at hready
        omega
      refine h.nextChild hposted (by simp [hpc]) ?_ rfl ⟨hok, Nat.zero_le _, rfl⟩
      simp [hposted, Child.waiting] at hready
      omega
    next => cases hs
  case printf k seen =>
    obtain ⟨hnone, hk, rfl⟩ := hok
    have hposted := h.posted (by rw [hpc]; rfl)
    obtain ⟨hlt, hbyte⟩ := h.load hpc
    have hzero : s.ready = 0 := by simpa [Child.waiting] using hready
    rw [if_pos hlt] at hs
    split_ifs at hs with hnul
    · -- the byte behind the message
      obtain rfl := Option.some.inj hs
      refine h.nextChild hposted (by simp [hpc]) hzero rfl ?_
      rw [(eq_nul_iff hbyte).mp hnul, List.take_length, hnone]
      cases c.buffering <;> rfl
    · obtain rfl := Option.some.inj hs
      obtain ⟨hlt', htake⟩ := take_succ_message hbyte hnul
      exact h.nextChild hposted (by simp [hpc]) hzero rfl ⟨hnone, hlt', htake.symm⟩
  case fflush buffer =>
    obtain rfl := hs
    have hzero : s.ready = 0 := by simpa [Child.waiting] using hready
    exact h.nextChild (h.posted (by rw [hpc]; rfl)) (by simp [hpc]) hzero rfl hok
  case exit =>
    obtain rfl := hs
    have hzero : s.ready = 0 := by simpa [Child.waiting] using hready
    exact h.nextChild (h.posted (by rw [hpc]; rfl)) (by simp [hpc]) hzero rfl hok

/-- The invariant holds along every run. -/
theorem inv_of_reachable (h : (system c).Reachable s) : Inv c s := by
  refine h.invariant (Inv.init c) fun s a s' hinv hs => ?_
  cases a with
  | parent => exact hinv.parentStep hs
  | child => exact hinv.childStep hs

end Inv

/-! ## Whole runs -/

/-- The steps that the parent will still make. -/
def Parent.rank (c : Config) : Parent → ℕ
  | .fork => c.stored.length + 5
  | .snprintf k => c.stored.length - k + 4
  | .semPost => 3
  | .waitForPid => 2
  | .shmUnlink => 1
  | .returned => 0

/-- The steps that the child will still make. -/
def Child.rank (c : Config) : Child → ℕ
  | .unborn | .semWait => c.stored.length + 3
  | .printf k _ => c.stored.length - k + 2
  | .fflush _ => 2
  | .exit => 1
  | .exited | .overrun => 0

/-- The steps that are still to be made. -/
def State.rank (c : Config) (s : State) : ℕ :=
  s.parent.rank c + s.child.rank c

section Runs

variable {c : Config} {s s' : State}

/-- Every step of the parent is one of those that were counted. -/
theorem rank_parentStep (h : Inv c s) (hs : parentStep c s = some s') :
    s'.rank c + 1 = s.rank c := by
  have hunborn := h.unborn
  have hle := h.progress_le
  unfold parentStep at hs
  cases hpc : s.parent <;> simp only [hpc, Option.some.injEq, reduceCtorEq] at hs hle
  case fork =>
    subst hs
    simp only [State.rank, hpc, hunborn.mpr hpc, Parent.rank, Child.rank]
    omega
  case snprintf k =>
    have hk : k ≤ c.stored.length := hle
    split at hs
    next byte hbyte =>
      obtain rfl := Option.some.inj hs
      have hlt := (List.getElem?_eq_some_iff.mp hbyte).1
      simp only [State.rank, hpc, Parent.rank]
      omega
    next hend =>
      obtain rfl := Option.some.inj hs
      have hend := List.getElem?_eq_none_iff.mp hend
      simp only [State.rank, hpc, Parent.rank]
      omega
  case waitForPid =>
    split_ifs at hs
    obtain rfl := Option.some.inj hs
    simp only [State.rank, hpc, Parent.rank]
    omega
  all_goals
    subst hs
    simp only [State.rank, hpc, Parent.rank]
    omega

/-- Every step of the child is one of those that were counted. -/
theorem rank_childStep (h : Inv c s) (hs : childStep c s = some s') :
    s'.rank c + 1 = s.rank c := by
  have hlength := length_stored c
  unfold childStep at hs
  cases hpc : s.child <;> simp only [hpc, Option.some.injEq, reduceCtorEq] at hs
  case semWait =>
    split at hs
    · obtain rfl := Option.some.inj hs
      simp only [State.rank, hpc, Child.rank]
      omega
    · cases hs
  case printf k seen =>
    obtain ⟨hlt, hbyte⟩ := h.load hpc
    rw [if_pos hlt] at hs
    split_ifs at hs with hnul
    · obtain rfl := Option.some.inj hs
      have hk := (eq_nul_iff hbyte).mp hnul
      simp only [State.rank, hpc, Child.rank]
      omega
    · obtain rfl := Option.some.inj hs
      have hk := (take_succ_message hbyte hnul).1
      simp only [State.rank, hpc, Child.rank]
      omega
  case fflush buffer =>
    subst hs
    simp only [State.rank, hpc, Child.rank]
  case exit =>
    subst hs
    simp only [State.rank, hpc, Child.rank]

/-- The parent has returned exactly when nothing is left to do. -/
theorem returned_iff (h : Inv c s) : s.parent = .returned ↔ s.rank c = 0 := by
  refine ⟨fun hpc => ?_, fun hrank => ?_⟩
  · simp [State.rank, hpc, h.reaped (.inr hpc), Parent.rank, Child.rank]
  · cases hpc : s.parent <;> simp [State.rank, hpc, Parent.rank] at hrank ⊢

/-- Neither process waits for the other for ever. -/
theorem returned_of_stuck (h : Inv c s) (hstuck : (system c).Stuck s) : s.parent = .returned := by
  have hparent : parentStep c s = none := hstuck .parent
  have hchild : childStep c s = none := hstuck .child
  have hwait : s.parent = .returned ∨ s.parent = .waitForPid ∧ s.child ≠ .exited := by
    unfold parentStep at hparent
    cases hpc : s.parent <;> simp only [hpc, reduceCtorEq] at hparent
    case snprintf k => split at hparent <;> cases hparent
    case waitForPid =>
      split_ifs at hparent with hexited
      exact .inr ⟨rfl, hexited⟩
    case returned => exact .inl rfl
  refine hwait.resolve_right ?_
  rintro ⟨hpc, hrunning⟩
  have hok := h.child
  have hready := h.ready
  have hunborn := h.unborn
  unfold childStep at hchild
  cases hc : s.child <;> simp only [hc, hpc, reduceCtorEq] at hchild hok hready hunborn
  case unborn => exact hunborn.mp trivial
  case semWait =>
    -- the parent has posted
    have hone : s.ready = 1 := by simpa [Parent.posted, Child.waiting] using hready
    simp [hone, Semaphore.wait] at hchild
  case printf k seen => split_ifs at hchild
  case overrun => exact hok
  case exited => exact hrunning hc

end Runs

/-- In every interleaving, with the bytes of the message stored and loaded one by one: all runs end
after the same number of steps, with both processes ended, and the output is one line with the whole
message, which is the text up to its first 63 bytes. The child never loads from behind the
message. -/
theorem latch_outcome (c : Config) :
    (system c).EndsAfter (2 * min 63 c.text.length + 10) (fun s => s.parent = .returned ∧
        s.child = .exited ∧ s.output = [Config.lineOf (c.text.take 63)]) ∧
      ∀ s, (system c).Reachable s → s.child ≠ .overrun := by
  have hall (s : State) (h : (system c).Reachable s) (hpc : s.parent = .returned) :
      s.parent = .returned ∧ s.child = .exited ∧
        s.output = [Config.lineOf (c.text.take 63)] := by
    have hinv := inv_of_reachable h
    have hexited := hinv.reaped (.inr hpc)
    have hok := hinv.child
    rw [hexited] at hok
    exact ⟨hpc, hexited, hok⟩
  refine ⟨endsAfter_of_rank (State.rank c) ?_ (fun s a s' h hs => ?_) (fun s h => ?_)
    fun s h hstuck => hall s h (returned_of_stuck (inv_of_reachable h) hstuck), fun s h hover => ?_⟩
  · show c.stored.length + 5 + (c.stored.length + 3) = _
    simp only [length_stored, Config.message, Printf.snprintf, messageSize, List.length_take]
    omega
  · cases a with
    | parent => exact rank_parentStep (inv_of_reachable h) hs
    | child => exact rank_childStep (inv_of_reachable h) hs
  · rw [← returned_iff (inv_of_reachable h)]
    exact ⟨And.left, hall s h⟩
  · have hok := (inv_of_reachable h).child
    rw [hover] at hok
    exact hok

end PosixShmUnnamedSemLatch
