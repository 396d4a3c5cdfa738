import OsPrograms.Lib.ControlMessage
import OsPrograms.Lib.Printf
import OsPrograms.Lib.TransitionSystem

/-!
# `socketpair_fd_passing`

The parent makes a pair of connected sockets and a file with a text in it, forks, and passes the
descriptor of the file to the child, which reads the text through the descriptor it gets:

```
child                                        parent
xclose(sv[0]);                               xclose(sv[1]);
int received = recv_fd(sv[1]);               send_fd(sv[0], fd);
n = read(received, buf, sizeof(buf) - 1);    wait_for_pid(child);
buf[n] = '\0';                               xclose(fd);
printf("...%s", buf);                        xclose(sv[0]);
```

Each process has a descriptor table, and the descriptors open at the start are arbitrary. The
message is bytes, as `send_fd` writes them and `recv_fd` reads them. `recv_fd` uses `CMSG_FIRSTHDR`
without looking at it: when the parent ends before it has sent the message, `recvmsg` returns 0 with
an empty control buffer, and the child reads from the null pointer.

`socketpair`, `open`, `fork` and `sendmsg` can fail, and the parent dies then. `write_all` can fail
too, with a full disk for example, but its result is ignored: the parent goes on with a file that
has a part of the text. The file is not opened by other programs, and can be read.

## Main results

- `entry_openTable`: the descriptors of both processes after `fork`.
- `lowestFree_childTable`, `receivedTable_one`: the number of the descriptor that the child gets,
  and where its output goes.
-/

namespace SocketpairFdPassing

open ControlMessage

/-- What a descriptor refers to. -/
inductive File
  /-- The socket that `sv[0]` refers to. -/
  | end0
  /-- The socket that `sv[1]` refers to. -/
  | end1
  /-- The open file `TEMP_FILE`. -/
  | temp
  /-- The file that was open as `k` when the program started. -/
  | inherited (k : ℕ)
  deriving DecidableEq, Repr

/-- The calls after which `die_errno` may be called. -/
inductive Call
  | socketpair
  | openFile
  | fork
  | xclose
  | sendmsg
  | recvmsg
  deriving DecidableEq, Repr

/-- The next statement of the parent. -/
inductive Parent
  | socketpair
  | openFile
  | writeAll
  | lseek
  | fork
  /-- `xclose(sv[1])`. -/
  | closeSv1
  | sendFd
  | wait
  /-- `xclose(fd)`. -/
  | closeFd
  /-- `xclose(sv[0])`. -/
  | closeSv0
  | unlink
  | returned
  /-- After `die_errno`. -/
  | died (call : Call)
  /-- Ended by `SIGPIPE`. -/
  | killed
  deriving DecidableEq, Repr

/-- The next statement of the child. -/
inductive Child
  | unborn
  /-- `xclose(sv[0])`. -/
  | closeSv0
  | recvFd
  | read
  /-- `buf[n] = '\0'` and `printf`. -/
  | print
  | exit
  | exited
  /-- After `die_errno`. -/
  | died (call : Call)
  /-- Ended by `SIGSEGV` in `recv_fd`. -/
  | segv
  /-- `read` has failed, or has not read from the file. -/
  | lost
  deriving DecidableEq, Repr

/-- Both processes, the socket that the child reads, and the file. -/
structure State where
  parent : Parent
  child : Child
  /-- The array `sv`, the same in both processes. -/
  sv : ℕ × ℕ
  fd : ℕ
  parentTable : Descriptors File
  childTable : Descriptors File
  /-- The bytes that wait at `sv[1]`, each with the files that are passed with it. -/
  queue : List (Char × List File)
  file : List Char
  /-- The position in the file, which all its descriptors share. -/
  offset : ℕ
  received : ℕ
  /-- What `read` has stored in `buf`. -/
  buf : List Char
  /-- What the child has printed, and where descriptor 1 led to. -/
  printed : Option (Option File × List Char)

/-- One step. -/
inductive Action
  /-- The parent executes its next statement. -/
  | parent
  /-- The next statement of the parent is a call that fails, and whose result is looked at. -/
  | fails
  /-- `write_all` fails after `k` bytes. -/
  | writeFails (k : ℕ)
  /-- The child executes its next statement. -/
  | child
  deriving DecidableEq, Repr

/-- What the parent writes to the file. -/
def text : List Char :=
  "descriptor passed over unix socket\n".toList

/-- What the child prints before the text. -/
def label : List Char :=
  "child read from received fd: ".toList

/-- `die_errno` in the parent. -/
def State.die (s : State) (call : Call) : State :=
  { s with parent := .died call, parentTable := .empty }

/-- The child ends. -/
def State.childEnds (s : State) (child : Child) : State :=
  { s with child, childTable := .empty }

/-- `xclose(fd)` in the parent, which goes on with `next`. -/
def parentClose (s : State) (fd : ℕ) (next : Parent) : State :=
  if s.parentTable.entry fd = none then
    s.die .xclose
  else
    { s with parent := next, parentTable := s.parentTable.set fd none }

/-- The control buffer of `send_fd`, as far as `msg_controllen` says. -/
def sendControl (fd : ℕ) : List UInt8 :=
  let padding := List.replicate (cmsgSpace 4 - cmsgLen 4) 0
  let control := header (cmsgLen 4) solSocket scmRights ++ encode 4 fd ++ padding
  control.take (cmsgLen 4)

/-- `send_fd(sv[0], fd)`. -/
def sendFd (s : State) : State :=
  match s.parentTable.entry s.sv.1, parse (sendControl s.fd) with
  | some .end0, some fds =>
    match fds.mapM s.parentTable.entry with
    | some files =>
      if s.parentTable.RefersTo .end1 ∨ s.childTable.RefersTo .end1 then
        { s with parent := .wait, queue := s.queue ++ [('F', files)] }
      else
        { s with parent := .killed, parentTable := .empty }
    -- `EBADF`
    | none => s.die .sendmsg
  -- `EBADF`, `ENOTSOCK` or `EINVAL`
  | _, _ => s.die .sendmsg

/-- `write_all(fd, text, 35)`, of which `k` bytes get into the file. -/
def writeText (s : State) (k : ℕ) : State :=
  { s with
    parent := .lseek
    file := s.file.take s.offset ++ text.take k ++ s.file.drop (s.offset + k)
    offset := s.offset + k }

/-- The next statement of the parent. -/
def parentStep (s : State) : Option State :=
  match s.parent with
  | .socketpair =>
    let k₀ := s.parentTable.lowestFree
    let t := s.parentTable.set k₀ (some .end0)
    let k₁ := t.lowestFree
    some { s with
      parent := .openFile
      sv := (k₀, k₁)
      parentTable := t.set k₁ (some .end1) }
  | .openFile =>
    let k := s.parentTable.lowestFree
    -- `O_TRUNC`
    some { s with
      parent := .writeAll
      fd := k
      parentTable := s.parentTable.set k (some .temp)
      file := []
      offset := 0 }
  | .writeAll => some (writeText s text.length)
  | .lseek => some { s with parent := .fork, offset := 0 }
  | .fork => some { s with parent := .closeSv1, child := .closeSv0, childTable := s.parentTable }
  | .closeSv1 => some (parentClose s s.sv.2 .sendFd)
  | .sendFd => some (sendFd s)
  | .wait =>
    match s.child with
    | .exited | .died _ | .segv | .lost => some { s with parent := .closeFd }
    | _ => none
  | .closeFd => some (parentClose s s.fd .closeSv0)
  | .closeSv0 => some (parentClose s s.sv.1 .unlink)
  | .unlink => some { s with parent := .returned, parentTable := .empty }
  | .returned | .died _ | .killed => none

/-- The call that the parent makes next, if it dies when the call fails. -/
def Parent.mayFail : Parent → Option Call
  | .socketpair => some .socketpair
  | .openFile => some .openFile
  | .fork => some .fork
  | .sendFd => some .sendmsg
  | .writeAll | .lseek | .closeSv1 | .wait | .closeFd | .closeSv0 | .unlink => none
  | .returned | .died _ | .killed => none

/-- `recv_fd(sv[1])`, which blocks while nothing is there and `sv[0]` is open somewhere. -/
def recvFd (s : State) : Option State :=
  match s.childTable.entry s.sv.2 with
  | some .end1 =>
    match s.queue with
    | [] =>
      if s.parentTable.RefersTo .end0 ∨ s.childTable.RefersTo .end0 then none
      -- the end of the stream has no control message
      else some (s.childEnds .segv)
    | (_, files) :: rest =>
      let (control, t) := receive (cmsgSpace 4) s.childTable files
      match firstInt control with
      | some k => some { s with child := .read, childTable := t, queue := rest, received := k }
      | none => some (s.childEnds .segv)
  | _ => some (s.childEnds (.died .recvmsg))

/-- The next statement of the child. -/
def childStep (s : State) : Option State :=
  match s.child with
  | .closeSv0 =>
    if s.childTable.entry s.sv.1 = none then some (s.childEnds (.died .xclose))
    else some { s with child := .recvFd, childTable := s.childTable.set s.sv.1 none }
  | .recvFd => recvFd s
  | .read =>
    if s.childTable.entry s.received = some .temp then
      let data := (s.file.drop s.offset).take 127
      some { s with child := .print, buf := data, offset := s.offset + data.length }
    else
      some (s.childEnds .lost)
  | .print =>
    some { s with
      child := .exit
      printed := some (s.childTable.entry 1, label ++ Printf.cString s.buf) }
  | .exit => some (s.childEnds .exited)
  | .unborn | .exited | .died _ | .segv | .lost => none

/-- One step of the system. -/
def step (s : State) : Action → Option State
  | .parent => parentStep s
  | .fails => s.parent.mayFail.map s.die
  -- `write_all` returns -1, and the parent goes on
  | .writeFails k =>
    if s.parent = .writeAll ∧ k < text.length then some (writeText s k) else none
  | .child => childStep s

/-- How the program is started. -/
structure Config where
  /-- The descriptors that are open. -/
  opened : Finset ℕ
  /-- The system's limit for descriptors. -/
  opened_lt : ∀ k ∈ opened, k < 2 ^ 20

namespace Config

variable (c : Config)

/-- The table with which the program starts. -/
def startTable : Descriptors File :=
  .ofFinset c.opened .inherited

end Config

/-- The program, started as `c` says. -/
def system (c : Config) : TransitionSystem State Action where
  init :=
    { parent := .socketpair
      child := .unborn
      sv := (0, 0)
      fd := 0
      parentTable := c.startTable
      childTable := .empty
      queue := []
      file := []
      offset := 0
      received := 0
      buf := []
      printed := none }
  step := step

/-! ## The descriptor tables -/

namespace Config

variable (c : Config)

/-- `sv[0]`. -/
def sv0 : ℕ :=
  c.startTable.lowestFree

/-- The table when `socketpair` has made the first descriptor. -/
def sv0Table : Descriptors File :=
  c.startTable.set c.sv0 (some .end0)

/-- `sv[1]`. -/
def sv1 : ℕ :=
  c.sv0Table.lowestFree

/-- The table after `socketpair`. -/
def pairTable : Descriptors File :=
  c.sv0Table.set c.sv1 (some .end1)

/-- `fd`. -/
def fd : ℕ :=
  c.pairTable.lowestFree

/-- The table after `open`. -/
def openTable : Descriptors File :=
  c.pairTable.set c.fd (some .temp)

/-- Where the child's output goes. Descriptor 1 is the received file, or the socket, when it was
closed at the start. -/
def stdout : File :=
  if 1 ∈ c.opened then .inherited 1
  else if 0 ∈ c.opened then .temp
  else .end1

theorem entry_startTable (k : ℕ) :
    c.startTable.entry k = if k ∈ c.opened then some (.inherited k) else none :=
  rfl

/-- `socketpair` takes a number that is free. -/
theorem sv0_notMem : c.sv0 ∉ c.opened := by
  have hfree := c.startTable.lowestFree_spec
  rw [entry_startTable] at hfree
  by_contra hmem
  rw [← sv0, if_pos hmem] at hfree
  cases hfree

/-- It takes the lowest one. -/
theorem sv0_le {k : ℕ} (hk : k ∉ c.opened) : c.sv0 ≤ k := by
  apply Descriptors.lowestFree_le
  rw [entry_startTable, if_neg hk]

theorem sv0_lt_sv1 : c.sv0 < c.sv1 :=
  c.startTable.lowestFree_lt_lowestFree_set .end0

theorem sv1_lt_fd : c.sv1 < c.fd :=
  c.sv0Table.lowestFree_lt_lowestFree_set .end1

theorem entry_openTable (k : ℕ) :
    c.openTable.entry k =
      if k = c.fd then some .temp
      else if k = c.sv1 then some .end1
      else if k = c.sv0 then some .end0
      else if k ∈ c.opened then some (.inherited k) else none := by
  rw [openTable, Descriptors.entry_set, pairTable, Descriptors.entry_set, sv0Table,
    Descriptors.entry_set, entry_startTable]

theorem openTable_fd : c.openTable.entry c.fd = some .temp := by
  rw [entry_openTable, if_pos rfl]

theorem openTable_sv1 : c.openTable.entry c.sv1 = some .end1 := by
  rw [entry_openTable, if_neg c.sv1_lt_fd.ne, if_pos rfl]

theorem openTable_sv0 : c.openTable.entry c.sv0 = some .end0 := by
  rw [entry_openTable, if_neg (c.sv0_lt_sv1.trans c.sv1_lt_fd).ne, if_neg c.sv0_lt_sv1.ne,
    if_pos rfl]

/-- One number refers to the first socket. -/
theorem openTable_eq_end0_iff {k : ℕ} : c.openTable.entry k = some .end0 ↔ k = c.sv0 := by
  have h₀ := c.sv0_lt_sv1
  have h₁ := c.sv1_lt_fd
  rw [entry_openTable]
  split_ifs <;> simp <;> omega

/-- `fd` fits into an `int`. -/
theorem fd_lt : c.fd < 256 ^ 4 := by
  -- each of the three calls uses one more number
  have hstart : c.startTable.bound ≤ 2 ^ 20 := by
    show c.opened.sup id + 1 ≤ 2 ^ 20
    have hsup : c.opened.sup id < 2 ^ 20 :=
      (Finset.sup_lt_iff (by decide)).2 c.opened_lt
    omega
  have hfree {φ : Type} (t : Descriptors φ) : t.lowestFree ≤ t.bound :=
    Descriptors.lowestFree_le (t.entry_of_le _ le_rfl)
  have hset {φ : Type} (t : Descriptors φ) (e : Option φ) :
      (t.set t.lowestFree e).bound ≤ t.bound + 1 := by
    have hle := hfree t
    show max t.bound (t.lowestFree + 1) ≤ t.bound + 1
    omega
  have h₀ : c.sv0Table.bound ≤ c.startTable.bound + 1 := hset _ _
  have h₁ : c.pairTable.bound ≤ c.sv0Table.bound + 1 := hset _ _
  have hfd : c.fd ≤ c.pairTable.bound := hfree _
  omega

/-- The child's table when it has closed `sv[0]`. -/
def childTable : Descriptors File :=
  c.openTable.set c.sv0 none

/-- The descriptor that the child gets has the number of the one that it has closed. -/
theorem lowestFree_childTable : c.childTable.lowestFree = c.sv0 := by
  apply le_antisymm
  · exact Descriptors.lowestFree_le Descriptors.entry_set_self
  · by_contra hlt
    rw [not_le] at hlt
    have hfree := c.childTable.lowestFree_spec
    have h₀ := c.sv0_lt_sv1
    have h₁ := c.sv1_lt_fd
    -- all numbers below `sv[0]` were open at the start
    have hmem : c.childTable.lowestFree ∈ c.opened := by
      by_contra hmem
      have := c.sv0_le hmem
      omega
    generalize c.childTable.lowestFree = k at hlt hfree hmem
    rw [childTable, Descriptors.entry_set_of_ne hlt.ne, entry_openTable, if_neg (by omega),
      if_neg (by omega), if_neg hlt.ne, if_pos hmem] at hfree
    cases hfree

theorem childTable_sv1 : c.childTable.entry c.sv1 = some .end1 := by
  rw [childTable, Descriptors.entry_set_of_ne c.sv0_lt_sv1.ne', openTable_sv1]

/-- The child closes the first socket. -/
theorem not_childTable_refersTo_end0 : ¬c.childTable.RefersTo .end0 := by
  intro h
  obtain h | ⟨k, hne, hk⟩ := Descriptors.RefersTo.of_set h
  · cases h
  · exact hne (c.openTable_eq_end0_iff.1 hk)

/-- The child's table when it has got the descriptor. -/
def receivedTable : Descriptors File :=
  c.childTable.set c.sv0 (some .temp)

theorem receivedTable_sv0 : c.receivedTable.entry c.sv0 = some .temp :=
  Descriptors.entry_set_self

/-- What the standard output of the child refers to when it prints. -/
theorem receivedTable_one : c.receivedTable.entry 1 = some c.stdout := by
  have h₀ := c.sv0_lt_sv1
  have h₁ := c.sv1_lt_fd
  rw [receivedTable, Descriptors.entry_set, stdout]
  -- if 1 is open it is none of the descriptors that the program makes
  by_cases hone : 1 ∈ c.opened
  · have hne₀ : 1 ≠ c.sv0 := fun h => c.sv0_notMem (h ▸ hone)
    have hsv1 := c.sv0Table.lowestFree_spec
    have hfd := c.pairTable.lowestFree_spec
    have hne₁ : 1 ≠ c.sv1 := by
      intro h
      rw [← sv1, ← h, sv0Table, Descriptors.entry_set_of_ne hne₀, entry_startTable,
        if_pos hone] at hsv1
      cases hsv1
    have hne₂ : 1 ≠ c.fd := by
      intro h
      rw [← fd, ← h, pairTable, Descriptors.entry_set_of_ne hne₁, sv0Table,
        Descriptors.entry_set_of_ne hne₀, entry_startTable, if_pos hone] at hfd
      cases hfd
    rw [if_neg hne₀, if_pos hone, childTable, Descriptors.entry_set_of_ne hne₀, entry_openTable,
      if_neg hne₂, if_neg hne₁, if_neg hne₀, if_pos hone]
  · rw [if_neg hone]
    have hle := c.sv0_le hone
    by_cases hzero : 0 ∈ c.opened
    · -- the lowest free number was 1
      have hne : c.sv0 ≠ 0 := fun h => c.sv0_notMem (h ▸ hzero)
      rw [if_pos (by omega), if_pos hzero]
    -- 0 and 1 were free, and went to the sockets
    · have hsv0 : c.sv0 = 0 := Nat.le_zero.1 (c.sv0_le hzero)
      have hsv1 : c.sv1 ≤ 1 := by
        apply Descriptors.lowestFree_le
        rw [sv0Table, Descriptors.entry_set_of_ne (by omega), entry_startTable, if_neg hone]
      have heq : c.sv1 = 1 := by omega
      have hentry := c.childTable_sv1
      rw [heq] at hentry
      rw [if_neg (by omega), if_neg hzero, hentry]

end Config

end SocketpairFdPassing
