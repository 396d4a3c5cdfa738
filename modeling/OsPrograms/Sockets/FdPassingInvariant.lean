import Mathlib.Data.List.TakeWhile
import OsPrograms.Sockets.SocketpairFdPassing

/-!
# What the processes of `socketpair_fd_passing` have, statement by statement

The tables are those of the statements the processes have come to, the message waits at the child's
socket from `send_fd` to `recv_fd`, and the position in the file is 0 until the child reads. No
descriptor is missing when it is used, so that `xclose`, and the reads and writes, do not fail.

## Main results

- `Inv.sendFd_eq`: the message that the parent sends.
- `Inv.recvFd_eq`: what the child makes of it, and when it crashes.
- `inv_of_reachable`: tables, variables and the socket at each pair of statements.
-/

namespace SocketpairFdPassing

open ControlMessage

/-- How far the parent was when a call failed. -/
def Call.stage : Call → ℕ
  | .socketpair => 0
  | .openFile => 1
  | .fork => 4
  | .xclose => 5
  | .sendmsg | .recvmsg => 6

/-- How far the parent has come. A process that has ended keeps the number of its last statement. -/
def Parent.stage : Parent → ℕ
  | .socketpair => 0
  | .openFile => 1
  | .writeAll => 2
  | .lseek => 3
  | .fork => 4
  | .closeSv1 => 5
  | .sendFd => 6
  | .wait => 7
  | .closeFd => 8
  | .closeSv0 => 9
  | .unlink => 10
  | .returned => 11
  | .died call => call.stage
  | .killed => 6

/-- How far the child has come. -/
def Child.stage : Child → ℕ
  | .unborn => 0
  | .closeSv0 => 1
  | .recvFd | .segv => 2
  | .read | .lost => 3
  | .print => 4
  | .exit => 5
  | .exited => 6
  | .died call => match call with
    | .xclose => 1
    | _ => 2

/-- The parent's table at each of its statements. -/
def Parent.table (c : Config) : Parent → Descriptors File
  | .socketpair => c.startTable
  | .openFile => c.pairTable
  | .writeAll | .lseek | .fork | .closeSv1 => c.openTable
  | .sendFd | .wait | .closeFd => c.openTable.set c.sv1 none
  | .closeSv0 => (c.openTable.set c.sv1 none).set c.fd none
  | .unlink => ((c.openTable.set c.sv1 none).set c.fd none).set c.sv0 none
  | .returned | .died _ | .killed => .empty

/-- The child's table at each of its statements. -/
def Child.table (c : Config) : Child → Descriptors File
  | .closeSv0 => c.openTable
  | .recvFd => c.childTable
  | .read | .print | .exit => c.receivedTable
  | .unborn | .exited | .died _ | .segv | .lost => .empty

/-- What the child prints when the whole text is in the file. -/
def line : List Char :=
  label ++ text

/-- What holds between any two steps. -/
structure Inv (c : Config) (s : State) : Prop where
  parentTable : s.parentTable = s.parent.table c
  childTable : s.childTable = s.child.table c
  sv : 1 ≤ s.parent.stage → s.sv = (c.sv0, c.sv1)
  fd : 2 ≤ s.parent.stage → s.fd = c.fd
  fresh : s.parent = .writeAll → s.file = [] ∧ s.offset = 0
  file : 3 ≤ s.parent.stage → s.file <+: text
  offset : 4 ≤ s.parent.stage → s.child.stage ≤ 3 → s.offset = 0
  unborn : s.child = .unborn ↔ s.parent.stage < 5
  /-- The message waits from `send_fd` to `recv_fd`. -/
  queue : s.queue = if 7 ≤ s.parent.stage ∧ s.child.stage ≤ 2 then [('F', [.temp])] else []
  got : 3 ≤ s.child.stage → 7 ≤ s.parent.stage
  segv : s.child = .segv → s.parent = .died .sendmsg
  reaped : 8 ≤ s.parent.stage → s.child = .exited
  received : s.child = .read → s.received = c.sv0
  buf : s.child = .print → s.buf = s.file
  printed :
    s.printed = if 5 ≤ s.child.stage then some (some c.stdout, label ++ s.file) else none
  /-- `xclose` does not fail, and there is no write without a reader. -/
  parentSafe : s.parent ≠ .killed ∧ s.parent ≠ .died .xclose ∧ s.parent ≠ .died .recvmsg
  childSafe : (∀ call, s.child ≠ .died call) ∧ s.child ≠ .lost

section Invariant

variable {c : Config} {s s' : State}

/-- Before `fork` there is only the parent. -/
theorem inv_of_unborn {n : ℕ} (hpc : s.parent.stage = n) (hn : n < 5)
    (hparentTable : s.parentTable = s.parent.table c)
    (hchild : s.child = .unborn ∧ s.childTable = .empty ∧ s.queue = [] ∧ s.printed = none)
    (hsv : 1 ≤ n → s.sv = (c.sv0, c.sv1)) (hfd : 2 ≤ n → s.fd = c.fd)
    (hfresh : s.parent = .writeAll → s.file = [] ∧ s.offset = 0)
    (hfile : 3 ≤ n → s.file <+: text) (hoffset : 4 ≤ n → s.offset = 0) : Inv c s := by
  subst hpc
  obtain ⟨hunborn, hchildTable, hqueue, hprinted⟩ := hchild
  have hchildStage : s.child.stage = 0 := by
    rw [hunborn]
    rfl
  exact
    { parentTable := hparentTable
      childTable := by
        rw [hchildTable, hunborn]
        rfl
      sv := hsv
      fd := hfd
      fresh := hfresh
      file := hfile
      offset := fun h _ => hoffset h
      unborn := ⟨fun _ => hn, fun _ => hunborn⟩
      queue := by
        rw [hqueue, if_neg]
        omega
      got := by omega
      segv := fun h => by
        rw [hunborn] at h
        cases h
      reaped := by omega
      received := fun h => by
        rw [hunborn] at h
        cases h
      buf := fun h => by
        rw [hunborn] at h
        cases h
      printed := by
        rw [hprinted, if_neg]
        omega
      parentSafe := by
        refine ⟨?_, ?_, ?_⟩ <;> intro h <;> rw [h] at hn <;> revert hn <;> decide
      childSafe := by simp [hunborn] }

/-- Before `fork` there is no child, and no message. -/
theorem Inv.not_born (h : Inv c s) (hstage : s.parent.stage < 5) :
    s.child = .unborn ∧ s.childTable = .empty ∧ s.queue = [] ∧ s.printed = none := by
  have hunborn := h.unborn.2 hstage
  refine ⟨hunborn, ?_, ?_, ?_⟩
  · rw [h.childTable, hunborn]
    rfl
  · rw [h.queue, if_neg]
    omega
  · rw [h.printed, hunborn]
    rfl

theorem inv_init (c : Config) : Inv c (system c).init := by
  refine inv_of_unborn (rfl : Parent.socketpair.stage = 0) (by decide) rfl ⟨rfl, rfl, rfl, rfl⟩
    ?_ ?_ ?_ ?_ ?_ <;> intro hpc
  case refine_3 => cases hpc
  all_goals exact absurd hpc (by decide)

/-- A step of the parent after `fork` that touches neither the child nor the socket. -/
theorem Inv.parent_next (h : Inv c s) (next : Parent) (hforked : 5 ≤ s.parent.stage)
    (hle : s.parent.stage ≤ next.stage) (hsent : 7 ≤ next.stage ↔ 7 ≤ s.parent.stage)
    (hsegv : s.child ≠ .segv) (hreaped : 8 ≤ next.stage → s.child = .exited)
    (hsafe : next ≠ .killed ∧ next ≠ .died .xclose ∧ next ≠ .died .recvmsg) :
    Inv c { s with parent := next, parentTable := next.table c } where
  parentTable := rfl
  childTable := h.childTable
  sv _ := h.sv (by omega)
  fd _ := h.fd (by omega)
  fresh hpc := by
    obtain rfl : next = .writeAll := hpc
    have : Parent.writeAll.stage = 2 := rfl
    omega
  file _ := h.file (by omega)
  offset _ := h.offset (by omega)
  unborn := by
    rw [h.unborn]
    show s.parent.stage < 5 ↔ next.stage < 5
    omega
  queue := by
    rw [h.queue]
    exact if_congr (and_congr_left' hsent.symm) rfl rfl
  got hstage := hsent.2 (h.got hstage)
  segv hpc := absurd hpc hsegv
  reaped := hreaped
  received := h.received
  buf := h.buf
  printed := h.printed
  parentSafe := hsafe
  childSafe := h.childSafe

/-- A parent that dies keeps the stage of the call that failed. -/
theorem stage_of_mayFail {parent : Parent} {call : Call} (hcall : parent.mayFail = some call) :
    call.stage = parent.stage := by
  cases parent <;> cases hcall <;> rfl

/-- A call of the parent fails. -/
theorem Inv.die (h : Inv c s) {call : Call} (hcall : s.parent.mayFail = some call) :
    Inv c (s.die call) := by
  have hsafe : call ≠ .xclose ∧ call ≠ .recvmsg := by
    cases hpc : s.parent <;> rw [hpc] at hcall <;> cases hcall <;> decide
  -- a parent that has died stays at the stage of its last call, so the other fields do not change
  have hnext : (Parent.died call).stage = s.parent.stage := stage_of_mayFail hcall
  exact
    { parentTable := rfl
      childTable := h.childTable
      sv := fun hle => h.sv (hnext ▸ hle)
      fd := fun hle => h.fd (hnext ▸ hle)
      fresh := fun hpc => by cases hpc
      file := fun hle => h.file (hnext ▸ hle)
      offset := fun hle => h.offset (hnext ▸ hle)
      unborn := by
        show s.child = .unborn ↔ (Parent.died call).stage < 5
        rw [hnext, h.unborn]
      queue := by
        refine h.queue.trans (if_congr (and_congr_left' ?_) rfl rfl)
        show 7 ≤ s.parent.stage ↔ 7 ≤ (Parent.died call).stage
        rw [hnext]
      got := fun hle => (h.got hle).trans hnext.ge
      segv := fun hpc => by
        rw [h.segv hpc] at hcall
        cases hcall
      reaped := fun hle => h.reaped (hnext ▸ hle)
      received := h.received
      buf := h.buf
      printed := h.printed
      parentSafe := by simpa [State.die] using hsafe
      childSafe := h.childSafe }

/-- While the message has not been sent, the child has not come further than `recv_fd`. -/
theorem Inv.child_waiting (h : Inv c s) (hforked : 5 ≤ s.parent.stage) (hsent : s.parent.stage < 7)
    (hsegv : s.parent ≠ .died .sendmsg) : s.child = .closeSv0 ∨ s.child = .recvFd := by
  have hgot := h.got
  have hborn : s.child ≠ .unborn := by
    rw [Ne, h.unborn]
    omega
  have hsafe := h.childSafe
  have hcrash := h.segv
  cases hpc : s.child <;> rw [hpc] at hgot hborn hsafe hcrash
  case closeSv0 => exact .inl rfl
  case recvFd => exact .inr rfl
  case unborn => exact absurd rfl hborn
  case died call => exact absurd rfl (hsafe.1 call)
  case segv => exact absurd (hcrash rfl) hsegv
  all_goals
    have := hgot (by decide)
    omega

/-- `sv[1]` is open in the child until it ends. -/
theorem Inv.refersTo_end1 (h : Inv c s) (hpc : s.child = .closeSv0 ∨ s.child = .recvFd) :
    s.childTable.RefersTo .end1 := by
  rw [Descriptors.refersTo_iff, h.childTable]
  rcases hpc with hpc | hpc <;> rw [hpc]
  · exact ⟨_, c.openTable_sv1⟩
  · exact ⟨_, c.childTable_sv1⟩

/-- What `send_fd` builds is a control message with one descriptor. -/
theorem sendControl_eq (fd : ℕ) : sendControl fd = rights [fd] := by
  have hlength : (header (cmsgLen 4) solSocket scmRights ++ encode 4 fd).length = cmsgLen 4 := by
    rw [List.length_append, length_header, length_encode, cmsgLen]
  rw [sendControl, List.take_left' hlength, rights, List.flatMap_cons, List.flatMap_nil,
    List.append_nil]
  rfl

/-- The message that the kernel makes of the parent's control buffer. -/
theorem Inv.sendFd_eq (h : Inv c s) (hpc : s.parent = .sendFd) :
    sendFd s = { s with parent := .wait, queue := [('F', [.temp])] } := by
  have hstage : s.parent.stage = 6 := by
    rw [hpc]
    rfl
  have hsv := h.sv (by omega)
  have hsock : s.parentTable.entry s.sv.1 = some .end0 := by
    rw [h.parentTable, hpc, hsv, Parent.table, Descriptors.entry_set_of_ne c.sv0_lt_sv1.ne,
      c.openTable_sv0]
  have hfile : s.parentTable.entry s.fd = some .temp := by
    rw [h.parentTable, hpc, h.fd (by omega), Parent.table,
      Descriptors.entry_set_of_ne c.sv1_lt_fd.ne', c.openTable_fd]
  have hparse : parse (sendControl s.fd) = some [s.fd] := by
    rw [sendControl_eq]
    refine parse_rights ?_ (show 1 < 256 ^ 4 by decide)
    rw [List.forall_mem_singleton, h.fd (by omega)]
    exact c.fd_lt
  have hfiles : [s.fd].mapM s.parentTable.entry = some [.temp] := by
    simp [hfile]
  have hreader := h.refersTo_end1 (h.child_waiting (by omega) (by omega) (by simp [hpc]))
  have hqueue : s.queue = [] := by
    rw [h.queue, if_neg]
    omega
  simp only [sendFd, hsock, hparse, hfiles]
  rw [if_pos (.inr hreader), hqueue]
  rfl

/-- A new file gets the first bytes of the text, however many. -/
theorem Inv.file_writeText (h : Inv c s) (hpc : s.parent = .writeAll) (k : ℕ) :
    (writeText s k).file = text.take k := by
  have hfile := (h.fresh hpc).1
  show s.file.take s.offset ++ text.take k ++ s.file.drop (s.offset + k) = text.take k
  rw [hfile, List.take_nil, List.drop_nil, List.nil_append, List.append_nil]

/-- `write_all` writes a beginning of the text, and all of it if it does not fail. -/
theorem Inv.writeText (h : Inv c s) (hpc : s.parent = .writeAll) (k : ℕ) :
    Inv c (writeText s k) := by
  have hborn := h.not_born (by rw [hpc]; decide)
  have hsv := h.sv (by rw [hpc]; decide)
  have hfd := h.fd (by rw [hpc]; decide)
  have htable := h.parentTable
  rw [hpc] at htable
  refine inv_of_unborn (rfl : Parent.lseek.stage = 3) (by decide) htable hborn (fun _ => hsv)
    (fun _ => hfd) (fun hnext => by cases hnext) ?_ (fun hle => absurd hle (by decide))
  intro _
  rw [h.file_writeText hpc]
  exact List.take_prefix k text

/-- The parent makes the sockets, the file and the child. -/
theorem Inv.parentStep_of_lt (h : Inv c s) (hlt : s.parent.stage < 5)
    (hs : parentStep s = some s') : Inv c s' := by
  unfold SocketpairFdPassing.parentStep at hs
  have htable := h.parentTable
  cases hpc : s.parent <;> simp only [hpc, reduceCtorEq] at hs <;> rw [hpc] at htable hlt
  case socketpair =>
    obtain rfl := Option.some.inj hs
    have hborn := h.not_born (by rw [hpc]; decide)
    refine inv_of_unborn (rfl : Parent.openFile.stage = 1) (by decide) ?_ hborn ?_ ?_ ?_ ?_ ?_ <;>
      try intro hle
    case refine_1 =>
      -- the two lowest free descriptors
      show (s.parentTable.set _ _).set _ _ = c.pairTable
      rw [htable]
      rfl
    case refine_2 =>
      show (s.parentTable.lowestFree, (s.parentTable.set s.parentTable.lowestFree _).lowestFree) = _
      rw [htable]
      rfl
    case refine_4 => cases hle
    all_goals exact absurd hle (by decide)
  case openFile =>
    obtain rfl := Option.some.inj hs
    have hborn := h.not_born (by rw [hpc]; decide)
    have hsv := h.sv (by rw [hpc]; decide)
    refine inv_of_unborn (rfl : Parent.writeAll.stage = 2) (by decide) ?_ hborn (fun _ => hsv) ?_
      (fun _ => ⟨rfl, rfl⟩) ?_ ?_ <;> try intro hle
    case refine_1 =>
      show s.parentTable.set s.parentTable.lowestFree _ = c.openTable
      rw [htable]
      rfl
    case refine_2 =>
      show s.parentTable.lowestFree = c.fd
      rw [htable]
      rfl
    all_goals exact absurd hle (by decide)
  case writeAll =>
    obtain rfl := Option.some.inj hs
    exact h.writeText hpc text.length
  case lseek =>
    obtain rfl := Option.some.inj hs
    have hborn := h.not_born (by rw [hpc]; decide)
    have hsv := h.sv (by rw [hpc]; decide)
    have hfd := h.fd (by rw [hpc]; decide)
    have hfile := h.file (by rw [hpc]; decide)
    exact inv_of_unborn (rfl : Parent.fork.stage = 4) (by decide) htable hborn (fun _ => hsv)
      (fun _ => hfd) (fun hnext => by cases hnext) (fun _ => hfile) (fun _ => rfl)
  case fork =>
    obtain rfl := Option.some.inj hs
    obtain ⟨hunborn, -, hqueue, hprinted⟩ := h.not_born (by rw [hpc]; decide)
    have hstage : s.parent.stage = 4 := by
      rw [hpc]
      rfl
    exact
      { parentTable := htable
        childTable := htable
        sv := fun _ => h.sv (by omega)
        fd := fun _ => h.fd (by omega)
        fresh := fun hnext => by cases hnext
        file := fun _ => h.file (by omega)
        offset := fun _ _ => h.offset (by omega) (by rw [hunborn]; decide)
        unborn := by simp [Parent.stage]
        queue := hqueue
        got := by simp [Child.stage]
        segv := fun hnext => by cases hnext
        reaped := by simp [Parent.stage]
        received := fun hnext => by cases hnext
        buf := fun hnext => by cases hnext
        printed := hprinted
        parentSafe := by simp
        childSafe := by simp }
  all_goals exact absurd hlt (by decide)

/-- An `xclose` of the parent that leads to the table of the next statement. -/
theorem parentClose_eq {k : ℕ} {next : Parent} (hopen : s.parentTable.entry k ≠ none)
    (htable : s.parentTable.set k none = next.table c) :
    parentClose s k next = { s with parent := next, parentTable := next.table c } := by
  rw [parentClose, if_neg hopen, htable]

/-- `send_fd` puts the message into the socket, where the child has not looked yet. -/
theorem Inv.sendFd (h : Inv c s) (hpc : s.parent = .sendFd) : Inv c (sendFd s) := by
  have hstage : s.parent.stage = 6 := by
    rw [hpc]
    rfl
  have hwaiting := h.child_waiting (by omega) (by omega) (by simp [hpc])
  have hchild : s.child.stage ≤ 2 := by
    rcases hwaiting with hw | hw <;> rw [hw] <;> decide
  have htable := h.parentTable
  rw [hpc] at htable
  rw [h.sendFd_eq hpc]
  exact
    { parentTable := htable
      childTable := h.childTable
      sv := fun _ => h.sv (by omega)
      fd := fun _ => h.fd (by omega)
      fresh := fun hnext => by cases hnext
      file := fun _ => h.file (by omega)
      offset := fun _ => h.offset (by omega)
      unborn := by
        rw [h.unborn, hpc]
        simp [Parent.stage]
      queue := (if_pos ⟨le_refl 7, hchild⟩).symm
      got := fun _ => le_refl 7
      segv := fun hnext => by rcases hwaiting with hw | hw <;> rw [hw] at hnext <;> cases hnext
      reaped := by simp [Parent.stage]
      received := h.received
      buf := h.buf
      printed := h.printed
      parentSafe := by simp
      childSafe := h.childSafe }

/-- `sv[1]` is open in the parent when it closes it. -/
theorem Inv.entry_sv1 (h : Inv c s) (hpc : s.parent = .closeSv1) :
    s.parentTable.entry s.sv.2 ≠ none := by
  rw [h.parentTable, h.sv (by rw [hpc]; decide), hpc]
  exact Option.ne_none_iff_exists'.2 ⟨_, c.openTable_sv1⟩

/-- The parent sends the message, waits, and closes its descriptors. -/
theorem Inv.parentStep_of_le (h : Inv c s) (hle : 5 ≤ s.parent.stage)
    (hs : SocketpairFdPassing.parentStep s = some s') : Inv c s' := by
  unfold SocketpairFdPassing.parentStep at hs
  have htable := h.parentTable
  have hsv := h.sv (by omega)
  have hfd := h.fd (by omega)
  have hreaped := h.reaped
  -- the child crashes only after the parent has died
  have hsegv (hpc : ∀ call, s.parent ≠ .died call) : s.child ≠ .segv :=
    fun hchild => hpc _ (h.segv hchild)
  have h₀ := c.sv0_lt_sv1
  have h₁ := c.sv1_lt_fd
  have next := h.parent_next
  cases hpc : s.parent <;> simp only [hpc, reduceCtorEq] at hs <;>
    rw [hpc] at htable hle hsegv hreaped next
  case closeSv1 =>
    obtain rfl := Option.some.inj hs
    have hclosed : s.parentTable.set s.sv.2 none = Parent.sendFd.table c := by
      rw [htable, hsv]
      rfl
    rw [parentClose_eq (h.entry_sv1 hpc) hclosed]
    exact next _ hle (by decide) (by decide) (hsegv (by simp)) (by simp [Parent.stage]) (by simp)
  case sendFd =>
    obtain rfl := Option.some.inj hs
    exact h.sendFd hpc
  case wait =>
    obtain ⟨hexited, rfl⟩ : s.child = .exited ∧ s' = { s with parent := .closeFd } := by
      -- the message has been sent, so that the child has not died in `recv_fd`
      have hsafe := h.childSafe
      have hcrash := hsegv (by simp)
      cases hchild : s.child <;> rw [hchild] at hsafe hcrash <;>
        simp only [hchild, reduceCtorEq, Option.some.injEq] at hs
      case exited => exact ⟨rfl, hs.symm⟩
      case died call => exact absurd rfl (hsafe.1 call)
      case segv => exact absurd rfl hcrash
      case lost => exact absurd rfl hsafe.2
    rw [show s.parentTable = Parent.closeFd.table c from htable]
    exact next _ hle (by decide) (by decide) (hsegv (by simp)) (fun _ => hexited) (by simp)
  case closeFd =>
    obtain rfl := Option.some.inj hs
    have hopen : s.parentTable.entry s.fd ≠ none := by
      rw [htable, hfd, Parent.table, Descriptors.entry_set_of_ne h₁.ne']
      exact Option.ne_none_iff_exists'.2 ⟨_, c.openTable_fd⟩
    have hclosed : s.parentTable.set s.fd none = Parent.closeSv0.table c := by
      rw [htable, hfd]
      rfl
    rw [parentClose_eq hopen hclosed]
    exact next _ hle (by decide) (by decide) (hsegv (by simp)) (fun _ => hreaped (by decide))
      (by simp)
  case closeSv0 =>
    obtain rfl := Option.some.inj hs
    have hopen : s.parentTable.entry s.sv.1 ≠ none := by
      rw [htable, hsv, Parent.table, Descriptors.entry_set_of_ne (h₀.trans h₁).ne,
        Descriptors.entry_set_of_ne h₀.ne]
      exact Option.ne_none_iff_exists'.2 ⟨_, c.openTable_sv0⟩
    have hclosed : s.parentTable.set s.sv.1 none = Parent.unlink.table c := by
      rw [htable, hsv]
      rfl
    rw [parentClose_eq hopen hclosed]
    exact next _ hle (by decide) (by decide) (hsegv (by simp)) (fun _ => hreaped (by decide))
      (by simp)
  case unlink =>
    obtain rfl := Option.some.inj hs
    exact next .returned hle (by decide) (by decide) (hsegv (by simp))
      (fun _ => hreaped (by decide)) (by simp)
  all_goals exact absurd hle (by decide)

/-- The parent passes its descriptor and then waits. -/
theorem Inv.parentStep (h : Inv c s) (hs : SocketpairFdPassing.parentStep s = some s') :
    Inv c s' := by
  rcases Nat.lt_or_ge s.parent.stage 5 with hlt | hle
  · exact h.parentStep_of_lt hlt hs
  · exact h.parentStep_of_le hle hs

/-- A step of the child that changes nothing but its table. -/
theorem Inv.child_next (h : Inv c s) (next : Child) (hborn : s.child ≠ .unborn ∧ next ≠ .unborn)
    (hle : s.child.stage ≤ next.stage) (hgot : 3 ≤ next.stage ↔ 3 ≤ s.child.stage)
    (hprinted : 5 ≤ next.stage ↔ 5 ≤ s.child.stage) (hread : next ≠ .read ∧ next ≠ .print)
    (hsegv : next = .segv → s.parent = .died .sendmsg)
    (hreaped : 8 ≤ s.parent.stage → next = .exited)
    (hsafe : (∀ call, next ≠ .died call) ∧ next ≠ .lost) :
    Inv c { s with child := next, childTable := next.table c } where
  parentTable := h.parentTable
  childTable := rfl
  sv := h.sv
  fd := h.fd
  fresh := h.fresh
  file := h.file
  offset hstage hnext := h.offset hstage (hle.trans hnext)
  unborn := (iff_false_left hborn.2).2 (h.unborn.not.1 hborn.1)
  queue := by
    refine h.queue.trans (if_congr (and_congr_right' ?_) rfl rfl)
    show s.child.stage ≤ 2 ↔ next.stage ≤ 2
    omega
  got hstage := h.got (hgot.1 hstage)
  segv := hsegv
  reaped := hreaped
  received hpc := absurd hpc hread.1
  buf hpc := absurd hpc hread.2
  printed := h.printed.trans (if_congr hprinted.symm rfl rfl)
  parentSafe := h.parentSafe
  childSafe := hsafe

/-- Until the parent has sent the message it has `sv[0]`, or `sendmsg` has failed. -/
theorem Inv.refersTo_end0_iff (h : Inv c s) (hforked : 5 ≤ s.parent.stage)
    (hsent : s.parent.stage < 7) : s.parentTable.RefersTo .end0 ↔ s.parent ≠ .died .sendmsg := by
  have hsafe := h.parentSafe
  rw [Descriptors.refersTo_iff, h.parentTable]
  cases hpc : s.parent <;> rw [hpc] at hforked hsent hsafe
  case closeSv1 => exact iff_of_true ⟨_, c.openTable_sv0⟩ (by simp)
  case sendFd =>
    refine iff_of_true ⟨c.sv0, ?_⟩ (by simp)
    rw [Parent.table, Descriptors.entry_set_of_ne c.sv0_lt_sv1.ne, c.openTable_sv0]
  case died call =>
    have hcall : call = .sendmsg := by
      cases call <;> simp [Parent.stage, Call.stage] at hforked hsafe ⊢
    rw [hcall]
    refine iff_of_false ?_ (by simp)
    rintro ⟨k, hk⟩
    cases hk
  case killed => exact absurd rfl hsafe.1
  all_goals simp [Parent.stage] at hforked hsent

/-- The child gets the file with the message, crashes when there will be no message, and blocks
otherwise. -/
theorem Inv.recvFd_eq (h : Inv c s) (hpc : s.child = .recvFd) :
    recvFd s =
      if 7 ≤ s.parent.stage then
        some { s with
          child := .read, childTable := c.receivedTable, queue := [], received := c.sv0 }
      else if s.parent = .died .sendmsg then some (s.childEnds .segv) else none := by
  have hforked : 5 ≤ s.parent.stage := by
    have := h.unborn.not.1 (by simp [hpc])
    omega
  have htable : s.childTable = c.childTable := by
    rw [h.childTable, hpc]
    rfl
  have hsock : s.childTable.entry s.sv.2 = some .end1 := by
    rw [htable, h.sv (by omega), c.childTable_sv1]
  have hstage : s.child.stage ≤ 2 := by
    rw [hpc]
    decide
  have hqueue := h.queue
  rw [recvFd, hsock]
  -- the message is there, or `recvmsg` returns 0 once no process has the other socket
  by_cases hsent : 7 ≤ s.parent.stage
  · rw [if_pos ⟨hsent, hstage⟩] at hqueue
    have hfree : c.childTable.lowestFree < 256 ^ 4 := by
      have hlt := c.fd_lt
      have h₀ := c.sv0_lt_sv1
      have h₁ := c.sv1_lt_fd
      rw [c.lowestFree_childTable]
      omega
    obtain ⟨ht, hint⟩ := receive_one (show cmsgLen 4 ≤ cmsgSpace 4 by decide) File.temp hfree
    rw [c.lowestFree_childTable] at ht hint
    rw [if_pos hsent]
    simp only [hqueue, htable, hint, ht]
    rfl
  · rw [if_neg fun hand => hsent hand.1] at hqueue
    have hend0 := h.refersTo_end0_iff hforked (by omega)
    have hown : ¬s.childTable.RefersTo .end0 := htable ▸ c.not_childTable_refersTo_end0
    simp only [hqueue, hown, or_false, hend0, if_neg hsent, ne_eq, ite_not]

/-- `recv_fd` gets the descriptor, or crashes on an empty control buffer. -/
theorem Inv.recvFd (h : Inv c s) (hpc : s.child = .recvFd)
    (hs : SocketpairFdPassing.recvFd s = some s') : Inv c s' := by
  have hborn := h.unborn.not.1 (by simp [hpc])
  have hreaped (hstage : 8 ≤ s.parent.stage) : False := by
    have hexited := h.reaped hstage
    rw [hpc] at hexited
    cases hexited
  have hchildStage : s.child.stage = 2 := by
    rw [hpc]
    rfl
  have hprinted : s.printed = none := by
    rw [h.printed, if_neg]
    omega
  rw [h.recvFd_eq hpc] at hs
  split_ifs at hs with hsent hdied <;> obtain rfl := Option.some.inj hs
  · exact
      { parentTable := h.parentTable
        childTable := rfl
        sv := h.sv
        fd := h.fd
        fresh := h.fresh
        file := h.file
        offset := fun hstage _ => h.offset hstage (by omega)
        unborn := (iff_false_left (by simp)).2 hborn
        queue := by simp [Child.stage]
        got := fun _ => hsent
        segv := fun hnext => by cases hnext
        reaped := fun hstage => (hreaped hstage).elim
        received := fun _ => rfl
        buf := fun hnext => by cases hnext
        printed := hprinted
        parentSafe := h.parentSafe
        childSafe := by simp }
  · have next := h.child_next .segv
    rw [hpc] at next
    exact next (by simp) (by decide) (by decide) (by decide) (by simp) (fun _ => hdied)
      (fun hstage => (hreaped hstage).elim) (by simp)

/-- The text has no null character, so that `printf` prints all that was read. -/
theorem cString_eq {data : List Char} (h : data <+: text) : Printf.cString data = data := by
  rw [Printf.cString, List.takeWhile_eq_self_iff]
  intro x hx
  have hall : ∀ y ∈ text, decide (y ≠ '\x00') = true := List.all_eq_true.mp rfl
  exact hall x (h.subset hx)

/-- `read` stores the whole file: it is shorter than the buffer, and `lseek` has moved the shared
position back to its beginning. -/
theorem Inv.read (h : Inv c s) (hpc : s.child = .read) :
    Inv c { s with
      child := .print
      buf := (s.file.drop s.offset).take 127
      offset := s.offset + ((s.file.drop s.offset).take 127).length } := by
  have hsent := h.got (by rw [hpc]; decide)
  have hreaped := h.reaped
  have hprinted := h.printed
  have hqueue := h.queue
  have htable := h.childTable
  rw [hpc] at hreaped hprinted hqueue htable
  exact
    { parentTable := h.parentTable
      childTable := htable
      sv := h.sv
      fd := h.fd
      fresh := fun hnext => by
        have hstage : s.parent.stage = 2 := by rw [show s.parent = .writeAll from hnext]; rfl
        omega
      file := h.file
      offset := by simp [Child.stage]
      unborn := (iff_false_left (by simp)).2 (by show ¬s.parent.stage < 5; omega)
      queue := by simpa [Child.stage] using hqueue
      got := fun _ => hsent
      segv := fun hnext => by cases hnext
      reaped := fun hle => by cases hreaped hle
      received := fun hnext => by cases hnext
      buf := fun _ => by
        show (s.file.drop s.offset).take 127 = s.file
        have hlength : s.file.length ≤ 127 :=
          (h.file (by omega)).length_le.trans (by decide)
        rw [h.offset (by omega) (by rw [hpc]; decide), List.drop_zero,
          List.take_of_length_le hlength]
      printed := hprinted
      parentSafe := h.parentSafe
      childSafe := by simp }

/-- `printf` prints the content of the file to where the program's own output goes. -/
theorem Inv.print (h : Inv c s) (hpc : s.child = .print) :
    Inv c { s with
      child := .exit
      printed := some (s.childTable.entry 1, label ++ Printf.cString s.buf) } := by
  have hsent := h.got (by rw [hpc]; decide)
  have hreaped := h.reaped
  have hqueue := h.queue
  have htable := h.childTable
  rw [hpc] at hreaped hqueue htable
  exact
    { parentTable := h.parentTable
      childTable := htable
      sv := h.sv
      fd := h.fd
      fresh := h.fresh
      file := h.file
      offset := by simp [Child.stage]
      unborn := (iff_false_left (by simp)).2 (by show ¬s.parent.stage < 5; omega)
      queue := by simpa [Child.stage] using hqueue
      got := fun _ => hsent
      segv := fun hnext => by cases hnext
      reaped := fun hle => by cases hreaped hle
      received := fun hnext => by cases hnext
      buf := fun hnext => by cases hnext
      printed := by
        show some (s.childTable.entry 1, label ++ Printf.cString s.buf) =
          some (some c.stdout, label ++ s.file)
        rw [htable, h.buf hpc, cString_eq (h.file (by omega))]
        exact congrArg (fun e => some (e, label ++ s.file)) c.receivedTable_one
      parentSafe := h.parentSafe
      childSafe := by simp }

/-- `sv[0]` is open in the child when it closes it. -/
theorem Inv.entry_sv0 (h : Inv c s) (hpc : s.child = .closeSv0) :
    s.childTable.entry s.sv.1 ≠ none := by
  have hforked := h.unborn.not.1 (by simp [hpc])
  rw [h.childTable, h.sv (by omega), hpc]
  exact Option.ne_none_iff_exists'.2 ⟨_, c.openTable_sv0⟩

/-- The child closes its descriptor, gets the file, reads it, prints and exits. -/
theorem Inv.childStep (h : Inv c s) (hs : childStep s = some s') : Inv c s' := by
  unfold SocketpairFdPassing.childStep at hs
  have hborn := h.unborn.not
  have hreaped := h.reaped
  have next := h.child_next
  have htable := h.childTable
  cases hpc : s.child <;> simp only [hpc, reduceCtorEq] at hs <;>
    rw [hpc] at hborn hreaped next htable
  case recvFd => exact h.recvFd hpc hs
  case closeSv0 =>
    have hforked := hborn.1 (by simp)
    have hsv := h.sv (by omega)
    rw [if_neg (h.entry_sv0 hpc)] at hs
    obtain rfl := Option.some.inj hs
    -- the number of `sv[0]` is free now, and the file will get it
    rw [show s.childTable.set s.sv.1 none = Child.recvFd.table c by rw [htable, hsv]; rfl]
    exact next _ (by simp) (by decide) (by decide) (by decide) (by simp) (by simp)
      (fun hle => by cases hreaped hle) (by simp)
  case read =>
    have hfile : s.childTable.entry s.received = some .temp := by
      rw [htable, h.received hpc]
      exact c.receivedTable_sv0
    rw [if_pos hfile] at hs
    obtain rfl := Option.some.inj hs
    exact h.read hpc
  case print =>
    obtain rfl := Option.some.inj hs
    exact h.print hpc
  case exit =>
    obtain rfl := Option.some.inj hs
    exact next .exited (by simp) (by decide) (by decide) (by decide) (by simp) (by simp)
      (fun _ => rfl) (by simp)

/-- The failures of the system calls end the parent, except for that of `write_all`. -/
theorem Inv.step {a : Action} (h : Inv c s) (hs : step s a = some s') : Inv c s' := by
  cases a with
  | parent => exact h.parentStep hs
  | fails =>
    obtain ⟨call, hcall, rfl⟩ := Option.map_eq_some_iff.1 hs
    exact h.die hcall
  | writeFails k =>
    simp only [SocketpairFdPassing.step, Option.ite_none_right_eq_some, Option.some.injEq] at hs
    obtain ⟨⟨hpc, -⟩, rfl⟩ := hs
    exact h.writeText hpc k
  | child => exact h.childStep hs

end Invariant

/-- The invariant holds along every run. -/
theorem inv_of_reachable {c : Config} {s : State} (h : (system c).Reachable s) : Inv c s :=
  h.invariant (inv_init c) fun _ _ _ ih hs => ih.step hs

end SocketpairFdPassing
