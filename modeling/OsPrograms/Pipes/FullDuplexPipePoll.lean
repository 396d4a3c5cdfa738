import Mathlib.Data.Finset.Basic
import Mathlib.Tactic.Common
import OsPrograms.Common.WriteAll
import OsPrograms.Lib.Pipe
import OsPrograms.Lib.Printf
import OsPrograms.Lib.TransitionSystem

/-!
# Requests and replies over two pipes (`full_duplex_pipe_poll`)

The parent sends requests to its child through one pipe and gets replies through another:

```
parent: for (i = 0; i < n; i++) { write_all(request i); poll(1000 ms); read(159); printf(reply); }
child:  while ((n = read(127)) > 0) { len = snprintf(reply, 160, ...); write_all(reply, len); }
```

Neither stream has message boundaries. A read gets one message, no more and no less, because the
parent does not send a request before it has read the reply to the one before, and because the
buffers are large enough: a request of 127 bytes from a child whose process id has ten digits makes
a reply of 159 bytes.

A process that ends closes its ends of the pipes, so that the other one sees end of file, or is
killed by `SIGPIPE`. The parent gives up when a `poll` times out.

## Main results

- `replyTo`, `length_replyTo_lt`: the reply to a request, and that its buffer holds it.
- `Exchange`: where the one message is that is under way.
- `inv_of_reachable`: it is there along every run, and what the parent has printed so far.
-/

namespace FullDuplexPipePoll

open Printf

/-- The ends of the two pipes. -/
inductive End
  /-- `parent_to_child[0]` -/
  | requestRx
  /-- `parent_to_child[1]` -/
  | requestTx
  /-- `child_to_parent[0]` -/
  | replyRx
  /-- `child_to_parent[1]` -/
  | replyTx
  deriving DecidableEq, Repr

/-- How the parent ended. -/
inductive ParentEnd
  /-- `return 0` -/
  | returned
  /-- `die("poll timed out waiting for child")` -/
  | timedOut
  /-- `die_errno("read reply")` -/
  | readReply
  | sigpipe
  deriving DecidableEq, Repr

/-- The next statement of the parent. -/
inductive ParentPc
  | closeRequestRx
  | closeReplyTx
  /-- `write_all(parent_to_child[1], requests[i], strlen(requests[i]))` -/
  | writeAll
  | poll
  | read
  | closeRequestTx
  | closeReplyRx
  | waitForPid
  | exited (how : ParentEnd)
  deriving DecidableEq, Repr

/-- How the child ended. -/
inductive ChildEnd
  /-- `_exit(0)` -/
  | exited
  | sigpipe
  deriving DecidableEq, Repr

/-- The next statement of the child. -/
inductive ChildPc
  | closeRequestTx
  | closeReplyRx
  | read
  /-- `write_all(tx, reply, (size_t)len)`; `reply` holds the string given here. -/
  | writeAll (reply : List Char) (len : ℕ)
  /-- `write_all` has been given a length beyond the end of `reply`. -/
  | overread
  /-- `child_loop` has returned, `_exit(0)` is next. -/
  | exit
  | exited (how : ChildEnd)
  deriving DecidableEq, Repr

/-- A request; a byte is a `Char`. -/
structure Request where
  text : List Char
  nulFree : '\x00' ∉ text
  one_le_length : 1 ≤ text.length
  length_le : text.length ≤ 127

/-- What a run of the program depends on. -/
structure Config where
  requests : List Request
  /-- The process id of the child. -/
  pid : ℕ
  pid_pos : 0 < pid
  pid_lt : pid < 2 ^ 31
  /-- The number of bytes for which a pipe has room. -/
  capacity : ℕ
  /-- `PIPE_BUF` -/
  le_capacity : 4096 ≤ capacity

/-- Both pipes and both processes. -/
structure State where
  /-- The unread bytes of `parent_to_child`. -/
  parentToChild : List Char
  /-- The unread bytes of `child_to_parent`. -/
  childToParent : List Char
  parent : ParentPc
  /-- The ends that the parent has open. -/
  parentEnds : Finset End
  /-- The loop variable of the parent. -/
  i : ℕ
  /-- The texts printed by the parent. -/
  printed : List (List Char)
  child : ChildPc
  /-- The ends that the child has open. -/
  childEnds : Finset End

/-- Who takes the next step. -/
inductive Action
  | parent
  | child
  /-- The parent's `poll` times out. -/
  | timeout
  deriving DecidableEq, Repr

section Model

variable (c : Config)

/-- `sizeof(reply)` in the child. -/
def replySize : ℕ := 160

/-- The text that `"child pid=%ld processed: %s"` formats. -/
def formatReply (buffer : List Char) : List Char :=
  ['c', 'h', 'i', 'l', 'd', ' ', 'p', 'i', 'd', '='] ++ decimal c.pid ++
    [' ', 'p', 'r', 'o', 'c', 'e', 's', 's', 'e', 'd', ':', ' '] ++ cString buffer

/-- The state after `fork`. -/
def init : State where
  parentToChild := []
  childToParent := []
  parent := .closeRequestRx
  parentEnds := {.requestRx, .requestTx, .replyRx, .replyTx}
  i := 0
  printed := []
  child := .closeRequestTx
  childEnds := {.requestRx, .requestTx, .replyRx, .replyTx}

/-- Some process has the end open. -/
def State.held (s : State) (e : End) : Bool :=
  decide (e ∈ s.parentEnds ∨ e ∈ s.childEnds)

/-- `xclose` in the parent, which goes on at `pc`. -/
def State.parentClose (s : State) (e : End) (pc : ParentPc) : State :=
  { s with parentEnds := s.parentEnds.erase e, parent := pc }

/-- `xclose` in the child, which goes on at `pc`. -/
def State.childClose (s : State) (e : End) (pc : ChildPc) : State :=
  { s with childEnds := s.childEnds.erase e, child := pc }

/-- The parent ends. -/
def State.parentExit (s : State) (how : ParentEnd) : State :=
  { s with parentEnds := ∅, parent := .exited how }

/-- The child ends. -/
def State.childExit (s : State) (how : ChildEnd) : State :=
  { s with childEnds := ∅, child := .exited how }

/-- The parent at the test of its loop. -/
def loopTest (i : ℕ) : ParentPc :=
  if i < c.requests.length then .writeAll else .closeRequestTx

/-- The next statement of the parent, `none` while it blocks and after its end. -/
def parentStep (s : State) : Option State :=
  match s.parent with
  | .closeRequestRx => some (s.parentClose .requestRx .closeReplyTx)
  | .closeReplyTx => some (s.parentClose .replyTx (loopTest c 0))
  | .writeAll => do
    let request ← c.requests[s.i]?
    let buffer := request.text ++ ['\x00']
    let strlen := (cString buffer).length
    match ← Pipe.write c.capacity (s.held .requestRx) s.parentToChild
      (WriteAll.atOnce buffer strlen) with
    | .sigpipe => some (s.parentExit .sigpipe)
    | .wrote bytes => some { s with parentToChild := bytes, parent := .poll }
  | .poll =>
    if Pipe.ready (s.held .replyTx) s.childToParent then some { s with parent := .read } else none
  | .read => do
    let (data, rest) ← Pipe.read 159 (s.held .replyTx) s.childToParent
    -- `n <= 0`
    if data = [] then some (s.parentExit .readReply)
    else
      some { s with
        childToParent := rest
        parent := loopTest c (s.i + 1)
        i := s.i + 1
        printed := s.printed ++ [cString (data ++ ['\x00'])] }
  | .closeRequestTx => some (s.parentClose .requestTx .closeReplyRx)
  | .closeReplyRx => some (s.parentClose .replyRx .waitForPid)
  | .waitForPid =>
    -- the exit status of the child is not looked at
    match s.child with
    | .exited _ => some (s.parentExit .returned)
    | _ => none
  | .exited _ => none

/-- The next statement of the child, `none` while it blocks and after its end. -/
def childStep (s : State) : Option State :=
  match s.child with
  | .closeRequestTx => some (s.childClose .requestTx .closeReplyRx)
  | .closeReplyRx => some (s.childClose .replyRx .read)
  | .read => do
    let (data, rest) ← Pipe.read 127 (s.held .requestTx) s.parentToChild
    -- `n <= 0` ends the loop
    if data = [] then some { s with child := .exit }
    else
      let (len, reply) := snprintf replySize (formatReply c (data ++ ['\x00']))
      some { s with parentToChild := rest, child := .writeAll reply len }
  | .writeAll reply len =>
    -- `snprintf` returns the length of the whole text, also when it has stored less
    if replySize < len then some { s with child := .overread }
    else do
      match ← Pipe.write c.capacity (s.held .replyRx) s.childToParent
        (WriteAll.atOnce (reply ++ ['\x00']) len) with
      | .sigpipe => some (s.childExit .sigpipe)
      | .wrote bytes => some { s with childToParent := bytes, child := .read }
  | .overread => none
  | .exit => some (s.childExit .exited)
  | .exited _ => none

/-- A `poll` with nothing to report times out. -/
def timeoutStep (s : State) : Option State :=
  match s.parent with
  | .poll =>
    if Pipe.ready (s.held .replyTx) s.childToParent then none else some (s.parentExit .timedOut)
  | _ => none

/-- The parent and the child, interleaved. -/
def system : TransitionSystem State Action where
  init := init
  step
    | s, .parent => parentStep c s
    | s, .child => childStep c s
    | s, .timeout => timeoutStep s

/-- The requests that the source sends. -/
def sourceRequests : List Request :=
  [ { text := "read inode\n".toList, nulFree := by decide, one_le_length := by decide,
      length_le := by decide },
    { text := "flush page cache\n".toList, nulFree := by decide, one_le_length := by decide,
      length_le := by decide },
    { text := "sync journal\n".toList, nulFree := by decide, one_le_length := by decide,
      length_le := by decide } ]

end Model

variable {c : Config} {s s' : State}

/-! ## The length of a reply -/

/-- The reply to a request. -/
def replyTo (c : Config) (r : Request) : List Char :=
  ['c', 'h', 'i', 'l', 'd', ' ', 'p', 'i', 'd', '='] ++ decimal c.pid ++
    [' ', 'p', 'r', 'o', 'c', 'e', 's', 's', 'e', 'd', ':', ' '] ++ r.text

/-- What `snprintf` formats for a request. -/
theorem formatReply_request (c : Config) (r : Request) :
    formatReply c (r.text ++ ['\x00']) = replyTo c r := by
  rw [replyTo, formatReply, cString_terminated r.nulFree]

theorem Request.text_ne_nil (r : Request) : r.text ≠ [] :=
  List.ne_nil_of_length_pos r.one_le_length

/-- 22 bytes, the digits of the process id and the request: at most 159. -/
theorem length_replyTo_lt (c : Config) (r : Request) : (replyTo c r).length < replySize := by
  have hdigits : (decimal c.pid).length ≤ 10 :=
    (length_decimal_le_iff (by decide)).mpr (c.pid_lt.trans (by decide))
  have hlength := r.length_le
  simp only [replyTo, List.length_append, List.length_cons, List.length_nil, replySize]
  omega

theorem replyTo_ne_nil (c : Config) (r : Request) : replyTo c r ≠ [] := by
  simp [replyTo]

/-- A reply is a string, because its request is one. -/
theorem nul_notMem_replyTo (c : Config) (r : Request) : '\x00' ∉ replyTo c r := by
  have hdigits : '\x00' ∉ decimal c.pid := fun h => absurd (isDigit_of_mem_decimal h) (by decide)
  simp [replyTo, hdigits, r.nulFree]

/-- `snprintf` stores the whole reply. -/
theorem snprintf_replyTo (c : Config) (r : Request) :
    snprintf replySize (replyTo c r) = ((replyTo c r).length, replyTo c r) :=
  Prod.ext rfl ((snprintf_stored_eq_iff (by decide)).mpr (length_replyTo_lt c r))

/-! ## The invariant -/

namespace ParentPc

/-- The ends that the parent has open at a statement. -/
def ends : ParentPc → Finset End
  | closeRequestRx => {.requestRx, .requestTx, .replyRx, .replyTx}
  | closeReplyTx => {.requestTx, .replyRx, .replyTx}
  | writeAll | poll | read | closeRequestTx => {.requestTx, .replyRx}
  | closeReplyRx => {.replyRx}
  | waitForPid | exited _ => ∅

/-- The range of the loop variable, for `n` requests. -/
def Bound (n i : ℕ) : ParentPc → Prop
  | closeRequestRx | closeReplyTx => i = 0
  | writeAll | poll | read => i < n
  | closeRequestTx | closeReplyRx | waitForPid | exited .returned => i = n
  | exited _ => i < n

/-- No request is under way. -/
def Between : ParentPc → Prop
  | closeRequestRx | closeReplyTx | writeAll | closeRequestTx => True
  | _ => False

/-- The reply to a request is to be read. -/
def Awaits : ParentPc → Prop
  | poll | read => True
  | _ => False

/-- The loop is finished and the write end closed. -/
def Closed : ParentPc → Prop
  | closeReplyRx | waitForPid => True
  | _ => False

end ParentPc

namespace ChildPc

/-- The ends that the child has open at a statement. -/
def ends : ChildPc → Finset End
  | closeRequestTx => {.requestRx, .requestTx, .replyRx, .replyTx}
  | closeReplyRx => {.requestRx, .replyRx, .replyTx}
  | read | writeAll _ _ | overread | exit => {.requestRx, .replyTx}
  | exited _ => ∅

/-- The child has not taken a request. -/
def Idle : ChildPc → Prop
  | closeRequestTx | closeReplyRx | read => True
  | _ => False

/-- The child has not taken a request, or has left its loop at end of file. -/
def IdleOrLeft : ChildPc → Prop
  | closeRequestTx | closeReplyRx | read | exit | exited .exited => True
  | _ => False

end ChildPc

/-- Where the message is that is under way, if any: the next statements of both processes with the
bytes in `parent_to_child` and in `child_to_parent` between them. -/
inductive Exchange (c : Config) (i : ℕ) :
    ParentPc → List Char → List Char → ChildPc → Prop
  | between {pc : ParentPc} {child : ChildPc} (hpc : pc.Between) (hchild : child.Idle) :
      Exchange c i pc [] [] child
  /-- The request is in its pipe. -/
  | sent {r : Request} {child : ChildPc} (hr : c.requests[i]? = some r) (hchild : child.Idle) :
      Exchange c i .poll r.text [] child
  /-- The child has read the request. -/
  | taken {r : Request} (hr : c.requests[i]? = some r) :
      Exchange c i .poll [] [] (.writeAll (replyTo c r) (replyTo c r).length)
  /-- The reply is in its pipe. -/
  | answered {r : Request} {pc : ParentPc} (hr : c.requests[i]? = some r)
      (hpc : pc.Awaits) : Exchange c i pc [] (replyTo c r) .read
  | closed {pc : ParentPc} {child : ChildPc} (hpc : pc.Closed) (hchild : child.IdleOrLeft) :
      Exchange c i pc [] [] child
  | returned : Exchange c i (.exited .returned) [] [] (.exited .exited)
  /-- The parent has given up, before the child has read the request. -/
  | abandoned {r : Request} {child : ChildPc} (hr : c.requests[i]? = some r)
      (hchild : child.Idle) : Exchange c i (.exited .timedOut) r.text [] child
  /-- The parent has given up, and the child has read the request. -/
  | alone {r : Request} (hr : c.requests[i]? = some r) :
      Exchange c i (.exited .timedOut) [] []
        (.writeAll (replyTo c r) (replyTo c r).length)
  /-- The child was killed because the parent has given up. -/
  | killed {r : Request} (hr : c.requests[i]? = some r) :
      Exchange c i (.exited .timedOut) [] [] (.exited .sigpipe)

section Exchange

variable {i : ℕ} {pc : ParentPc} {request reply : List Char} {child : ChildPc}

theorem ChildPc.Idle.idleOrLeft {pc : ChildPc} (h : pc.Idle) : pc.IdleOrLeft := by
  cases pc <;> first | exact h.elim | trivial

/-- Closing an end does not matter to the message under way. -/
theorem Exchange.of_close {child' : ChildPc} (h : Exchange c i pc request reply child)
    (hchild : child = .closeRequestTx ∨ child = .closeReplyRx) (hchild' : child'.Idle) :
    Exchange c i pc request reply child' := by
  cases h
  case between hpc _ => exact .between hpc hchild'
  case sent hr _ => exact .sent hr hchild'
  case closed hpc _ => exact .closed hpc hchild'.idleOrLeft
  case abandoned hr _ => exact .abandoned hr hchild'
  all_goals rcases hchild with h | h <;> cases h

/-- A child with a reply to write has read the request of this round. -/
theorem Exchange.of_writeAll {text : List Char} {len : ℕ}
    (h : Exchange c i pc request reply (.writeAll text len)) :
    ∃ r, c.requests[i]? = some r ∧ text = replyTo c r ∧ len = (replyTo c r).length ∧
      request = [] ∧ reply = [] ∧ (pc = .poll ∨ pc = .exited .timedOut) := by
  cases h with
  | between _ h => exact h.elim
  | sent _ h => exact h.elim
  | taken hr => exact ⟨_, hr, rfl, rfl, rfl, rfl, .inl rfl⟩
  | closed _ h => exact h.elim
  | abandoned _ h => exact h.elim
  | alone hr => exact ⟨_, hr, rfl, rfl, rfl, rfl, .inr rfl⟩

/-- No reply is longer than its buffer. -/
theorem Exchange.not_overread : ¬Exchange c i pc request reply .overread := by
  intro h
  cases h with
  | between _ h => exact h.elim
  | sent _ h => exact h.elim
  | closed _ h => exact h.elim
  | abandoned _ h => exact h.elim

/-- The pipe to the child is empty, or contains the request of this round. -/
theorem Exchange.request_eq (h : Exchange c i pc request reply child) :
    request = [] ∨ ∃ r : Request, request = r.text := by
  cases h with
  | sent => exact .inr ⟨_, rfl⟩
  | abandoned => exact .inr ⟨_, rfl⟩
  | _ => exact .inl rfl

/-- A child that has left its loop without being killed has seen the parent's write end closed. -/
theorem Exchange.of_exit (h : Exchange c i pc request reply .exit) :
    pc.Closed ∧ request = [] ∧ reply = [] := by
  cases h with
  | between _ h => exact h.elim
  | sent _ h => exact h.elim
  | closed hpc _ => exact ⟨hpc, rfl, rfl⟩
  | abandoned _ h => exact h.elim

/-- The parent returns or gives up, and has no other end. -/
theorem Exchange.parent_end {how : ParentEnd}
    (h : Exchange c i (.exited how) request reply child) : how = .returned ∨ how = .timedOut := by
  cases h with
  | between h _ => exact h.elim
  | answered _ h => exact h.elim
  | closed h _ => exact h.elim
  | returned => exact .inl rfl
  | abandoned | alone | killed => exact .inr rfl

/-- The parent calls `read` only when the reply is there. -/
theorem Exchange.of_read (h : Exchange c i .read request reply child) :
    ∃ r, c.requests[i]? = some r ∧ reply = replyTo c r := by
  cases h with
  | between h _ => exact h.elim
  | answered hr _ => exact ⟨_, hr, rfl⟩
  | closed h _ => exact h.elim

end Exchange

/-- The invariant of all runs. -/
structure Inv (c : Config) (s : State) : Prop where
  parentEnds : s.parentEnds = s.parent.ends
  childEnds : s.childEnds = s.child.ends
  bound : s.parent.Bound c.requests.length s.i
  printed : s.printed = (c.requests.take s.i).map (replyTo c)
  exchange : Exchange c s.i s.parent s.parentToChild s.childToParent s.child

theorem Inv.init : Inv c init where
  parentEnds := rfl
  childEnds := rfl
  bound := rfl
  printed := rfl
  exchange := .between trivial trivial

/-- At the test of its loop the parent is within the bounds of the loop. -/
theorem bound_loopTest {i : ℕ} (h : i ≤ c.requests.length) :
    (loopTest c i).Bound c.requests.length i := by
  unfold loopTest
  split
  · assumption
  · exact Nat.le_antisymm h (Nat.le_of_not_lt ‹_›)

/-- At the test of its loop no request is under way. -/
theorem between_loopTest (c : Config) (i : ℕ) : (loopTest c i).Between := by
  unfold loopTest
  split <;> trivial

/-- In its loop the parent has the ends open that it uses. -/
theorem ends_loopTest (c : Config) (i : ℕ) : (loopTest c i).ends = {.requestTx, .replyRx} := by
  unfold loopTest
  split <;> rfl

/-- What `write_all` sends of a request. -/
theorem atOnce_request (r : Request) :
    WriteAll.atOnce (r.text ++ ['\x00']) (cString (r.text ++ ['\x00'])).length = r.text := by
  rw [WriteAll.atOnce_eq, cString_terminated r.nulFree, List.take_left]

/-- The one read of the parent gets the one reply. -/
theorem read_replyTo (c : Config) (r : Request) (writer : Bool) :
    Pipe.read 159 writer (replyTo c r) = some (replyTo c r, []) :=
  Pipe.read_of_length_le writer (replyTo_ne_nil c r) (Nat.le_of_lt_succ (length_replyTo_lt c r))

/-- A pipe has room for a request. -/
theorem length_request_le (c : Config) (r : Request) :
    ([] : List Char).length + r.text.length ≤ c.capacity := by
  have := r.length_le
  have := c.le_capacity
  simp only [List.length_nil]
  omega

/-- An end that the parent has open is open. -/
theorem State.held_of_parent {e : End} (h : e ∈ s.parentEnds) : s.held e = true :=
  decide_eq_true (.inl h)

/-- An end that the child has open is open. -/
theorem State.held_of_child {e : End} (h : e ∈ s.childEnds) : s.held e = true :=
  decide_eq_true (.inr h)

/-- As long as the child runs, it has the ends open that it uses. -/
theorem ChildPc.mem_ends {pc : ChildPc} (h : ∀ how, pc ≠ exited how) :
    .requestRx ∈ pc.ends ∧ .replyTx ∈ pc.ends := by
  cases pc with
  | exited how => exact absurd rfl (h how)
  | _ => constructor <;> simp [ends]

theorem ChildPc.Idle.ne_exited {pc : ChildPc} (h : pc.Idle) (how : ChildEnd) :
    pc ≠ exited how := by
  rintro rfl
  exact h.elim

/-- The parent sends the request of this round. -/
theorem parentStep_writeAll {r : Request} (hpc : s.parent = .writeAll)
    (hr : c.requests[s.i]? = some r) (hrequest : s.parentToChild = [])
    (hheld : s.held .requestRx = true) :
    parentStep c s = some { s with parentToChild := r.text, parent := .poll } := by
  simp only [parentStep, hpc, hr, Option.bind_eq_bind, Option.bind_some, atOnce_request, hrequest,
    hheld, Pipe.write_of_le (length_request_le c r), List.nil_append]

/-- With the reply in the pipe `poll` returns. -/
theorem parentStep_poll {r : Request} (hpc : s.parent = .poll)
    (hreply : s.childToParent = replyTo c r) :
    parentStep c s = some { s with parent := .read } := by
  simp only [parentStep, hpc, hreply, Pipe.ready_of_ne_nil _ (replyTo_ne_nil c r), if_true]

/-- The parent does not return from `poll` as long as the child is at work. -/
theorem parentStep_poll_blocked (hpc : s.parent = .poll) (hreply : s.childToParent = [])
    (hheld : s.held .replyTx = true) : parentStep c s = none := by
  simp only [parentStep, hpc, hreply, hheld]
  rfl

/-- The parent reads the reply that is in the pipe, all of it, and prints it. -/
theorem parentStep_read {r : Request} (hpc : s.parent = .read)
    (hreply : s.childToParent = replyTo c r) :
    parentStep c s = some { s with
      childToParent := []
      parent := loopTest c (s.i + 1)
      i := s.i + 1
      printed := s.printed ++ [replyTo c r] } := by
  simp only [parentStep, hpc, hreply, read_replyTo, Option.bind_eq_bind, Option.bind_some,
    if_neg (replyTo_ne_nil c r), cString_terminated (nul_notMem_replyTo c r)]

/-- The parent sends a request, or takes the reply to the one it has sent. -/
theorem Inv.of_parentStep (h : Inv c s) (hs : parentStep c s = some s') : Inv c s' := by
  obtain ⟨parentToChild, childToParent, parent, parentEnds, i, printed, child, childEnds⟩ := s
  obtain ⟨hparentEnds, hchildEnds, hbound, hprinted, hexchange⟩ := h
  dsimp only at hparentEnds hchildEnds hbound hprinted hexchange
  subst hparentEnds hchildEnds
  -- where the message is leaves the parent few statements to be at
  cases hexchange
  case between hpc hchild =>
    cases parent <;> try exact hpc.elim
    case closeRequestRx =>
      obtain rfl := Option.some.inj hs
      exact ⟨rfl, rfl, hbound, hprinted, .between trivial hchild⟩
    case closeReplyTx =>
      obtain rfl := Option.some.inj hs
      obtain rfl : i = 0 := hbound
      exact ⟨(ends_loopTest c 0).symm, rfl, bound_loopTest (Nat.zero_le _), hprinted,
        .between (between_loopTest c 0) hchild⟩
    case writeAll =>
      obtain ⟨r, hr⟩ : ∃ r, c.requests[i]? = some r := ⟨_, List.getElem?_eq_getElem hbound⟩
      rw [parentStep_writeAll rfl hr rfl
        (State.held_of_child (ChildPc.mem_ends hchild.ne_exited).1)] at hs
      obtain rfl := Option.some.inj hs
      exact ⟨rfl, rfl, hbound, hprinted, .sent hr hchild⟩
    case closeRequestTx =>
      obtain rfl := Option.some.inj hs
      exact ⟨rfl, rfl, hbound, hprinted, .closed trivial hchild.idleOrLeft⟩
  case sent r hr hchild =>
    -- the child has the write end open and has written nothing
    rw [parentStep_poll_blocked rfl rfl
      (State.held_of_child (ChildPc.mem_ends hchild.ne_exited).2)] at hs
    cases hs
  case taken r hr =>
    rw [parentStep_poll_blocked rfl rfl (by rfl)] at hs
    cases hs
  case answered r hr hpc =>
    cases parent <;> try exact hpc.elim
    case poll =>
      rw [parentStep_poll rfl rfl] at hs
      obtain rfl := Option.some.inj hs
      exact ⟨rfl, rfl, hbound, hprinted, .answered hr trivial⟩
    case read =>
      rw [parentStep_read rfl rfl] at hs
      obtain rfl := Option.some.inj hs
      refine ⟨(ends_loopTest c (i + 1)).symm, rfl, bound_loopTest hbound, ?_,
        .between (between_loopTest c (i + 1)) trivial⟩
      -- the reply just read is that to request `i`
      rw [List.take_add_one, hr, List.map_append, ← hprinted]
      rfl
  case closed hpc hchild =>
    cases parent <;> try exact hpc.elim
    case closeReplyRx =>
      obtain rfl := Option.some.inj hs
      exact ⟨rfl, rfl, hbound, hprinted, .closed trivial hchild⟩
    case waitForPid =>
      -- only a child that has ended lets `wait_for_pid` return
      cases child <;> try cases hs
      case exited how =>
        cases how
        · exact ⟨rfl, rfl, hbound, hprinted, .returned⟩
        · exact hchild.elim
  case returned => cases hs
  case abandoned => cases hs
  case alone => cases hs
  case killed => cases hs

/-- The parent gives up only while the request or its reply is not there yet. -/
theorem Inv.of_timeoutStep (h : Inv c s) (hs : timeoutStep s = some s') : Inv c s' := by
  obtain ⟨parentToChild, childToParent, parent, parentEnds, i, printed, child, childEnds⟩ := s
  obtain ⟨hparentEnds, hchildEnds, hbound, hprinted, hexchange⟩ := h
  dsimp only at hparentEnds hchildEnds hbound hprinted hexchange
  subst hparentEnds hchildEnds
  cases parent <;> simp only [timeoutStep, reduceCtorEq] at hs
  case poll =>
    split at hs
    · cases hs
    next hready =>
      obtain rfl := Option.some.inj hs
      cases hexchange
      case between hpc _ => exact hpc.elim
      case sent r hr hchild => exact ⟨rfl, rfl, hbound, hprinted, .abandoned hr hchild⟩
      case taken r hr => exact ⟨rfl, rfl, hbound, hprinted, .alone hr⟩
      case answered r hr _ => exact absurd (Pipe.ready_of_ne_nil _ (replyTo_ne_nil c r)) hready
      case closed hpc _ => exact hpc.elim

/-! ### The child -/

/-- The child reads the request that is in the pipe. -/
theorem childStep_read {r : Request} (hpc : s.child = .read) (hrequest : s.parentToChild = r.text) :
    childStep c s = some { s with
      parentToChild := []
      child := .writeAll (replyTo c r) (replyTo c r).length } := by
  simp only [childStep, hpc, hrequest, Pipe.read_of_length_le _ r.text_ne_nil r.length_le,
    Option.bind_eq_bind, Option.bind_some, if_neg r.text_ne_nil]
  rw [formatReply_request, snprintf_replyTo]

/-- The child blocks in its `read` as long as the pipe is empty and has a writer. -/
theorem childStep_read_blocked (hpc : s.child = .read) (hrequest : s.parentToChild = [])
    (hheld : s.held .requestTx = true) : childStep c s = none := by
  simp only [childStep, hpc, hrequest, hheld]
  rfl

/-- The child leaves its loop at end of file. -/
theorem childStep_read_end (hpc : s.child = .read) (hrequest : s.parentToChild = [])
    (hheld : s.held .requestTx = false) : childStep c s = some { s with child := .exit } := by
  simp only [childStep, hpc, hrequest, hheld]
  rfl

/-- The child writes its reply. -/
theorem childStep_writeAll {r : Request}
    (hpc : s.child = .writeAll (replyTo c r) (replyTo c r).length)
    (hreply : s.childToParent = []) (hheld : s.held .replyRx = true) :
    childStep c s = some { s with childToParent := replyTo c r, child := .read } := by
  have hlength := length_replyTo_lt c r
  have hroom : ([] : List Char).length + (replyTo c r).length ≤ c.capacity := by
    have := c.le_capacity
    simp only [replySize, List.length_nil] at hlength ⊢
    omega
  simp only [childStep, hpc, if_neg (Nat.not_lt_of_lt hlength), hreply, hheld,
    WriteAll.atOnce_eq, List.take_left, Pipe.write_of_le hroom, Option.bind_eq_bind,
    Option.bind_some, List.nil_append]

/-- Without a reader the child is killed. -/
theorem childStep_writeAll_sigpipe {r : Request}
    (hpc : s.child = .writeAll (replyTo c r) (replyTo c r).length)
    (hheld : s.held .replyRx = false) : childStep c s = some (s.childExit .sigpipe) := by
  have hlength := length_replyTo_lt c r
  simp only [childStep, hpc, if_neg (Nat.not_lt_of_lt hlength), hheld]
  rfl

/-- The parent has its write end open while a request is to come or under way. -/
theorem ParentPc.requestTx_mem {pc : ParentPc} (h : pc.Between ∨ pc.Awaits) :
    .requestTx ∈ pc.ends := by
  rcases h with h | h <;> cases pc <;> first | exact h.elim | decide

/-- After the end of its loop the parent has it closed, and so has the child when it reads. -/
theorem ParentPc.Closed.held_eq_false (h : s.parent.Closed) (hparent : s.parentEnds = s.parent.ends)
    (hchild : s.childEnds = ChildPc.read.ends) : s.held .requestTx = false := by
  rw [State.held, hparent, hchild]
  cases hpc : s.parent <;> rw [hpc] at h <;> first | exact h.elim | decide

/-- The child takes a request and answers it. -/
theorem Inv.of_childStep (h : Inv c s) (hs : childStep c s = some s') : Inv c s' := by
  obtain ⟨parentToChild, childToParent, parent, parentEnds, i, printed, child, childEnds⟩ := s
  obtain ⟨hparentEnds, hchildEnds, hbound, hprinted, hexchange⟩ := h
  dsimp only at hparentEnds hchildEnds hbound hprinted hexchange
  subst hparentEnds hchildEnds
  cases child
  case closeRequestTx =>
    obtain rfl := Option.some.inj hs
    exact ⟨rfl, rfl, hbound, hprinted, hexchange.of_close (.inl rfl) trivial⟩
  case closeReplyRx =>
    obtain rfl := Option.some.inj hs
    exact ⟨rfl, rfl, hbound, hprinted, hexchange.of_close (.inr rfl) trivial⟩
  case read =>
    cases hexchange
    case between hpc _ =>
      -- the parent has its write end open, so this is not the end of file
      rw [childStep_read_blocked rfl rfl
        (State.held_of_parent (ParentPc.requestTx_mem (.inl hpc)))] at hs
      cases hs
    case sent r hr _ =>
      rw [childStep_read rfl rfl] at hs
      obtain rfl := Option.some.inj hs
      exact ⟨rfl, rfl, hbound, hprinted, .taken hr⟩
    case answered r hr hpc =>
      rw [childStep_read_blocked rfl rfl
        (State.held_of_parent (ParentPc.requestTx_mem (.inr hpc)))] at hs
      cases hs
    case closed hpc _ =>
      -- nobody has the write end any more: the child closed its own before its loop
      have hheld := hpc.held_eq_false
        (s := ⟨[], [], parent, parent.ends, i, printed, .read, ChildPc.read.ends⟩) rfl rfl
      rw [childStep_read_end rfl rfl hheld] at hs
      obtain rfl := Option.some.inj hs
      exact ⟨rfl, rfl, hbound, hprinted, .closed hpc trivial⟩
    case abandoned r hr _ =>
      rw [childStep_read rfl rfl] at hs
      obtain rfl := Option.some.inj hs
      exact ⟨rfl, rfl, hbound, hprinted, .alone hr⟩
  case writeAll text len =>
    obtain ⟨r, hr, rfl, rfl, rfl, rfl, rfl | rfl⟩ := hexchange.of_writeAll
    -- the parent waits for the reply, or has given up
    · rw [childStep_writeAll rfl rfl (by rfl)] at hs
      obtain rfl := Option.some.inj hs
      exact ⟨rfl, rfl, hbound, hprinted, .answered hr trivial⟩
    · rw [childStep_writeAll_sigpipe rfl (by rfl)] at hs
      obtain rfl := Option.some.inj hs
      exact ⟨rfl, rfl, hbound, hprinted, .killed hr⟩
  case exit =>
    obtain ⟨hpc, rfl, rfl⟩ := hexchange.of_exit
    obtain rfl := Option.some.inj hs
    exact ⟨rfl, rfl, hbound, hprinted, .closed hpc trivial⟩
  all_goals cases hs

/-- The invariant holds along every run. -/
theorem inv_of_reachable (h : (system c).Reachable s) : Inv c s := by
  refine h.invariant Inv.init fun s a s' hinv hstep => ?_
  cases a with
  | parent => exact hinv.of_parentStep hstep
  | child => exact hinv.of_childStep hstep
  | timeout => exact hinv.of_timeoutStep hstep

end FullDuplexPipePoll
