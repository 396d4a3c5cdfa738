import Mathlib.Data.Int.Init
import OsPrograms.Lib.MessageQueue
import OsPrograms.Lib.TransitionSystem

/-!
# A request and its reply on one queue (`sysv_request_reply`)

The client, which is the parent, sends a request of type 1 and waits for a message whose type is its
process id; the server, its child, takes a message of type 1 and answers it with a message of the
type the request asks for. Neither looks at what `msgrcv` returns.

The two kinds of messages are told apart by their types, which are different unless the process id
of the client is 1, as it is for the first process of a container. The client then finds its own
request, which is longer than the reply it asks for, and `msgrcv` fails.

## Main results

- `Inv`: the states that the program can be in.
- `request_reply_iff`: the client gets its reply and the server its request in every run in which
  the client does not look for a message of type 1 while the request is in the queue, and in all
  runs exactly when the client's process id is not 1.
-/

namespace SysvRequestReply

/-- What follows the type in a message. -/
inductive Body
  /-- `struct request` without its type. -/
  | request (replyType : ℕ) (a b : ℤ)
  /-- `struct reply` without its type. -/
  | reply (sum product : ℤ)
  deriving DecidableEq, Repr

/-- A message. -/
structure Message where
  type : ℕ
  body : Body
  deriving DecidableEq, Repr

/-- The number of bytes that follow the type. -/
def Message.size (m : Message) : ℕ :=
  match m.body with
  | .request .. => 16
  | .reply .. => 8

/-- `z` fits an `int`: it is between `INT_MIN` and `INT_MAX`. -/
def FitsInt (z : ℤ) : Prop :=
  -2147483648 ≤ z ∧ z ≤ 2147483647

/-- What a run of the program depends on. -/
structure Config where
  /-- The process id of the client. -/
  pid : ℕ
  a : ℤ
  b : ℤ
  one_le_pid : 1 ≤ pid
  fits_a : FitsInt a
  fits_b : FitsInt b
  fits_sum : FitsInt (a + b)
  fits_product : FitsInt (a * b)

/-- The next statement of the client. -/
inductive ClientPc
  | fork
  | msgsnd
  | msgrcv
  /-- `printf` of the reply; `none` when it was not filled in. -/
  | printf (rep : Option (ℤ × ℤ))
  /-- `wait_for_pid(server)` -/
  | wait
  /-- `msgctl(qid, IPC_RMID, NULL)` -/
  | rmid
  | done
  deriving DecidableEq, Repr

/-- The next statement of the server. -/
inductive ServerPc
  | unborn
  | msgrcv
  | msgsnd (rep : Message)
  /-- `_exit(0)` -/
  | exit
  | exited
  /-- The request was not filled in. -/
  | undefined
  deriving DecidableEq, Repr

/-- The state of both processes and the queue. -/
structure State where
  /-- The messages in the queue, the oldest one first. -/
  queue : List Message
  client : ClientPc
  server : ServerPc
  /-- What the client's `msgrcv` has returned, `none` in it for a failure. -/
  clientGot : Option (Option Message)
  /-- What the server's `msgrcv` has returned. -/
  serverGot : Option (Option Message)
  /-- The sum and the product that the client has printed. -/
  printed : Option (Option (ℤ × ℤ))
  deriving DecidableEq, Repr

/-- Who takes the next step. -/
inductive Action
  | client
  | server
  deriving DecidableEq, Repr

/-- `msg_qbytes`, the number of bytes the queue can hold. -/
def capacity : ℕ := 16384

/-- The sum and the product in a message that is taken for a reply. -/
def Message.asReply (m : Message) : Option (ℤ × ℤ) :=
  match m.body with
  | .request .. => none
  | .reply sum product => some (sum, product)

section Model

variable (c : Config)

/-- The client's request. -/
def request : Message where
  type := 1
  body := .request c.pid c.a c.b

/-- The next statement of the client. -/
def clientStep (s : State) : Option State :=
  match s.client with
  | .fork => some { s with client := .msgsnd, server := .msgrcv }
  | .msgsnd =>
    (MessageQueue.send Message.size capacity s.queue (request c)).map fun queue =>
      { s with queue := queue, client := .msgrcv }
  | .msgrcv =>
    match MessageQueue.msgrcv Message.type Message.size 8 c.pid s.queue with
    | .blocked => none
    -- the result is not checked, and `rep` has no value
    | .tooLong => some { s with client := .printf none, clientGot := some none }
    | .received m queue => some { s with
        queue := queue
        client := .printf m.asReply
        clientGot := some (some m) }
  | .printf rep => some { s with client := .wait, printed := some rep }
  | .wait => if s.server = .exited then some { s with client := .rmid } else none
  -- the queue is removed with all that is in it
  | .rmid => some { s with queue := [], client := .done }
  | .done => none

/-- The next statement of the server. -/
def serverStep (s : State) : Option State :=
  match s.server with
  | .msgrcv =>
    match MessageQueue.msgrcv Message.type Message.size 16 1 s.queue with
    | .blocked => none
    | .tooLong => some { s with server := .undefined, serverGot := some none }
    | .received m queue =>
      match m.body with
      | .request replyType a b => some { s with
          queue := queue
          server := .msgsnd { type := replyType, body := .reply (a + b) (a * b) }
          serverGot := some (some m) }
      | .reply .. => some { s with
          queue := queue
          server := .undefined
          serverGot := some (some m) }
  | .msgsnd rep =>
    (MessageQueue.send Message.size capacity s.queue rep).map fun queue =>
      { s with queue := queue, server := .exit }
  | .exit => some { s with server := .exited }
  | .unborn | .exited | .undefined => none

/-- The system. -/
def system : TransitionSystem State Action where
  init :=
    { queue := []
      client := .fork
      server := .unborn
      clientGot := none
      serverGot := none
      printed := none }
  step s
    | .client => clientStep c s
    | .server => serverStep s

/-- The reply to the client's request. -/
def reply : Message where
  type := c.pid
  body := .reply (c.a + c.b) (c.a * c.b)

/-! ## The reachable states -/

/-- How far the server is with a request that the client has sent and a reply that it has not
received. -/
inductive Flow : List Message → ServerPc → Option (Option Message) → Prop
  | requested : Flow [request c] .msgrcv none
  | working : Flow [] (.msgsnd (reply c)) (some (some (request c)))
  | replied {server : ServerPc} : server = .exit ∨ server = .exited →
      Flow [reply c] server (some (some (request c)))

/-- The client after its `msgrcv`, which left `rep`: where it is, what it has printed, and what it
has waited for. -/
inductive Tail (rep : Option (ℤ × ℤ)) : ClientPc → Option (Option (ℤ × ℤ)) → ServerPc → Prop
  | printf {server : ServerPc} : Tail rep (.printf rep) none server
  | wait {server : ServerPc} : Tail rep .wait (some rep) server
  | rmid : Tail rep .rmid (some rep) .exited

/-- How the client's `msgrcv` can have ended, and what it then prints. -/
inductive Outcome : Option Message → Option (ℤ × ℤ) → Prop
  | answered : Outcome (some (reply c)) (some (c.a + c.b, c.a * c.b))
  | failed : c.pid = 1 → Outcome none none

/-- The states that the program can be in. -/
inductive Inv : State → Prop
  | fork : Inv
      { queue := [], client := .fork, server := .unborn, clientGot := none, serverGot := none,
        printed := none }
  | send : Inv
      { queue := [], client := .msgsnd, server := .msgrcv, clientGot := none, serverGot := none,
        printed := none }
  | receive {queue : List Message} {server : ServerPc} {got : Option (Option Message)} :
      Flow c queue server got → Inv
        { queue := queue, client := .msgrcv, server := server, clientGot := none,
          serverGot := got, printed := none }
  | answered {client : ClientPc} {server : ServerPc} {printed : Option (Option (ℤ × ℤ))} :
      server = .exit ∨ server = .exited →
        Tail (some (c.a + c.b, c.a * c.b)) client printed server → Inv
          { queue := [], client := client, server := server, clientGot := some (some (reply c)),
            serverGot := some (some (request c)), printed := printed }
  | failed {queue : List Message} {client : ClientPc} {server : ServerPc}
      {got : Option (Option Message)} {printed : Option (Option (ℤ × ℤ))} :
      c.pid = 1 → Flow c queue server got → Tail none client printed server → Inv
        { queue := queue, client := client, server := server, clientGot := some none,
          serverGot := got, printed := printed }
  | done {result : Option Message} {rep : Option (ℤ × ℤ)} : Outcome c result rep → Inv
      { queue := [], client := .done, server := .exited, clientGot := some result,
        serverGot := some (some (request c)), printed := some rep }

end Model

section Invariant

variable {c : Config} {s s' : State}

/-- The client's `msgrcv`, when the server is this far. -/
theorem Flow.client_msgrcv {queue : List Message} {server : ServerPc}
    {got : Option (Option Message)} (h : Flow c queue server got) :
    (queue = [request c] ∧ c.pid = 1 ∧
        MessageQueue.msgrcv Message.type Message.size 8 c.pid queue = .tooLong) ∨
      ((server = .exit ∨ server = .exited) ∧ got = some (some (request c)) ∧
        MessageQueue.msgrcv Message.type Message.size 8 c.pid queue = .received (reply c) []) ∨
      (server ≠ .exited ∧
        MessageQueue.msgrcv Message.type Message.size 8 c.pid queue = .blocked) := by
  cases h with
  | requested =>
    -- with process id 1 the client asks for messages of the request's type
    by_cases hpid : c.pid = 1
    · refine .inl ⟨rfl, hpid, ?_⟩
      simp [MessageQueue.msgrcv, MessageQueue.receive, request, Message.size, hpid]
    · refine .inr (.inr ⟨by simp, ?_⟩)
      simp [MessageQueue.msgrcv, MessageQueue.receive, request, Ne.symm hpid]
  | working => exact .inr (.inr ⟨by simp, rfl⟩)
  | replied hserver =>
    refine .inr (.inl ⟨hserver, rfl, ?_⟩)
    simp [MessageQueue.msgrcv, MessageQueue.receive, reply, Message.size]

/-- A server that is this far can move until it has exited, and only it and the queue change. -/
theorem Flow.serverStep (h : Flow c s.queue s.server s.serverGot) :
    (s.server = .exited ∧ serverStep s = none) ∨
      (s.server ≠ .exited ∧ ∃ queue server got, Flow c queue server got ∧
        serverStep s = some { s with queue := queue, server := server, serverGot := got }) := by
  obtain ⟨queue, client, server, clientGot, serverGot, printed⟩ := s
  cases h with
  | requested =>
    refine .inr ⟨by simp, _, _, _, .working, ?_⟩
    simp [SysvRequestReply.serverStep, MessageQueue.msgrcv, MessageQueue.receive, request, reply,
      Message.size]
  | working =>
    refine .inr ⟨by simp, _, _, _, .replied (.inl rfl), ?_⟩
    simp [SysvRequestReply.serverStep, MessageQueue.send, MessageQueue.bytes, reply, Message.size,
      capacity]
  | replied hpc =>
    rcases hpc with rfl | rfl
    · exact .inr ⟨by simp, _, _, _, .replied (.inr rfl), rfl⟩
    · exact .inl ⟨rfl, rfl⟩

/-- The client waits for the end of the server only in `wait_for_pid`. -/
theorem Tail.of_ne_exited {rep : Option (ℤ × ℤ)} {client : ClientPc}
    {printed : Option (Option (ℤ × ℤ))} {server server' : ServerPc}
    (h : Tail rep client printed server) (hserver : server ≠ .exited) :
    Tail rep client printed server' := by
  cases h with
  | printf => exact .printf
  | wait => exact .wait
  | rmid => exact absurd rfl hserver

/-- The steps of the client after its `msgrcv`: it can always move, except while it waits for the
server. -/
theorem Tail.clientStep {rep : Option (ℤ × ℤ)} (h : Tail rep s.client s.printed s.server) :
    (∃ client printed, Tail rep client printed s.server ∧
        clientStep c s = some { s with client := client, printed := printed }) ∨
      (s.server = .exited ∧ s.printed = some rep ∧
        clientStep c s = some { s with queue := [], client := .done }) ∨
      (s.server ≠ .exited ∧ clientStep c s = none) := by
  obtain ⟨queue, client, server, clientGot, serverGot, printed⟩ := s
  cases h with
  | printf => exact .inl ⟨_, _, .wait, rfl⟩
  | wait =>
    by_cases hserver : server = .exited
    · subst hserver
      exact .inl ⟨_, _, .rmid, rfl⟩
    · exact .inr (.inr ⟨hserver, if_neg hserver⟩)
  | rmid => exact .inr (.inl ⟨rfl, rfl, rfl⟩)

/-- After the end of the server the client can move. -/
theorem Tail.clientStep_ne_none {rep : Option (ℤ × ℤ)} (h : Tail rep s.client s.printed s.server)
    (hserver : s.server = .exited) : SysvRequestReply.clientStep c s ≠ none := by
  rcases h.clientStep (c := c) with ⟨_, _, -, heq⟩ | ⟨-, -, heq⟩ | ⟨hne, -⟩
  · rw [heq]
    exact Option.some_ne_none _
  · rw [heq]
    exact Option.some_ne_none _
  · exact absurd hserver hne

theorem inv_init : Inv c (system c).init :=
  .fork

/-- A server that has exited has received the request. -/
theorem Flow.serverGot_of_exited {queue : List Message} {got : Option (Option Message)}
    (h : Flow c queue .exited got) : got = some (some (request c)) := by
  cases h
  rfl

/-- The client sends its request and receives the reply, or, as process 1, the request itself. -/
theorem Inv.clientStep (h : Inv c s) (hstep : clientStep c s = some s') : Inv c s' := by
  cases h with
  | fork =>
    obtain rfl := Option.some.inj hstep
    exact .send
  | send =>
    obtain rfl : _ = s' := by
      simpa [SysvRequestReply.clientStep, MessageQueue.send, MessageQueue.bytes, request,
        Message.size, capacity] using hstep
    exact .receive .requested
  | receive hflow =>
    -- it fails, or it gets the reply of a server that is done, or it blocks
    rcases hflow.client_msgrcv with ⟨-, hpid, hrcv⟩ | ⟨hserver, rfl, hrcv⟩ | ⟨-, hrcv⟩ <;>
      simp only [SysvRequestReply.clientStep, hrcv, reduceCtorEq] at hstep
    · obtain rfl := Option.some.inj hstep
      exact .failed hpid hflow .printf
    · obtain rfl := Option.some.inj hstep
      exact .answered hserver .printf
  | answered hserver htail =>
    rcases htail.clientStep (s := State.mk _ _ _ _ _ _) (c := c) with
      ⟨_, _, htail', heq⟩ | ⟨rfl, rfl, heq⟩ | ⟨-, heq⟩
    all_goals
      rw [heq] at hstep
      cases hstep
    · exact .answered hserver htail'
    · exact .done .answered
  | failed hpid hflow htail =>
    rcases htail.clientStep (s := State.mk _ _ _ _ _ _) (c := c) with
      ⟨_, _, htail', heq⟩ | ⟨rfl, rfl, heq⟩ | ⟨-, heq⟩
    all_goals
      rw [heq] at hstep
      cases hstep
    · exact .failed hpid hflow htail'
    · -- the reply that nobody received goes with the queue
      rw [hflow.serverGot_of_exited]
      exact .done (.failed hpid)
  | done => cases hstep

/-- The server receives the request and sends the reply. -/
theorem Inv.serverStep (h : Inv c s) (hstep : serverStep s = some s') : Inv c s' := by
  cases h with
  | fork | send | done => cases hstep
  | receive hflow =>
    rcases hflow.serverStep (s := State.mk _ _ _ _ _ _) with ⟨-, heq⟩ | ⟨-, _, _, _, hflow', heq⟩
    all_goals
      rw [heq] at hstep
      cases hstep
    exact .receive hflow'
  | answered hserver htail =>
    rcases hserver with rfl | rfl
    all_goals cases hstep
    exact .answered (.inr rfl) (htail.of_ne_exited (by simp))
  | failed hpid hflow htail =>
    rcases hflow.serverStep (s := State.mk _ _ _ _ _ _) with
      ⟨-, heq⟩ | ⟨hserver, _, _, _, hflow', heq⟩
    all_goals
      rw [heq] at hstep
      cases hstep
    exact .failed hpid hflow' (htail.of_ne_exited hserver)

/-- The program stays in these states. -/
theorem inv_step {a : Action} (h : Inv c s) (hstep : (system c).step s a = some s') :
    Inv c s' := by
  cases a with
  | client => exact h.clientStep hstep
  | server => exact h.serverStep hstep

/-- When nobody can move, both have ended. -/
theorem Inv.ended_of_stuck (h : Inv c s) (hstuck : (system c).Stuck s) :
    s.client = .done ∧ s.server = .exited := by
  have hclient : SysvRequestReply.clientStep c s = none := hstuck .client
  have hserver : SysvRequestReply.serverStep s = none := hstuck .server
  cases h with
  | fork => cases hclient
  -- the queue is empty, so there is room
  | send =>
    simp [SysvRequestReply.clientStep, MessageQueue.send, MessageQueue.bytes, request,
      Message.size, capacity] at hclient
  | receive hflow =>
    rcases hflow.serverStep (s := State.mk _ _ _ _ _ _) with ⟨hexited, -⟩ | ⟨-, _, _, _, -, heq⟩
    · -- the reply is there
      rcases hflow.client_msgrcv with ⟨-, -, hrcv⟩ | ⟨-, -, hrcv⟩ | ⟨hne, -⟩
      · simp [SysvRequestReply.clientStep, hrcv] at hclient
      · simp [SysvRequestReply.clientStep, hrcv] at hclient
      · exact absurd hexited hne
    · rw [heq] at hserver
      cases hserver
  | answered hpc htail =>
    rcases hpc with rfl | rfl
    · cases hserver
    · exact absurd hclient (htail.clientStep_ne_none (s := State.mk _ _ _ _ _ _) rfl)
  | failed hpid hflow htail =>
    rcases hflow.serverStep (s := State.mk _ _ _ _ _ _) with ⟨hexited, -⟩ | ⟨-, _, _, _, -, heq⟩
    · exact absurd hclient (htail.clientStep_ne_none (s := State.mk _ _ _ _ _ _) hexited)
    · rw [heq] at hserver
      cases hserver
  | done => exact ⟨rfl, rfl⟩

end Invariant

/-! ## The exchange -/

/-- The client has got the reply and the server the request, as far as their `msgrcv` have
returned; the client has printed the sum and the product; and nobody waits for ever. -/
structure Correct (c : Config) (s : State) : Prop where
  client : ∀ got, s.clientGot = some got → got = some (reply c)
  server : ∀ got, s.serverGot = some got → got = some (request c)
  printed : ∀ rep, s.printed = some rep → rep = some (c.a + c.b, c.a * c.b)
  progress : (system c).Stuck s → s.client = .done ∧ s.server = .exited

/-- With process id 1, the client calls `msgrcv` when its request is no longer in the queue. -/
def RequestTaken (c : Config) (s : State) (a : Action) : Prop :=
  a = .client → s.client = .msgrcv → c.pid = 1 → request c ∉ s.queue

section Exchange

variable {c : Config} {s : State}

/-- What the server receives is the request. -/
theorem Flow.serverGot_eq {queue : List Message} {server : ServerPc} {got : Option Message}
    (h : Flow c queue server (some got)) : got = some (request c) := by
  cases h <;> rfl

/-- What is printed is what was received. -/
theorem Tail.printed_eq {rep rep' : Option (ℤ × ℤ)} {client : ClientPc} {server : ServerPc}
    (h : Tail rep client (some rep') server) : rep' = rep := by
  cases h <;> rfl

/-- The exchange is correct unless the client's `msgrcv` has failed. -/
theorem Inv.correct (h : Inv c s) (hgot : s.clientGot ≠ some none) : Correct c s := by
  have hprogress := h.ended_of_stuck
  cases h with
  | fork | send => exact ⟨by simp, by simp, by simp, hprogress⟩
  | receive hflow =>
    refine ⟨by simp, ?_, by simp, hprogress⟩
    rintro got rfl
    exact hflow.serverGot_eq
  | answered _ htail =>
    refine ⟨by simp, by simp, ?_, hprogress⟩
    rintro rep rfl
    exact htail.printed_eq
  | failed => exact absurd rfl hgot
  | done houtcome =>
    cases houtcome with
    | answered => exact ⟨by simp, by simp, by simp, hprogress⟩
    | failed => exact absurd rfl hgot

/-- The server does not touch what the client has got. -/
theorem clientGot_of_serverStep {s' : State} (hstep : serverStep s = some s') :
    s'.clientGot = s.clientGot := by
  rcases hpc : s.server <;> simp only [serverStep, hpc, reduceCtorEq] at hstep
  case msgrcv =>
    rcases hrcv : MessageQueue.msgrcv Message.type Message.size 16 1 s.queue <;>
      simp only [hrcv, reduceCtorEq] at hstep
    case tooLong =>
      obtain rfl := Option.some.inj hstep
      rfl
    case received m queue =>
      rcases hbody : m.body <;> simp only [hbody] at hstep
      all_goals
        obtain rfl := Option.some.inj hstep
        rfl
  case msgsnd rep =>
    obtain ⟨queue, -, rfl⟩ := Option.map_eq_some_iff.mp hstep
    rfl
  case exit =>
    obtain rfl := Option.some.inj hstep
    rfl

/-- The client's `msgrcv` fails only where it finds its own request. -/
theorem Inv.clientGot_of_step {a : Action} {s' : State} (h : Inv c s)
    (hgot : s.clientGot ≠ some none) (hok : RequestTaken c s a)
    (hstep : (system c).step s a = some s') : s'.clientGot ≠ some none := by
  cases a with
  | server =>
    rw [clientGot_of_serverStep hstep]
    exact hgot
  | client =>
    replace hstep : SysvRequestReply.clientStep c s = some s' := hstep
    cases h with
    | fork =>
      cases hstep
      exact hgot
    | send =>
      simp only [SysvRequestReply.clientStep, Option.map_eq_some_iff] at hstep
      obtain ⟨queue, -, rfl⟩ := hstep
      exact hgot
    | receive hflow =>
      rcases hflow.client_msgrcv with ⟨rfl, hpid, -⟩ | ⟨-, -, hrcv⟩ | ⟨-, hrcv⟩
      -- the own request is still there, which the assumption excludes
      · exact absurd (List.mem_singleton_self _) (hok rfl rfl hpid)
      · simp only [SysvRequestReply.clientStep, hrcv] at hstep
        cases hstep
        simp
      · simp only [SysvRequestReply.clientStep, hrcv] at hstep
        cases hstep
    | answered _ htail =>
      rcases htail.clientStep (s := State.mk _ _ _ _ _ _) (c := c) with
        ⟨_, _, -, heq⟩ | ⟨-, -, heq⟩ | ⟨-, heq⟩
      all_goals
        rw [heq] at hstep
        cases hstep
      all_goals exact hgot
    | failed => exact absurd rfl hgot
    | done => cases hstep

/-- As long as the condition is met, the exchange is correct. -/
theorem correct_of_requestTaken (h : (system c).ReachableVia (RequestTaken c) s) :
    Correct c s := by
  have hinv : Inv c s ∧ s.clientGot ≠ some none := by
    refine h.invariant (P := fun s => Inv c s ∧ s.clientGot ≠ some none)
      ⟨inv_init, by simp [system]⟩ ?_
    intro s a s' hs hok hstep
    exact ⟨inv_step hs.1 hstep, hs.1.clientGot_of_step hs.2 hok hstep⟩
  exact hinv.1.correct hinv.2

/-- With process id 1, the client's `msgrcv` can fail. -/
theorem clientGot_none_reachable (hpid : c.pid = 1) :
    ∃ s, (system c).Reachable s ∧ s.clientGot = some none := by
  have hrun : ∃ s, (system c).run (system c).init [.client, .client, .client] = some s ∧
      s.clientGot = some none := by
    simp [TransitionSystem.run, system, SysvRequestReply.clientStep, MessageQueue.send,
      MessageQueue.bytes, MessageQueue.msgrcv, MessageQueue.receive, request, Message.size,
      capacity, hpid]
  obtain ⟨s, hrun, hgot⟩ := hrun
  exact ⟨s, TransitionSystem.reachable_of_run hrun, hgot⟩

end Exchange

/-- The client gets its reply, prints the sum and the product and the server gets its request: in
every run in which the client, if its process id is 1, calls `msgrcv` after the server has taken the
request; and in all runs exactly when its process id is not 1. -/
theorem request_reply_iff (c : Config) :
    (∀ s, (system c).ReachableVia (RequestTaken c) s → Correct c s) ∧
      ((∀ s, (system c).Reachable s → Correct c s) ↔ c.pid ≠ 1) := by
  refine ⟨fun s hs => correct_of_requestTaken hs, fun hall hpid => ?_, fun hpid s hs => ?_⟩
  · obtain ⟨s, hs, hgot⟩ := clientGot_none_reachable hpid
    cases (hall s hs).client none hgot
  · -- the condition says nothing about other process ids
    refine correct_of_requestTaken (hs.invariant .init fun s a s' hs hstep => ?_)
    exact .step hs (fun _ _ h => absurd h hpid) hstep

/-- The program's own operands in a process with id 1: the client's `msgrcv` fails on its own
request. -/
theorem request_reply_pid_one :
    ¬∀ (c : Config) (s : State), (system c).Reachable s →
      ∀ got, s.clientGot = some got → got = some (reply c) := by
  intro hclaim
  let c : Config :=
    { pid := 1, a := 21, b := 34, one_le_pid := Nat.le_refl 1, fits_a := by unfold FitsInt; decide,
      fits_b := by unfold FitsInt; decide, fits_sum := by unfold FitsInt; decide,
      fits_product := by unfold FitsInt; decide }
  obtain ⟨s, hs, hgot⟩ := clientGot_none_reachable (c := c) rfl
  cases hclaim c s hs none hgot

end SysvRequestReply
