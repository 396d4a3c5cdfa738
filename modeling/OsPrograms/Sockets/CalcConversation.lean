import OsPrograms.Lib.AcceptLoop
import OsPrograms.Lib.SocketStream
import OsPrograms.Sockets.CalcReply

/-!
# A conversation of `unix_calc_client` with `unix_calc_server`

One connection: the client writes its expression, shuts the connection down for writing, reads once
and prints what it has read; the child of the server runs `serve`, which reads once, evaluates and
writes its reply. The kernel chooses how many bytes each call moves.

Either side can find the other one gone. A `write` then fails with an error, which neither
`write_all`'s callers look at, or with `SIGPIPE`, which kills the process. A `read` of the client
with nothing to read returns 0 once the child and the server's main process have both closed the
connection, or fails if they have left a part of the expression unread.

## Main results

- `inv_of_reachable`: `Inv` holds of every state that a connection reaches.
- `Correct`, `correct_of_one`: what this says about the client's output.
- `Inv.ended_of_stuck`: client and child do not wait for each other.
-/

namespace UnixCalc

open AcceptLoop TransitionSystem

/-- Process ids. -/
abbrev Pid := Fin 0x80000000

/-- What the programs and the kernel bring to every conversation. -/
structure Setup (α : Type) where
  strtod : Strtod α
  /-- What `snprintf` makes of `"pid=%ld result=%.3f\n"`. -/
  format : Pid → α → List UInt8
  /-- The sizes of the kernel's buffers towards the server and towards the client. -/
  upCapacity : ℕ
  downCapacity : ℕ
  format_ne_nil : ∀ pid v, format pid v ≠ []
  format_nulFree : ∀ pid v, 0 ∉ format pid v
  format_fits : ∀ pid v, (format pid v).length < bufferSize
  up_pos : 1 ≤ upCapacity

/-- What is fixed for one conversation. -/
structure Job where
  /-- The client's `argv[2]`. -/
  expression : List UInt8
  nulFree : 0 ∉ expression
  /-- The process id of the child. -/
  pid : Pid
  /-- What else the child's stack holds in the array `request`. -/
  junk : List UInt8

/-- The client: the next statement after `connect`. -/
inductive ClientPc
  /-- `write_all`, which has `left` bytes to write. -/
  | write (left : List UInt8)
  /-- `shutdown(fd, SHUT_WR)` -/
  | shutdown
  /-- `read(fd, response, sizeof(response) - 1)` -/
  | read
  /-- After `return 0`, having printed `text`. -/
  | exited (text : List UInt8)
  /-- After `die_errno`. -/
  | died
  /-- Killed by `SIGPIPE`. -/
  | killed
  deriving DecidableEq, Repr

/-- The child: the next statement of `serve`. -/
inductive WorkerPc
  /-- `read(client, request, sizeof(request) - 1)` -/
  | read
  /-- `write_all`, which has `left` bytes to write. -/
  | write (left : List UInt8)
  /-- `xclose(client)`, after `serve` has returned. -/
  | close
  /-- The process is gone. -/
  | exited
  deriving DecidableEq, Repr

structure Talk where
  job : Job
  client : ClientPc
  worker : WorkerPc
  /-- From the client to the child. -/
  up : SocketStream UInt8
  /-- From the child to the client. -/
  down : SocketStream UInt8
  /-- What the child's `read` has returned. -/
  request : List UInt8

/-- A step of the client or the child. `k` is the number of bytes that the kernel moves. -/
inductive Act
  | client (k : ℕ)
  /-- The client's `write` fails. -/
  | clientFails (killed : Bool)
  /-- The client's `read` fails with `ECONNRESET`. -/
  | clientReset
  | worker (k : ℕ)
  /-- The child's `write` fails. -/
  | workerFails (killed : Bool)

/-- The client process is gone. -/
def ClientPc.Gone : ClientPc → Prop
  | .exited _ | .died | .killed => True
  | .write _ | .shutdown | .read => False

instance : DecidablePred ClientPc.Gone
  | .exited _ | .died | .killed => .isTrue trivial
  | .write _ | .shutdown | .read => .isFalse id

/-- Nobody on the server's side has the connection open any more. -/
def HungUp (phase : Phase) (t : Talk) : Prop :=
  phase = .dropped ∨ phase = .handed ∧ t.worker = .exited

instance (phase : Phase) (t : Talk) : Decidable (HungUp phase t) :=
  inferInstanceAs (Decidable (_ ∨ _ ∧ _))

/-- The client's socket is closed when its process ends. -/
def Talk.endClient (t : Talk) (pc : ClientPc) : Talk :=
  { t with client := pc, up := t.up.shutdown }

section Steps

variable {α : Type} [Add α] [Sub α] [Mul α] [Div α] [Neg α] (c : Setup α)

/-- The client on an open connection. -/
def clientStep (phase : Phase) (t : Talk) (k : ℕ) : Option Talk :=
  match t.client with
  | .write [] => some { t with client := .shutdown }
  | .write left =>
    if HungUp phase t then
      none
    else
      (t.up.send c.upCapacity k left).map fun r => { t with client := .write r.2, up := r.1 }
  | .shutdown => some { t with client := .read, up := t.up.shutdown }
  | .read =>
    if t.down.queued = [] then
      if HungUp phase t then some (t.endClient (.exited [])) else none
    else
      (t.down.recv (responseSize - 1) k).map fun r =>
        { t with down := r.2 }.endClient (.exited (CBuffer.store r.1 []).text)
  | .exited _ | .died | .killed => none

/-- `serve` after its `read` has returned `data`. -/
def answer (t : Talk) (data : List UInt8) : WorkerPc :=
  match serve c.strtod t.job.junk [data] with
  | .noReply => .close
  | .halted _ => .exited
  | .replied _ v => .write (c.format t.job.pid v)

/-- The child. -/
def workerStep (t : Talk) (k : ℕ) : Option Talk :=
  match t.worker with
  | .read =>
    if t.up.AtEnd then
      some { t with worker := .close }
    else
      (t.up.recv (bufferSize - 1) k).map fun r =>
        { t with worker := answer c t r.1, up := r.2, request := r.1 }
  | .write [] => some { t with worker := .close }
  | .write left =>
    if t.client.Gone then
      none
    else
      (t.down.send c.downCapacity k left).map fun r => { t with worker := .write r.2, down := r.1 }
  | .close => some { t with worker := .exited }
  | .exited => none

/-- The steps of client and child in each phase of the connection. -/
def own (phase : Phase) (t : Talk) : Act → Option Talk
  | .client k =>
    match phase with
    | .fresh => none
    -- `connect` fails
    | .refused => if t.client.Gone then none else some (t.endClient .died)
    | .queued | .accepted | .shared | .handed | .dropped => clientStep c phase t k
  | .clientFails killed =>
    match t.client with
    | .write (_ :: _) =>
      if HungUp phase t then
        some (if killed then t.endClient .killed else { t with client := .shutdown })
      else
        none
    | _ => none
  | .clientReset =>
    if t.client = .read ∧ t.down.queued = [] ∧ t.up.queued ≠ [] ∧ HungUp phase t then
      some (t.endClient .died)
    else
      none
  | .worker k =>
    match phase with
    | .shared | .handed => workerStep c t k
    | .fresh | .queued | .accepted | .refused | .dropped => none
  | .workerFails killed =>
    match t.worker with
    | .write (_ :: _) =>
      if t.client.Gone then
        some { t with worker := if killed then .exited else .close }
      else
        none
    | _ => none

/-- A conversation before it begins. -/
def Job.start (job : Job) : Talk where
  job := job
  client := .write job.expression
  worker := .read
  up := .new
  down := .new
  request := []

/-- The steps of client and child, one by one. -/
inductive OwnStep (phase : Phase) (t : Talk) : Talk → Prop
  | refused : phase = .refused → ¬t.client.Gone → OwnStep phase t (t.endClient .died)
  | written : phase ≠ .refused → t.client = .write [] →
      OwnStep phase t { t with client := .shutdown }
  | send {left rest up k} : phase ≠ .refused → ¬HungUp phase t → t.client = .write left →
      t.up.send c.upCapacity k left = some (up, rest) →
      OwnStep phase t { t with client := .write rest, up := up }
  | shutdown : phase ≠ .refused → t.client = .shutdown →
      OwnStep phase t { t with client := .read, up := t.up.shutdown }
  | endOfFile : t.client = .read → t.down.queued = [] → HungUp phase t →
      OwnStep phase t (t.endClient (.exited []))
  | recv {data down k} : t.client = .read → t.down.recv (responseSize - 1) k = some (data, down) →
      OwnStep phase t
        ({ t with down := down }.endClient (.exited (CBuffer.store data []).text))
  | sigpipe {left} : HungUp phase t → t.client = .write left →
      OwnStep phase t (t.endClient .killed)
  | writeError {left} : HungUp phase t → t.client = .write left →
      OwnStep phase t { t with client := .shutdown }
  | reset : HungUp phase t → t.client = .read → OwnStep phase t (t.endClient .died)
  | noRequest : phase = .shared ∨ phase = .handed → t.worker = .read → t.up.AtEnd →
      OwnStep phase t { t with worker := .close }
  | request {data up k} : phase = .shared ∨ phase = .handed → t.worker = .read →
      t.up.recv (bufferSize - 1) k = some (data, up) →
      OwnStep phase t { t with worker := answer c t data, up := up, request := data }
  | replied : phase = .shared ∨ phase = .handed → t.worker = .write [] →
      OwnStep phase t { t with worker := .close }
  | reply {left rest down k} : phase = .shared ∨ phase = .handed → ¬t.client.Gone →
      t.worker = .write left → t.down.send c.downCapacity k left = some (down, rest) →
      OwnStep phase t { t with worker := .write rest, down := down }
  | close : phase = .shared ∨ phase = .handed → t.worker = .close →
      OwnStep phase t { t with worker := .exited }
  | workerSigpipe {left} : t.client.Gone → t.worker = .write left →
      OwnStep phase t { t with worker := .exited }
  | workerError {left} : t.client.Gone → t.worker = .write left →
      OwnStep phase t { t with worker := .close }

variable {c} {phase : Phase} {t t' : Talk} {k : ℕ}

/-- A step of the client, with what it needs and what it changes. -/
theorem ownStep_of_clientStep (hphase : phase ≠ .refused) (h : clientStep c phase t k = some t') :
    OwnStep c phase t t' := by
  unfold clientStep at h
  split at h
  next hpc =>
    obtain rfl := Option.some.inj h
    exact .written hphase hpc
  next left _ hpc =>
    simp only [Option.ite_none_left_eq_some, Option.map_eq_some_iff] at h
    obtain ⟨hup, ⟨up, rest⟩, hsend, rfl⟩ := h
    exact .send hphase hup hpc hsend
  next hpc =>
    obtain rfl := Option.some.inj h
    exact .shutdown hphase hpc
  next hpc =>
    split at h
    next hempty =>
      simp only [Option.ite_none_right_eq_some, Option.some.injEq] at h
      obtain ⟨hup, rfl⟩ := h
      exact .endOfFile hpc hempty hup
    next =>
      obtain ⟨⟨data, down⟩, hrecv, rfl⟩ := Option.map_eq_some_iff.mp h
      exact .recv hpc hrecv
  all_goals cases h

/-- A step of the worker, with what it needs and what it changes. -/
theorem ownStep_of_workerStep (hphase : phase = .shared ∨ phase = .handed)
    (h : workerStep c t k = some t') : OwnStep c phase t t' := by
  unfold workerStep at h
  split at h
  next hpc =>
    split at h
    next hend =>
      obtain rfl := Option.some.inj h
      exact .noRequest hphase hpc hend
    next =>
      obtain ⟨⟨data, up⟩, hrecv, rfl⟩ := Option.map_eq_some_iff.mp h
      exact .request hphase hpc hrecv
  next hpc =>
    obtain rfl := Option.some.inj h
    exact .replied hphase hpc
  next left _ hpc =>
    simp only [Option.ite_none_left_eq_some, Option.map_eq_some_iff] at h
    obtain ⟨hclient, ⟨down, rest⟩, hsend, rfl⟩ := h
    exact .reply hphase hclient hpc hsend
  next hpc =>
    obtain rfl := Option.some.inj h
    exact .close hphase hpc
  next => cases h

/-- A step of the conversation is one of the client or of its worker. -/
theorem ownStep_of_own {a : Act} (h : own c phase t a = some t') : OwnStep c phase t t' := by
  cases a with
  | client k =>
    simp only [own] at h
    cases phase with
    | fresh => cases h
    | refused =>
      simp only [Option.ite_none_left_eq_some, Option.some.injEq] at h
      obtain ⟨hclient, rfl⟩ := h
      exact .refused rfl hclient
    | queued | accepted | shared | handed | dropped => exact ownStep_of_clientStep (by simp) h
  | clientFails killed =>
    simp only [own] at h
    split at h
    next hpc =>
      simp only [Option.ite_none_right_eq_some, Option.some.injEq] at h
      obtain ⟨hup, rfl⟩ := h
      cases killed with
      | true => exact .sigpipe hup hpc
      | false => exact .writeError hup hpc
    next => cases h
  | clientReset =>
    simp only [own, Option.ite_none_right_eq_some, Option.some.injEq] at h
    obtain ⟨⟨hpc, -, -, hup⟩, rfl⟩ := h
    exact .reset hup hpc
  | worker k =>
    simp only [own] at h
    cases phase with
    | shared => exact ownStep_of_workerStep (.inl rfl) h
    | handed => exact ownStep_of_workerStep (.inr rfl) h
    | fresh | queued | accepted | refused | dropped => cases h
  | workerFails killed =>
    simp only [own] at h
    split at h
    next hpc =>
      simp only [Option.ite_none_right_eq_some, Option.some.injEq] at h
      obtain ⟨hclient, rfl⟩ := h
      cases killed with
      | true => exact .workerSigpipe hclient hpc
      | false => exact .workerError hclient hpc
    next => cases h

/-- The child replies to a sentence and dies of anything else. -/
theorem answer_cases {data : List UInt8} (hne : data ≠ []) (hlength : data.length ≤ bufferSize - 1)
    (hnul : 0 ∉ data) :
    (∃ v, Input c.strtod data v ∧ answer c t data = .write (c.format t.job.pid v)) ∨
      (∀ v, ¬Input c.strtod data v) ∧ answer c t data = .exited := by
  have hread : (read (bufferSize - 1) [data]).1 = data := List.take_of_length_le hlength
  have htext : (CBuffer.store data t.job.junk).text = data := CBuffer.text_store hnul _
  unfold answer
  cases hserve : serve c.strtod t.job.junk [data] with
  | noReply =>
    simp only [serve, hread, if_neg hne] at hserve
    split at hserve <;> cases hserve
  | halted halt =>
    refine .inr ⟨fun v hv => ?_, rfl⟩
    rw [← htext] at hv
    have hreplied : serve c.strtod t.job.junk [data] = .replied _ v :=
      serve_eq_replied_iff.mpr ⟨by rwa [hread], rfl, by rw [hread]; exact returns_of_input hv⟩
    rw [hserve] at hreplied
    cases hreplied
  | replied request v =>
    obtain ⟨-, rfl, hreturns⟩ := serve_eq_replied_iff.mp hserve
    rw [hread] at hreturns
    exact .inl ⟨v, htext ▸ input_of_returns hreturns, rfl⟩

/-! ## The invariant -/

/-- What the client still has to write. -/
def ClientPc.left : ClientPc → List UInt8
  | .write left => left
  | .shutdown | .read | .exited _ | .died | .killed => []

/-- The client has shut the connection down for writing. -/
def ClientPc.ShutDown : ClientPc → Prop
  | .read | .exited _ | .died | .killed => True
  | .write _ | .shutdown => False

/-- What the client has printed. -/
def ClientPc.got : ClientPc → List UInt8
  | .exited text => text
  | .write _ | .shutdown | .read | .died | .killed => []

/-- What the child still has to write. -/
def WorkerPc.left : WorkerPc → List UInt8
  | .write left => left
  | .read | .close | .exited => []

/-- What has become of the client's request. -/
inductive Outcome (c : Setup α) (t : Talk) : Prop
  | waiting : t.worker = .read → t.client.got = [] → t.down.queued = [] → Outcome c t
  | empty : t.worker = .close ∨ t.worker = .exited → t.job.expression = [] → t.client.got = [] →
      t.down.queued = [] → Outcome c t
  | rejected : t.worker = .exited → t.request ≠ [] → (∀ v, ¬Input c.strtod t.request v) →
      t.client.got = [] → t.down.queued = [] → Outcome c t
  | replied (v : α) (lost : List UInt8) : t.worker ≠ .read → t.request ≠ [] →
      Input c.strtod t.request v →
      t.client.got ++ t.down.queued ++ t.worker.left ++ lost = c.format t.job.pid v →
      (¬t.client.Gone → lost = []) → Outcome c t

/-- Expression and reply are where the program counters say, in their order. -/
structure Inv (c : Setup α) (job : Job) (phase : Phase) (t : Talk) : Prop where
  job_eq : t.job = job
  upward : ∃ lost, t.request ++ t.up.queued ++ t.client.left ++ lost = job.expression ∧
    (phase ≠ .refused → ¬HungUp phase t → lost = [])
  ended_iff : t.up.ended = true ↔ t.client.ShutDown
  unstarted : phase ≠ .shared → phase ≠ .handed → t.worker = .read
  reading : t.worker = .read → t.request = []
  request_lt : t.request.length < bufferSize
  outcome : Outcome c t
  got_lt : t.client.got.length < responseSize
  silent : t.client = .exited [] → phase = .dropped ∨ job.expression = [] ∨
    t.request ≠ [] ∧ ∀ v, ¬Input c.strtod t.request v

variable {job : Job}

theorem Inv.start (c : Setup α) (job : Job) : Inv c job .fresh job.start where
  job_eq := rfl
  upward := ⟨[], by simp [Job.start, SocketStream.new, ClientPc.left], fun _ _ => rfl⟩
  ended_iff := by simp [Job.start, SocketStream.new, ClientPc.ShutDown]
  unstarted _ _ := rfl
  reading _ := rfl
  request_lt := by simp [Job.start, bufferSize]
  outcome := .waiting rfl rfl rfl
  got_lt := by simp [Job.start, ClientPc.got, responseSize]
  silent h := by cases h

/-- The main process of the server does not touch the conversation. -/
theorem Inv.move {m : Move} {phase' : Phase} (h : Inv c job phase t)
    (hm : phase.move m = some phase') : Inv c job phase' t := by
  -- a connection that has hung up or was refused stays as it is
  have hphase : phase ≠ .dropped ∧ phase ≠ .handed ∧ phase ≠ .refused := by
    refine ⟨?_, ?_, ?_⟩ <;>
    · rintro rfl
      cases m <;> cases hm
  have hup : ¬HungUp phase t := by
    rintro (hd | ⟨hd, -⟩)
    · exact hphase.1 hd
    · exact hphase.2.1 hd
  have hstarted : phase = .shared → phase' = .handed := by
    rintro rfl
    cases m <;> cases hm
    rfl
  obtain ⟨lost, hlost, hnil⟩ := h.upward
  refine ⟨h.job_eq, ⟨lost, hlost, fun _ _ => hnil hphase.2.2 hup⟩, h.ended_iff, ?_, h.reading,
    h.request_lt, h.outcome, h.got_lt, fun hpc => ?_⟩
  · intro _ hhanded
    exact h.unstarted (fun hs => hhanded (hstarted hs)) hphase.2.1
  · exact (h.silent hpc).imp_left fun hd => absurd hd hphase.1

theorem ClientPc.got_eq_nil {pc : ClientPc} (h : ¬pc.Gone) : pc.got = [] := by
  cases pc <;> simp_all [ClientPc.Gone, ClientPc.got]

theorem ClientPc.left_eq_nil {pc : ClientPc} (h : pc.ShutDown) : pc.left = [] := by
  cases pc <;> simp_all [ClientPc.ShutDown, ClientPc.left]

/-- The child runs while the connection is open in it. -/
theorem Inv.phase_of_worker (h : Inv c job phase t) (hw : t.worker ≠ .read) :
    phase = .shared ∨ phase = .handed := by
  by_contra hphase
  exact hw (h.unstarted (fun hs => hphase (.inl hs)) fun hh => hphase (.inr hh))

/-- As long as the child runs, the client's expression goes up in full. -/
theorem Inv.upward_of_running (h : Inv c job phase t) (hphase : phase = .shared ∨ phase = .handed)
    (hw : t.worker ≠ .exited) :
    t.request ++ t.up.queued ++ t.client.left = job.expression := by
  obtain ⟨lost, hlost, hnil⟩ := h.upward
  have hup : ¬HungUp phase t := by
    rintro (hd | ⟨-, hd⟩)
    · simp [hd] at hphase
    · exact hw hd
  have hrefused : phase ≠ .refused := by
    rintro rfl
    simp at hphase
  rwa [hnil hrefused hup, List.append_nil] at hlost

/-- A step of the client that does not read a reply. -/
theorem Inv.client_moves {client : ClientPc} {up : SocketStream UInt8} (h : Inv c job phase t)
    (hclient : ¬t.client.Gone) (hgot : client.got = [])
    (hupward : ∃ lost, t.request ++ up.queued ++ client.left ++ lost = job.expression ∧
      (phase ≠ .refused → ¬HungUp phase t → lost = []))
    (hended : up.ended = true ↔ client.ShutDown)
    (hsilent : client = .exited [] → phase = .dropped ∨ job.expression = [] ∨
      t.request ≠ [] ∧ ∀ v, ¬Input c.strtod t.request v) :
    Inv c job phase { t with client := client, up := up } := by
  have hold := ClientPc.got_eq_nil hclient
  refine ⟨h.job_eq, hupward, hended, h.unstarted, h.reading, h.request_lt, ?_, ?_, hsilent⟩
  · cases h.outcome with
    | waiting hw _ hd => exact .waiting hw hgot hd
    | empty hw he _ hd => exact .empty hw he hgot hd
    | rejected hw hne hv _ hd => exact .rejected hw hne hv hgot hd
    | replied v lost hw hne hv heq hlost =>
      refine .replied v lost hw hne hv ?_ fun _ => hlost hclient
      rwa [hold, ← hgot] at heq
  · rw [hgot]
    decide

/-- A client that reads nothing has a child that has not replied. -/
theorem Inv.silent_of_hungUp (h : Inv c job phase t) (hclient : ¬t.client.Gone)
    (hdown : t.down.queued = []) (hup : HungUp phase t) :
    phase = .dropped ∨ job.expression = [] ∨
      t.request ≠ [] ∧ ∀ v, ¬Input c.strtod t.request v := by
  obtain hd | ⟨-, hexited⟩ := hup
  · exact .inl hd
  cases h.outcome with
  | waiting hw =>
    rw [hexited] at hw
    cases hw
  | empty _ he => exact .inr (.inl (h.job_eq ▸ he))
  | rejected _ hne hv => exact .inr (.inr ⟨hne, hv⟩)
  | replied v lost _ _ _ heq hlost =>
    rw [ClientPc.got_eq_nil hclient, hdown, hexited, hlost hclient] at heq
    exact absurd heq.symm (c.format_ne_nil t.job.pid v)

/-- The client reads a part of the reply. -/
theorem Inv.recv {data : List UInt8} {down : SocketStream UInt8} (h : Inv c job phase t)
    (hpc : t.client = .read) (hrecv : t.down.recv (responseSize - 1) k = some (data, down)) :
    Inv c job phase
      ({ t with down := down }.endClient (.exited (CBuffer.store data []).text)) := by
  obtain ⟨hne, hlength, hqueued, -⟩ := SocketStream.spec_of_recv hrecv
  have hclient : ¬t.client.Gone := by rw [hpc]; exact id
  obtain ⟨lost, hlost, hnil⟩ := h.upward
  cases h.outcome with
  | waiting _ _ hd | empty _ _ _ hd | rejected _ _ _ _ hd =>
    rw [hd, List.append_eq_nil_iff] at hqueued
    exact absurd hqueued.1 hne
  | replied v rest hw hreq hv heq hrest =>
    rw [ClientPc.got_eq_nil hclient, List.nil_append, ← hqueued] at heq
    have htext : (CBuffer.store data []).text = data := by
      refine CBuffer.text_store (fun hmem => c.format_nulFree t.job.pid v ?_) []
      rw [← heq]
      simp only [List.mem_append]
      exact .inl (.inl (.inl hmem))
    rw [htext]
    rw [hpc] at hlost
    refine ⟨h.job_eq, ⟨lost, hlost, hnil⟩, ?_, h.unstarted, h.reading, h.request_lt, ?_, ?_, ?_⟩
    · simp [Talk.endClient, ClientPc.ShutDown]
    · exact .replied v rest hw hreq hv heq fun hgone => absurd trivial hgone
    · exact Nat.lt_of_le_pred (by decide) hlength
    · intro hexited
      exact absurd (ClientPc.exited.inj hexited) hne

/-- A step of the child after its `read`. -/
theorem Inv.worker_moves {worker : WorkerPc} {down : SocketStream UInt8} (h : Inv c job phase t)
    (hphase : phase = .shared ∨ phase = .handed) (hw : t.worker ≠ .exited)
    (hread : worker ≠ .read) (houtcome : Outcome c { t with worker := worker, down := down }) :
    Inv c job phase { t with worker := worker, down := down } := by
  have hupward := h.upward_of_running hphase hw
  refine ⟨h.job_eq, ⟨[], ?_, fun _ _ => rfl⟩, h.ended_iff, ?_, fun hw' => absurd hw' hread,
    h.request_lt, houtcome, h.got_lt, h.silent⟩
  · rw [List.append_nil]
    exact hupward
  · intro hs hh
    obtain hphase | hphase := hphase
    · exact absurd hphase hs
    · exact absurd hphase hh

/-- A child that writes has replied. -/
theorem Outcome.of_write {left : List UInt8} (h : Outcome c t) (hpc : t.worker = .write left) :
    ∃ v lost, t.request ≠ [] ∧ Input c.strtod t.request v ∧
      t.client.got ++ t.down.queued ++ left ++ lost = c.format t.job.pid v ∧
      (¬t.client.Gone → lost = []) := by
  cases h with
  | waiting hw => simp [hpc] at hw
  | empty hw => simp [hpc] at hw
  | rejected hw => simp [hpc] at hw
  | replied v lost _ hne hv heq hlost =>
    rw [hpc] at heq
    exact ⟨v, lost, hne, hv, heq, hlost⟩

/-- The child reads the request. -/
theorem Inv.of_request {data : List UInt8} {up : SocketStream UInt8} (h : Inv c job phase t)
    (hphase : phase = .shared ∨ phase = .handed) (hpc : t.worker = .read)
    (hrecv : t.up.recv (bufferSize - 1) k = some (data, up)) :
    Inv c job phase { t with worker := answer c t data, up := up, request := data } := by
  obtain ⟨hne, hlength, hqueued, hsame⟩ := SocketStream.spec_of_recv hrecv
  have hupward := h.upward_of_running hphase (by simp [hpc])
  rw [h.reading hpc, List.nil_append, ← hqueued] at hupward
  have hnul : 0 ∉ data := by
    intro hmem
    refine job.nulFree ?_
    rw [← hupward]
    simp only [List.mem_append]
    exact .inl (.inl hmem)
  -- nothing has been written to the client before
  have hgot : t.client.got = [] ∧ t.down.queued = [] := by
    cases h.outcome with
    | waiting _ hg hd => exact ⟨hg, hd⟩
    | empty hw => simp [hpc] at hw
    | rejected hw => simp [hpc] at hw
    | replied v lost hw => exact absurd hpc hw
  have hanswer := answer_cases (c := c) (t := t) hne hlength hnul
  refine ⟨h.job_eq, ⟨[], ?_, fun _ _ => rfl⟩, ?_, ?_, ?_, ?_, ?_, h.got_lt, ?_⟩
  · rw [List.append_nil]
    exact hupward
  · exact hsame ▸ h.ended_iff
  · intro hs hh
    obtain hphase | hphase := hphase
    · exact absurd hphase hs
    · exact absurd hphase hh
  · intro hw
    obtain ⟨v, -, hanswer⟩ | ⟨-, hanswer⟩ := hanswer <;> simp [hanswer] at hw
  · exact Nat.lt_of_le_pred (by decide) hlength
  · obtain ⟨v, hv, hanswer⟩ | ⟨hv, hanswer⟩ := hanswer
    · rw [hanswer]
      refine .replied v [] (by simp) hne hv ?_ fun _ => rfl
      simp [hgot, WorkerPc.left]
    · rw [hanswer]
      exact .rejected rfl hne hv hgot.1 hgot.2
  · intro hexited
    obtain hd | he | ⟨hr, -⟩ := h.silent hexited
    · exact .inl hd
    · exact .inr (.inl he)
    · exact absurd (h.reading hpc) hr

/-- The expression goes to the worker and the reply comes back, each in order. -/
theorem Inv.own {a : Act} (h : Inv c job phase t) (hs : own c phase t a = some t') :
    Inv c job phase t' := by
  -- the expression is what has been read, what is in the buffer, what is to be written, and what is
  -- lost because the other side has gone
  obtain ⟨lost, hlost, hnil⟩ := h.upward
  have hended := h.ended_iff
  cases ownStep_of_own hs with
  | refused hphase hclient =>
    refine h.client_moves hclient rfl ⟨t.client.left ++ lost, ?_, fun hne => absurd hphase hne⟩ ?_
      (by simp)
    · simpa [ClientPc.left] using hlost
    · simp [ClientPc.ShutDown]
  | written hphase hpc =>
    rw [hpc] at hlost hended
    exact h.client_moves (by simp [hpc, ClientPc.Gone]) rfl ⟨lost, hlost, hnil⟩ hended (by simp)
  | send hphase hup hpc hsend =>
    obtain ⟨-, hqueued, -, hsame⟩ := SocketStream.spec_of_send hsend
    rw [hpc] at hlost hended
    refine h.client_moves (by simp [hpc, ClientPc.Gone]) rfl ⟨lost, ?_, hnil⟩ ?_ (by simp)
    · simpa only [ClientPc.left, List.append_assoc, ← hqueued] using hlost
    · simpa only [ClientPc.ShutDown, hsame] using hended
  | shutdown hphase hpc =>
    rw [hpc] at hlost
    exact h.client_moves (by simp [hpc, ClientPc.Gone]) rfl ⟨lost, hlost, hnil⟩
      (by simp [ClientPc.ShutDown]) (by simp)
  | endOfFile hpc hdown hup =>
    rw [hpc] at hlost
    have hclient : ¬t.client.Gone := by rw [hpc]; exact id
    exact h.client_moves hclient rfl ⟨lost, hlost, hnil⟩ (by simp [ClientPc.ShutDown])
      fun _ => h.silent_of_hungUp hclient hdown hup
  | recv hpc hrecv => exact h.recv hpc hrecv
  -- what the client could not write is lost
  | sigpipe hup hpc =>
    refine h.client_moves (by simp [hpc, ClientPc.Gone]) rfl
      ⟨t.client.left ++ lost, ?_, fun _ hne => absurd hup hne⟩ (by simp [ClientPc.ShutDown])
      (by simp)
    simpa [ClientPc.left] using hlost
  | writeError hup hpc =>
    rw [hpc] at hended
    refine h.client_moves (by simp [hpc, ClientPc.Gone]) rfl
      ⟨t.client.left ++ lost, ?_, fun _ hne => absurd hup hne⟩ hended (by simp)
    simpa [ClientPc.left] using hlost
  | reset hup hpc =>
    rw [hpc] at hlost
    exact h.client_moves (by simp [hpc, ClientPc.Gone]) rfl ⟨lost, hlost, hnil⟩
      (by simp [ClientPc.ShutDown]) (by simp)
  | noRequest hphase hpc hend =>
    -- the end of the stream comes after the whole expression
    have hupward := h.upward_of_running hphase (by simp [hpc])
    rw [h.reading hpc, hend.1, ClientPc.left_eq_nil (hended.mp hend.2)] at hupward
    have hexpression : t.job.expression = [] := by
      rw [h.job_eq]
      exact hupward.symm
    refine h.worker_moves hphase (by simp [hpc]) (by simp) ?_
    cases h.outcome with
    | waiting _ hgot hdown => exact .empty (.inl rfl) hexpression hgot hdown
    | empty hw => simp [hpc] at hw
    | rejected hw => simp [hpc] at hw
    | replied _ _ hw => exact absurd hpc hw
  | request hphase hpc hrecv => exact h.of_request hphase hpc hrecv
  | replied hphase hpc =>
    obtain ⟨v, rest, hne, hv, heq, hrest⟩ := h.outcome.of_write hpc
    exact h.worker_moves hphase (by simp [hpc]) (by simp)
      (.replied v rest (by simp) hne hv heq hrest)
  | reply hphase hclient hpc hsend =>
    obtain ⟨-, hqueued, -, -⟩ := SocketStream.spec_of_send hsend
    obtain ⟨v, rest, hne, hv, heq, hrest⟩ := h.outcome.of_write hpc
    refine h.worker_moves hphase (by simp [hpc]) (by simp)
      (.replied v rest (by simp) hne hv ?_ hrest)
    rw [List.append_assoc t.client.got, ← hqueued] at heq
    simpa only [List.append_assoc, WorkerPc.left] using heq
  | close hphase hpc =>
    refine h.worker_moves hphase (by simp [hpc]) (by simp) ?_
    cases h.outcome with
    | waiting hw => simp [hpc] at hw
    | empty _ he hgot hdown => exact .empty (.inr rfl) he hgot hdown
    | rejected hw => simp [hpc] at hw
    | replied v rest _ hne hv heq hrest =>
      rw [hpc] at heq
      exact .replied v rest (by simp) hne hv heq hrest
  | workerSigpipe hclient hpc | workerError hclient hpc =>
    obtain ⟨v, rest, hne, hv, heq, -⟩ := h.outcome.of_write hpc
    refine h.worker_moves (h.phase_of_worker (by simp [hpc])) (by simp [hpc]) (by simp)
      (.replied v (t.worker.left ++ rest) (by simp) hne hv ?_ fun hgone => absurd hclient hgone)
    simpa [WorkerPc.left, hpc] using heq

/-- The invariant holds of every state that one connection reaches. -/
theorem inv_of_reachable {conn : Conn Talk}
    (h : (one (UnixCalc.own c) job.start).Reachable conn) : Inv c job conn.phase conn.data := by
  refine h.invariant (P := fun conn => Inv c job conn.phase conn.data) (Inv.start c job) ?_
  intro conn event conn' hinv hs
  cases event with
  | move m =>
    obtain ⟨phase, hm, rfl⟩ := Option.map_eq_some_iff.mp hs
    exact hinv.move hm
  | own a =>
    obtain ⟨data, hown, rfl⟩ := Option.map_eq_some_iff.mp hs
    exact hinv.own hown

/-- What the client's output says about its expression. -/
structure Correct (c : Setup α) (job : Job) (conn : Conn Talk) : Prop where
  /-- What is printed is the beginning of the reply to a beginning of the client's own
  expression. -/
  printed : ∀ text, conn.data.client = .exited text → text ≠ [] →
    ∃ request v, request ≠ [] ∧ request <+: job.expression ∧ request.length < bufferSize ∧
      Input c.strtod request v ∧ text <+: c.format job.pid v ∧ text.length < responseSize
  /-- Nothing is printed when the server has died, for the empty expression, and when a beginning of
  the expression is no sentence. -/
  silent : conn.data.client = .exited [] → conn.phase = .dropped ∨ job.expression = [] ∨
    ∃ request, request ≠ [] ∧ request <+: job.expression ∧ ∀ v, ¬Input c.strtod request v

/-- What holds of one conversation, along every run of it. -/
theorem correct_of_one {conn : Conn Talk}
    (h : (one (UnixCalc.own c) job.start).Reachable conn) : Correct c job conn := by
  have hinv := inv_of_reachable h
  have hrequest : conn.data.request <+: job.expression := by
    obtain ⟨lost, hlost, -⟩ := hinv.upward
    exact ⟨conn.data.up.queued ++ conn.data.client.left ++ lost, by
      simpa only [List.append_assoc] using hlost⟩
  constructor
  · intro text hpc hne
    have hgot : conn.data.client.got = text := by rw [hpc]; rfl
    cases hinv.outcome with
    | waiting _ hnil | empty _ _ hnil | rejected _ _ _ hnil => exact absurd (hgot ▸ hnil) hne
    | replied v lost _ hreq hv heq _ =>
      refine ⟨conn.data.request, v, hreq, hrequest, hinv.request_lt, hv, ?_, hgot ▸ hinv.got_lt⟩
      rw [← hgot, ← hinv.job_eq, ← heq]
      simp only [List.append_assoc]
      exact List.prefix_append _ _
  · intro hpc
    obtain hd | he | ⟨hne, hv⟩ := hinv.silent hpc
    · exact .inl hd
    · exact .inr (.inl he)
    · exact .inr (.inr ⟨conn.data.request, hne, hrequest, hv⟩)

/-! ## Progress -/

/-- A connected client that cannot go on waits for room or for the reply, or is gone. -/
theorem client_of_stuck (hstuck : ∀ k, clientStep c phase t k = none)
    (hfails : UnixCalc.own c phase t (.clientFails true) = none) :
    (t.client.left ≠ [] ∧ t.up.queued ≠ [] ∧ ¬HungUp phase t) ∨
      (t.client = .read ∧ ¬HungUp phase t) ∨ t.client.Gone := by
  cases hpc : t.client with
  | write left =>
    cases left with
    | nil => simp [clientStep, hpc] at hstuck
    | cons byte rest =>
      have hup : ¬HungUp phase t := by
        intro hup
        simp [UnixCalc.own, hpc, hup] at hfails
      refine .inl ⟨List.cons_ne_nil byte rest, fun hempty => ?_, hup⟩
      -- an empty buffer has room for a byte
      have hroom : t.up.queued.length < c.upCapacity := by
        rw [hempty]
        exact c.up_pos
      have hsend := SocketStream.isSome_send_one (List.cons_ne_nil byte rest) hroom
      have hstep := hstuck 1
      simp only [clientStep, hpc, if_neg hup, Option.map_eq_none_iff] at hstep
      simp [hstep] at hsend
  | shutdown => simp [clientStep, hpc] at hstuck
  | read =>
    refine .inr (.inl ⟨rfl, fun hup => ?_⟩)
    have hstep := hstuck 1
    by_cases hdown : t.down.queued = []
    · simp [clientStep, hpc, hdown, hup] at hstep
    · have hrecv := SocketStream.isSome_recv_one (show 1 ≤ responseSize - 1 by decide) hdown
      simp only [clientStep, hpc, if_neg hdown, Option.map_eq_none_iff] at hstep
      simp [hstep] at hrecv
  | exited text => exact .inr (.inr trivial)
  | died => exact .inr (.inr trivial)
  | killed => exact .inr (.inr trivial)

/-- A child that cannot go on waits for the request or for room, or is gone. -/
theorem worker_of_stuck (hstuck : ∀ k, workerStep c t k = none)
    (hfails : UnixCalc.own c phase t (.workerFails true) = none) :
    (t.worker = .read ∧ t.up.queued = [] ∧ t.up.ended = false) ∨
      (∃ left, left ≠ [] ∧ t.worker = .write left ∧ ¬t.client.Gone ∧
        c.downCapacity ≤ t.down.queued.length) ∨ t.worker = .exited := by
  cases hpc : t.worker with
  | read =>
    have hstep := hstuck 1
    by_cases hend : t.up.AtEnd
    · simp [workerStep, hpc, hend] at hstep
    · simp only [workerStep, hpc, if_neg hend, Option.map_eq_none_iff] at hstep
      have hqueued : t.up.queued = [] := by
        by_contra hqueued
        have hrecv := SocketStream.isSome_recv_one (show 1 ≤ bufferSize - 1 by decide) hqueued
        simp [hstep] at hrecv
      exact .inl ⟨rfl, hqueued, by simpa [SocketStream.AtEnd, hqueued] using hend⟩
  | write left =>
    cases left with
    | nil => simp [workerStep, hpc] at hstuck
    | cons byte rest =>
      have hclient : ¬t.client.Gone := by
        intro hclient
        simp [UnixCalc.own, hpc, hclient] at hfails
      refine .inr (.inl ⟨byte :: rest, List.cons_ne_nil byte rest, rfl, hclient, ?_⟩)
      by_contra hroom
      have hsend := SocketStream.isSome_send_one (List.cons_ne_nil byte rest) (not_le.mp hroom)
      have hstep := hstuck 1
      simp only [workerStep, hpc, if_neg hclient, Option.map_eq_none_iff] at hstep
      simp [hstep] at hsend
  | close => simp [workerStep, hpc] at hstuck
  | exited => exact .inr (.inr rfl)

/-- When neither side can go on, both have ended: the reply fits the buffer towards the client, so
the child never waits for a client that waits for the child. -/
theorem Inv.ended_of_stuck (h : Inv c job phase t) (hroom : bufferSize ≤ c.downCapacity)
    (hsettled : phase.Settled) (hstuck : ∀ a, UnixCalc.own c phase t a = none) :
    t.client.Gone ∧ (phase = .handed → t.worker = .exited) := by
  cases phase with
  | fresh | queued | accepted | shared => exact hsettled.elim
  | refused =>
    have hclient := hstuck (.client 0)
    simp only [UnixCalc.own, ite_eq_left_iff, reduceCtorEq, imp_false, not_not] at hclient
    exact ⟨hclient, by simp⟩
  | dropped =>
    refine ⟨?_, by simp⟩
    obtain ⟨-, -, hup⟩ | ⟨-, hup⟩ | hgone :=
      client_of_stuck (fun k => hstuck (.client k)) (hstuck (.clientFails true))
    · exact absurd (.inl rfl) hup
    · exact absurd (.inl rfl) hup
    · exact hgone
  | handed =>
    have hclient := client_of_stuck (fun k => hstuck (.client k)) (hstuck (.clientFails true))
    obtain ⟨hpc, hqueued, hended⟩ | ⟨left, hne, hpc, hgone, hfull⟩ | hpc :=
      worker_of_stuck (fun k => hstuck (.worker k)) (hstuck (.workerFails true))
    · -- the client has not shut the connection down and has room to write
      exfalso
      have hnot : ¬t.client.ShutDown := fun hshut => by simp [h.ended_iff.mpr hshut] at hended
      obtain ⟨-, hfull, -⟩ | ⟨hread, -⟩ | hgone := hclient
      · exact hfull hqueued
      · exact hnot (by rw [hread]; trivial)
      · exact hnot (by cases hc : t.client <;> simp_all [ClientPc.Gone, ClientPc.ShutDown])
    · exfalso
      -- the buffer towards the client is full, but holds no more than a part of one reply
      obtain ⟨v, lost, -, -, heq, -⟩ := h.outcome.of_write hpc
      have hlength := congrArg List.length heq
      have hfits := c.format_fits t.job.pid v
      simp only [List.length_append] at hlength
      omega
    · refine ⟨?_, fun _ => hpc⟩
      obtain ⟨-, -, hup⟩ | ⟨-, hup⟩ | hgone := hclient
      · exact absurd (.inr ⟨rfl, hpc⟩) hup
      · exact absurd (.inr ⟨rfl, hpc⟩) hup
      · exact hgone

/-- The steps that the client can still make. -/
def ClientPc.rank : ClientPc → ℕ
  | .write left => left.length + 3
  | .shutdown => 2
  | .read => 1
  | .exited _ | .died | .killed => 0

/-- The steps that the child can still make. -/
def WorkerPc.rank : WorkerPc → ℕ
  | .read => bufferSize + 2
  | .write left => left.length + 2
  | .close => 1
  | .exited => 0

def Talk.rank (t : Talk) : ℕ :=
  t.client.rank + t.worker.rank

/-- A reply is shorter than its buffer. -/
theorem rank_answer (t : Talk) (data : List UInt8) :
    (answer c t data).rank < bufferSize + 2 := by
  unfold answer
  split
  · simp [WorkerPc.rank, bufferSize]
  · simp [WorkerPc.rank]
  · next v _ =>
    have hfits := c.format_fits t.job.pid v
    simp only [WorkerPc.rank]
    omega

/-- Each step of the conversation leaves less to do. -/
theorem rank_own {a : Act} (hs : own c phase t a = some t') : t'.rank < t.rank := by
  cases ownStep_of_own hs with
  | refused _ hclient =>
    have hpos : 0 < t.client.rank := by
      cases hpc : t.client <;> simp_all [ClientPc.Gone, ClientPc.rank]
    exact Nat.add_lt_add_right hpos _
  | written _ hpc | shutdown _ hpc | endOfFile hpc | recv hpc | sigpipe _ hpc | writeError _ hpc
  | reset _ hpc =>
    simp only [Talk.rank, Talk.endClient, hpc, ClientPc.rank, List.length_nil]
    omega
  | send _ _ hpc hsend =>
    have hlt := (SocketStream.spec_of_send hsend).1
    simp only [Talk.rank, hpc, ClientPc.rank]
    omega
  | noRequest _ hpc | replied _ hpc | close _ hpc | workerSigpipe _ hpc | workerError _ hpc =>
    simp only [Talk.rank, hpc, WorkerPc.rank, List.length_nil]
    omega
  | request _ hpc =>
    have hlt := rank_answer (c := c) t
    simp only [Talk.rank, hpc, WorkerPc.rank]
    exact Nat.add_lt_add_left (hlt _) _
  | reply _ _ hpc hsend =>
    have hlt := (SocketStream.spec_of_send hsend).1
    simp only [Talk.rank, hpc, WorkerPc.rank]
    omega

end Steps

end UnixCalc
