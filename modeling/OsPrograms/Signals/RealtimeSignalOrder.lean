import Mathlib.Algebra.Order.Ring.Nat
import Mathlib.Data.Int.Notation
import Mathlib.Data.List.Basic
import OsPrograms.Lib.TransitionSystem

/-!
# `realtime_signal_order`

The program queues realtime signals with values for itself while they are blocked, unblocks them and
waits with `pause` until its handler has stored as many values as were sent. Here there are any
number of signals, with any values.

How long the kernel may keep a pending signal that is not blocked decides whether this works. POSIX
asks for at least one delivery before `sigprocmask` returns. Linux delivers all signals that are
pending before it goes back to the program (`drains`). A signal that is delivered between the test
of the loop and `pause` does not end the `pause`.

## Main results

- `values_in_order`: what is printed are the values in the order in which they were sent.
- `realtime_completes_iff`: every run is finite, and all of them end with the program's last
  statement exactly when the kernel drains pending signals or at most one is sent.
-/

namespace RealtimeSignalOrder

open TransitionSystem

structure Config where
  /-- The number of signals, 3 in `main`. -/
  count : ℕ
  /-- The value of signal `i`, `100 + i` in `main`. -/
  value : ℕ → ℤ
  /-- The kernel delivers all pending signals that are not blocked before the program goes on. -/
  drains : Bool

/-- `main`: the next statement. -/
inductive Pc
  /-- `sigqueue`, in iteration `i` of its loop. -/
  | sigqueue (i : ℕ)
  /-- `sigprocmask(SIG_UNBLOCK, &block, NULL)` -/
  | unblock
  /-- The test `seen < 3`. -/
  | test
  /-- `pause()`, about to be called. -/
  | pause
  /-- Asleep in `pause`. -/
  | paused
  /-- `printf` -/
  | print
  | done
  deriving DecidableEq, Repr

structure State where
  pc : Pc
  /-- The values of the pending signals, in the order in which they were queued. -/
  pending : List ℤ
  blocked : Bool
  /-- `sigprocmask` still has to deliver a signal before it returns. -/
  owed : Bool
  /-- The value with which the handler runs. -/
  handler : Option ℤ
  values : List ℤ
  seen : ℕ
  /-- What has been printed. -/
  printed : Option (List ℤ)

inductive Action
  /-- The next statement of `main`. -/
  | main
  /-- The kernel delivers a signal. -/
  | deliver
  /-- `on_rt` runs and returns. -/
  | handler

/-- The test of the loop that sends. -/
def sendTest (c : Config) (i : ℕ) : Pc :=
  if i < c.count then .sigqueue i else .unblock

def init (c : Config) : State where
  pc := sendTest c 0
  pending := []
  blocked := true
  owed := false
  handler := none
  values := List.replicate c.count 0
  seen := 0
  printed := none

/-- The program may go on: no handler runs, and the kernel has delivered what it must. -/
def Runs (c : Config) (s : State) : Prop :=
  s.handler = none ∧
    (s.blocked = false → if c.drains then s.pending = [] else s.owed = false)

instance (c : Config) (s : State) : Decidable (Runs c s) :=
  inferInstanceAs (Decidable (_ ∧ (_ → _)))

def mainStep (c : Config) (s : State) : Option State :=
  match s.pc with
  | .sigqueue i =>
    some { s with pc := sendTest c (i + 1), pending := s.pending ++ [c.value i] }
  | .unblock => some { s with pc := .test, blocked := false, owed := !s.pending.isEmpty }
  | .test => some { s with pc := if s.seen < c.count then .pause else .print }
  | .pause => some { s with pc := .paused }
  | .paused => none
  | .print => some { s with pc := .done, printed := some s.values }
  | .done => none

/-- `on_rt` with the value `v`. Its return ends a `pause`. -/
def handle (c : Config) (s : State) (v : ℤ) : State :=
  { s with
    pc := if s.pc = .paused then .test else s.pc
    handler := none
    values := if s.seen < c.count then s.values.set s.seen v else s.values
    seen := if s.seen < c.count then s.seen + 1 else s.seen }

def step (c : Config) (s : State) : Action → Option State
  | .main => if Runs c s then mainStep c s else none
  | .deliver =>
    match s.handler, s.blocked, s.pending with
    | none, false, v :: rest => some { s with handler := some v, pending := rest, owed := false }
    | _, _, _ => none
  | .handler => s.handler.map (handle c s)

/-- The program with the signals it sends itself. -/
def system (c : Config) : TransitionSystem State Action where
  init := init c
  step := step c

/-! ## The order of the values -/

/-- The number of signals that have been sent. -/
def Pc.sent (c : Config) : Pc → ℕ
  | .sigqueue i => i
  | .unblock | .test | .pause | .paused | .print | .done => c.count

/-- The signals are still blocked. -/
def Pc.Early : Pc → Prop
  | .sigqueue _ | .unblock => True
  | .test | .pause | .paused | .print | .done => False

/-- Every signal that has been sent is pending, is being handled or has been stored, in this
order from the last to the first. -/
structure Inv (c : Config) (s : State) : Prop where
  bound : ∀ i, s.pc = .sigqueue i → i < c.count
  length : s.values.length = c.count
  seen_le : s.seen ≤ c.count
  order : s.values.take s.seen ++ s.handler.toList ++ s.pending =
    (List.range (s.pc.sent c)).map c.value
  blocked_iff : s.blocked = true ↔ s.pc.Early
  owed : s.owed = true → s.pending ≠ []
  /-- After `sigprocmask` a signal has been delivered, if one was sent. -/
  first : s.blocked = false → s.owed = false → s.handler = none → 0 < c.count → 0 < s.seen
  printing : s.pc = .print → s.seen = c.count
  printed : ∀ l, s.printed = some l → l = (List.range c.count).map c.value

section Steps

variable {c : Config} {s s' : State} {a : Action}

/-- Signals are sent as long as there are values left. -/
theorem sendTest_cases (c : Config) (i : ℕ) :
    (i < c.count ∧ sendTest c i = .sigqueue i) ∨ (c.count ≤ i ∧ sendTest c i = .unblock) := by
  unfold sendTest
  split
  next h => exact .inl ⟨h, rfl⟩
  next h => exact .inr ⟨not_lt.mp h, rfl⟩

/-- At the test of the loop `i` signals have been sent. -/
theorem sent_sendTest {i : ℕ} (hi : i ≤ c.count) : (sendTest c i).sent c = i := by
  obtain ⟨-, h⟩ | ⟨hle, h⟩ := sendTest_cases c i
  · rw [h]
    rfl
  · rw [h]
    exact le_antisymm hle hi

/-- Storing a value at `seen` appends it to the values before. -/
theorem take_set_succ (l : List ℤ) {k : ℕ} (v : ℤ) (hk : k < l.length) :
    (l.set k v).take (k + 1) = l.take k ++ [v] := by
  rw [List.take_add_one, List.take_set_of_le (le_refl k), List.getElem?_set_self hk]
  rfl

theorem Inv.init (c : Config) : Inv c (init c) where
  bound i hi := by
    obtain ⟨hlt, htest⟩ | ⟨-, htest⟩ := sendTest_cases c 0 <;>
      simp_all [RealtimeSignalOrder.init]
  length := List.length_replicate
  seen_le := Nat.zero_le _
  order := by
    have hsent : (sendTest c 0).sent c = 0 := sent_sendTest (Nat.zero_le _)
    simp [RealtimeSignalOrder.init, hsent]
  blocked_iff := by
    obtain ⟨-, htest⟩ | ⟨-, htest⟩ := sendTest_cases c 0 <;>
      simp [RealtimeSignalOrder.init, htest, Pc.Early]
  owed := by simp [RealtimeSignalOrder.init]
  first := by simp [RealtimeSignalOrder.init]
  printing := by
    obtain ⟨-, htest⟩ | ⟨-, htest⟩ := sendTest_cases c 0 <;>
      simp [RealtimeSignalOrder.init, htest]
  printed := by simp [RealtimeSignalOrder.init]

/-- No more signals are sent than there are values. -/
theorem Inv.sent_le (h : Inv c s) : s.pc.sent c ≤ c.count := by
  cases hpc : s.pc with
  | sigqueue i => exact (h.bound i hpc).le
  | unblock | test | pause | paused | print | done => exact le_refl _

/-- Before the last signal has been stored there is room in `values`. -/
theorem Inv.seen_lt (h : Inv c s) {v : ℤ} (hv : s.handler = some v ∨ v ∈ s.pending) :
    s.seen < c.count := by
  have hlength := congrArg List.length h.order
  have hsent := h.sent_le
  have hseen := h.seen_le
  have hvalues := h.length
  simp only [List.length_append, List.length_take, List.length_map, List.length_range] at hlength
  obtain hv | hv := hv
  · rw [hv, Option.toList_some, List.length_singleton] at hlength
    omega
  · have hpos := List.length_pos_of_mem hv
    omega

/-- What the handler makes of the state. -/
theorem Inv.handle_eq (h : Inv c s) {v : ℤ} (hv : s.handler = some v) :
    handle c s v = { s with
      pc := if s.pc = .paused then .test else s.pc
      handler := none
      values := s.values.set s.seen v
      seen := s.seen + 1 } := by
  have hlt := h.seen_lt (.inl hv)
  simp only [handle, if_pos hlt]

/-- A signal that is sent goes to the end of the queue. -/
theorem Inv.sigqueue {i : ℕ} (h : Inv c s) (hpc : s.pc = .sigqueue i) :
    Inv c { s with pc := sendTest c (i + 1), pending := s.pending ++ [c.value i] } := by
  have hsent : (sendTest c (i + 1)).sent c = i + 1 := sent_sendTest (h.bound i hpc)
  have hblocked : s.blocked = true := h.blocked_iff.mpr (by rw [hpc]; trivial)
  have htest := sendTest_cases c (i + 1)
  exact { h with
    bound := by obtain ⟨hlt, htest⟩ | ⟨-, htest⟩ := htest <;> simp_all
    order := by
      have horder := h.order
      rw [hpc] at horder
      change _ = (List.range ((sendTest c (i + 1)).sent c)).map c.value
      rw [hsent, List.range_succ, List.map_append, List.map_singleton, ← List.append_assoc, horder]
      rfl
    blocked_iff := by obtain ⟨-, htest⟩ | ⟨-, htest⟩ := htest <;> simp [hblocked, htest, Pc.Early]
    owed := by simp
    first := by simp [hblocked]
    printing := by obtain ⟨-, htest⟩ | ⟨-, htest⟩ := htest <;> simp [htest] }

/-- After `sigprocmask` a signal is owed, unless none was sent. -/
theorem Inv.unblock (h : Inv c s) (hhandler : s.handler = none) (hpc : s.pc = .unblock) :
    Inv c { s with pc := .test, blocked := false, owed := !s.pending.isEmpty } := by
  have horder := h.order
  rw [hpc] at horder
  exact { h with
    bound := by simp
    order := horder
    blocked_iff := by simp [Pc.Early]
    owed := by simp
    first := by
      intro _ hnone _ hpos
      have hempty : s.pending = [] := by simpa using hnone
      have hlen := congrArg List.length horder
      simp only [hempty, hhandler, Option.toList_none, List.append_nil, List.length_take,
        List.length_map, List.length_range, Pc.sent] at hlen
      change 0 < s.seen
      omega
    printing := by simp }

/-- When all values have been stored, nothing is pending, and they are printed in their order. -/
theorem Inv.print (h : Inv c s) (hpc : s.pc = .print) :
    Inv c { s with pc := .done, printed := some s.values } := by
  have hseen := h.printing hpc
  have horder := h.order
  have hblocked := h.blocked_iff
  rw [hpc] at horder hblocked
  exact { h with
    bound := by simp
    order := horder
    blocked_iff := hblocked
    printing := by simp
    printed := by
      rintro l ⟨⟩
      rw [hseen, ← h.length, List.take_length] at horder
      have hlen := congrArg List.length horder
      simp only [List.length_append, List.length_map, List.length_range, Pc.sent, h.length] at hlen
      have hnil : s.handler.toList ++ s.pending = [] := by
        rw [← List.length_eq_zero_iff, List.length_append]
        omega
      rw [List.append_assoc, hnil, List.append_nil] at horder
      exact horder }

/-- `main` goes from one statement to another, which changes neither what has been sent nor what is
blocked. -/
theorem Inv.goto {pc : Pc} (h : Inv c s) (hsent : s.pc.sent c = pc.sent c)
    (hearly : s.pc.Early ↔ pc.Early) (hbound : ∀ i, pc ≠ .sigqueue i)
    (hprint : pc = .print → s.seen = c.count) : Inv c { s with pc := pc } :=
  { h with
    bound := fun i hpc => absurd hpc (hbound i)
    order := h.order.trans (by rw [hsent])
    blocked_iff := h.blocked_iff.trans hearly
    printing := hprint }

/-- The statements of `main`: the values keep their order, and the test lets it print only when all
have been stored. -/
theorem Inv.mainStep (h : Inv c s) (hruns : Runs c s)
    (hs : RealtimeSignalOrder.mainStep c s = some s') : Inv c s' := by
  unfold RealtimeSignalOrder.mainStep at hs
  cases hpc : s.pc with
  | sigqueue i =>
    simp only [hpc, Option.some.injEq] at hs
    subst hs
    exact h.sigqueue hpc
  | unblock =>
    simp only [hpc, Option.some.injEq] at hs
    subst hs
    exact h.unblock hruns.1 hpc
  | test =>
    simp only [hpc, Option.some.injEq] at hs
    subst hs
    by_cases hlt : s.seen < c.count
    · rw [if_pos hlt]
      exact h.goto (by rw [hpc]; rfl) (by rw [hpc]; rfl) (by simp) (by simp)
    · rw [if_neg hlt]
      exact h.goto (by rw [hpc]; rfl) (by rw [hpc]; rfl) (by simp)
        fun _ => le_antisymm h.seen_le (not_lt.mp hlt)
  | pause =>
    simp only [hpc, Option.some.injEq] at hs
    subst hs
    exact h.goto (by rw [hpc]; rfl) (by rw [hpc]; rfl) (by simp) (by simp)
  | print =>
    simp only [hpc, Option.some.injEq] at hs
    subst hs
    exact h.print hpc
  | paused | done => simp [hpc] at hs

/-- The handler stores its value next to those before it, and ends a `pause`. -/
theorem Inv.handle (h : Inv c s) {v : ℤ} (hv : s.handler = some v) :
    Inv c (RealtimeSignalOrder.handle c s v) := by
  have hlt := h.seen_lt (.inl hv)
  have horder := h.order
  have hblocked := h.blocked_iff
  have hstored := take_set_succ s.values v (h.length ▸ hlt)
  rw [hv, Option.toList_some] at horder
  rw [h.handle_eq hv]
  -- the value goes behind those that are stored; a `pause` ends
  by_cases hpaused : s.pc = .paused
  · rw [if_pos hpaused]
    rw [hpaused] at horder hblocked
    exact { h with
      bound := by simp
      length := by rw [List.length_set]; exact h.length
      seen_le := hlt
      order := by
        rw [hstored, Option.toList_none, List.append_nil]
        exact horder
      blocked_iff := hblocked
      first := fun _ _ _ _ => Nat.succ_pos _
      printing := by simp }
  · rw [if_neg hpaused]
    exact { h with
      length := by rw [List.length_set]; exact h.length
      seen_le := hlt
      order := by
        rw [hstored, Option.toList_none, List.append_nil]
        exact horder
      first := fun _ _ _ _ => Nat.succ_pos _
      printing := fun hprint => absurd (h.printing hprint) hlt.ne }

/-- A signal that is delivered comes from the front of the queue, and its value is stored next. -/
theorem Inv.step (h : Inv c s) (hs : step c s a = some s') : Inv c s' := by
  cases a with
  | main =>
    simp only [RealtimeSignalOrder.step, Option.ite_none_right_eq_some] at hs
    exact h.mainStep hs.1 hs.2
  | deliver =>
    simp only [RealtimeSignalOrder.step] at hs
    split at hs
    next v rest hhandler hblocked hpending =>
      obtain rfl := Option.some.inj hs
      have horder := h.order
      rw [hhandler, hpending] at horder
      exact { h with
        order := by simpa using horder
        owed := by simp
        first := by simp }
    next => cases hs
  | handler =>
    obtain ⟨v, hv, rfl⟩ := Option.map_eq_some_iff.mp hs
    exact h.handle hv

/-- The invariant holds along every run. -/
theorem inv_of_reachable (h : (system c).Reachable s) : Inv c s :=
  h.invariant (Inv.init c) fun _ _ _ hinv hs => hinv.step hs

/-- In every run the handler stores the values in the order in which they were sent, without a
gap, and what is printed are all of them. -/
theorem values_in_order (h : (system c).Reachable s) :
    s.values.take s.seen <+: (List.range c.count).map c.value ∧
      ∀ l, s.printed = some l → l = (List.range c.count).map c.value := by
  have hinv := inv_of_reachable h
  refine ⟨?_, hinv.printed⟩
  have hsent := hinv.sent_le
  have hprefix : (List.range (s.pc.sent c)).map c.value <+: (List.range c.count).map c.value :=
    List.IsPrefix.map _ (List.prefix_iff_eq_take.mpr (by
      rw [List.length_range, List.take_range, min_eq_left hsent]))
  refine List.IsPrefix.trans ⟨s.handler.toList ++ s.pending, ?_⟩ hprefix
  rw [← List.append_assoc]
  exact hinv.order

end Steps

/-- The program as it is, on a kernel that drains. -/
def threeSignals : Config where
  count := 3
  value i := 100 + i
  drains := true

/-- Three values are sent, and printed in the same order. -/
theorem values_in_order_three :
    ∃ s, (system threeSignals).Reachable s ∧ s.printed = some [100, 101, 102] := by
  have hrun : ((system threeSignals).run (init threeSignals)
      [.main, .main, .main, .main, .deliver, .handler, .deliver, .handler, .deliver, .handler,
        .main, .main]).map (·.printed.isSome) = some true := by decide
  obtain ⟨s, hs, hprinted⟩ := Option.map_eq_some_iff.mp hrun
  obtain ⟨l, hl⟩ := Option.isSome_iff_exists.mp hprinted
  have hreach : (system threeSignals).Reachable s := reachable_of_run hs
  exact ⟨s, hreach, hl.trans (congrArg some ((values_in_order hreach).2 l hl))⟩

/-! ## Lost signals -/

/-- The weight of the next statement in the rank: a handler takes a `pause` back to the test. -/
def Pc.rank (c : Config) : Pc → ℕ
  | .sigqueue i => 5 * (c.count - i) + 5
  | .unblock => 5
  | .test => 4
  | .pause => 3
  | .paused => 2
  | .print => 1
  | .done => 0

/-- A bound for the steps that are still to come. -/
def rank (c : Config) (s : State) : ℕ :=
  s.pc.rank c + 4 * s.pending.length + 3 * s.handler.toList.length

section Progress

variable {c : Config} {s s' : State} {a : Action}

/-- What is left when `i` signals have been sent. -/
theorem rank_sendTest (c : Config) (i : ℕ) : (sendTest c i).rank c = 5 * (c.count - i) + 5 := by
  obtain ⟨-, h⟩ | ⟨hle, h⟩ := sendTest_cases c i
  · rw [h]
    rfl
  · rw [h, Nat.sub_eq_zero_of_le hle]
    rfl

/-- Every step, deliveries included, leaves less to do. -/
theorem rank_step (h : Inv c s) (hs : step c s a = some s') : rank c s' < rank c s := by
  cases a with
  | main =>
    simp only [step, Option.ite_none_right_eq_some] at hs
    have hmain := hs.2
    unfold mainStep at hmain
    cases hpc : s.pc with
    | sigqueue i =>
      have hi := h.bound i hpc
      simp only [hpc, Option.some.injEq] at hmain
      subst hmain
      simp only [rank, rank_sendTest, List.length_append, List.length_singleton]
      rw [hpc, Pc.rank]
      omega
    | test =>
      simp only [hpc, Option.some.injEq] at hmain
      subst hmain
      simp only [rank]
      rw [hpc]
      split <;> simp only [Pc.rank] <;> omega
    | unblock | pause | print =>
      simp only [hpc, Option.some.injEq] at hmain
      subst hmain
      simp only [rank]
      rw [hpc]
      simp only [Pc.rank]
      omega
    | paused | done => simp [hpc] at hmain
  | deliver =>
    simp only [step] at hs
    split at hs
    next v rest hhandler _ hpending =>
      obtain rfl := Option.some.inj hs
      simp only [rank, hhandler, hpending, Option.toList_some, Option.toList_none, List.length_cons,
        List.length_nil]
      omega
    next => cases hs
  | handler =>
    obtain ⟨v, hv, rfl⟩ := Option.map_eq_some_iff.mp hs
    -- the handler takes a `pause` back to the test, which its own weight pays for
    have hpc : (if s.pc = .paused then Pc.test else s.pc).rank c ≤ s.pc.rank c + 2 := by
      split
      next hpaused =>
        rw [hpaused]
        exact le_refl _
      next => exact Nat.le_add_right _ _
    simp only [rank, handle, hv, Option.toList_some, Option.toList_none, List.length_cons,
      List.length_nil]
    omega

/-- When all signals have been sent and none is left, all values have been stored. -/
theorem Inv.seen_eq (h : Inv c s) (hhandler : s.handler = none) (hpending : s.pending = [])
    (hsent : s.pc.sent c = c.count) : s.seen = c.count := by
  have hlength := congrArg List.length h.order
  have hle := h.seen_le
  have hvalues := h.length
  simp only [hpending, hhandler, hsent, Option.toList_none, List.append_nil, List.length_take,
    List.length_map, List.length_range] at hlength
  omega

/-- On a kernel that drains, and with at most one signal, all values have been stored when `main`
gets to the test. -/
theorem Inv.all_seen (h : Inv c s) (hc : c.drains = true ∨ c.count ≤ 1) (hruns : Runs c s)
    (hpc : s.pc = .test) : ¬s.seen < c.count := by
  have hblocked : s.blocked = false := by
    have hiff := h.blocked_iff
    rw [hpc] at hiff
    simpa [Pc.Early] using hiff
  have hdelivered := hruns.2 hblocked
  cases hdrains : c.drains with
  | true =>
    have hpending : s.pending = [] := by simpa [hdrains] using hdelivered
    exact (h.seen_eq hruns.1 hpending (by rw [hpc]; rfl)).not_lt
  | false =>
    have howed : s.owed = false := by simpa [hdrains] using hdelivered
    have hcount : c.count ≤ 1 := hc.resolve_left (by simp [hdrains])
    have hpos := h.first hblocked howed hruns.1
    omega

/-- On a kernel that drains, and with at most one signal, the loop is never entered. -/
theorem not_pausing (hc : c.drains = true ∨ c.count ≤ 1) (h : (system c).Reachable s) :
    s.pc ≠ .pause ∧ s.pc ≠ .paused := by
  refine h.invariant' (P := fun s => s.pc ≠ .pause ∧ s.pc ≠ .paused) ?_ ?_
  · obtain ⟨-, hpc⟩ | ⟨-, hpc⟩ := sendTest_cases c 0 <;> simp [system, init, hpc]
  · intro s a s' hreach hnot hs
    have hinv := inv_of_reachable hreach
    cases a with
    | main =>
      simp only [system, step, Option.ite_none_right_eq_some] at hs
      obtain ⟨hruns, hmain⟩ := hs
      unfold mainStep at hmain
      cases hpc : s.pc with
      | sigqueue i =>
        simp only [hpc, Option.some.injEq] at hmain
        subst hmain
        obtain ⟨-, htest⟩ | ⟨-, htest⟩ := sendTest_cases c (i + 1) <;> simp [htest]
      | test =>
        simp only [hpc, Option.some.injEq] at hmain
        subst hmain
        simp [if_neg (hinv.all_seen hc hruns hpc)]
      | unblock | print =>
        simp only [hpc, Option.some.injEq] at hmain
        subst hmain
        simp
      | pause => exact absurd hpc hnot.1
      | paused | done => simp [hpc] at hmain
    | deliver =>
      simp only [system, step] at hs
      split at hs
      next =>
        obtain rfl := Option.some.inj hs
        exact hnot
      next => cases hs
    | handler =>
      obtain ⟨v, -, rfl⟩ := Option.map_eq_some_iff.mp hs
      simp only [handle, if_neg hnot.2]
      exact hnot

/-- A program that does not pause goes on to its end. -/
theorem done_of_stuck (hc : c.drains = true ∨ c.count ≤ 1) (hs : (system c).Reachable s)
    (h : (system c).Stuck s) : s.pc = .done := by
  have hinv := inv_of_reachable hs
  have hhandler : s.handler = none := by
    have hnone : step c s .handler = none := h .handler
    simpa [step] using hnone
  have hpending : s.blocked = false → s.pending = [] := by
    intro hblocked
    have hnone : step c s .deliver = none := h .deliver
    cases hp : s.pending with
    | nil => rfl
    | cons v rest => simp [step, hhandler, hblocked, hp] at hnone
  -- nothing is pending, so the kernel does not keep `main` from going on
  have hruns : Runs c s := by
    refine ⟨hhandler, fun hblocked => ?_⟩
    have howed : s.owed = false := by
      by_contra howed
      exact hinv.owed (by simpa using howed) (hpending hblocked)
    split
    · exact hpending hblocked
    · exact howed
  have hmain : mainStep c s = none := by
    have hnone : step c s .main = none := h .main
    simpa [step, hruns] using hnone
  have hnot := not_pausing hc hs
  cases hpc : s.pc with
  | sigqueue i | unblock | test | pause | print => simp [mainStep, hpc] at hmain
  | paused => exact absurd hpc hnot.2
  | done => rfl

/-- The signals are sent one by one. -/
theorem exists_sent {k : ℕ} (hk : k ≤ c.count) :
    ∃ s, (system c).Reachable s ∧ s.pc = sendTest c k ∧ s.blocked = true ∧ s.handler = none ∧
      s.pending.length = k ∧ s.seen = 0 := by
  induction k with
  | zero => exact ⟨init c, .init, rfl, rfl, rfl, rfl, rfl⟩
  | succ k ih =>
    obtain ⟨s, hs, hpc, hblocked, hhandler, hlength, hseen⟩ := ih (by omega)
    have hqueue : s.pc = .sigqueue k := hpc.trans (if_pos hk)
    have hstep : (system c).step s .main =
        some { s with pc := sendTest c (k + 1), pending := s.pending ++ [c.value k] } := by
      simp [system, step, Runs, mainStep, hqueue, hblocked, hhandler]
    exact ⟨_, hs.next hstep, rfl, hblocked, hhandler, by simp [hlength], hseen⟩

/-- What is pending may be delivered before `pause` is called. -/
theorem exists_drained {n : ℕ} (hs : (system c).Reachable s) (hpc : s.pc = .pause)
    (hblocked : s.blocked = false) (howed : s.owed = false) (hhandler : s.handler = none)
    (hlength : s.pending.length = n) :
    ∃ s', (system c).Reachable s' ∧ s'.pc = .pause ∧ s'.blocked = false ∧ s'.owed = false ∧
      s'.handler = none ∧ s'.pending = [] := by
  induction n generalizing s with
  | zero => exact ⟨s, hs, hpc, hblocked, howed, hhandler, List.eq_nil_of_length_eq_zero hlength⟩
  | succ n ih =>
    obtain ⟨v, rest, hpending⟩ := List.exists_cons_of_length_eq_add_one hlength
    have hdeliver : (system c).step s .deliver =
        some { s with handler := some v, pending := rest, owed := false } := by
      simp [system, step, hhandler, hblocked, hpending]
    have hhandle : (system c).step { s with handler := some v, pending := rest, owed := false }
        .handler = some (handle c { s with handler := some v, pending := rest, owed := false } v) :=
      rfl
    refine ih ((hs.next hdeliver).next hhandle) ?_ hblocked rfl rfl ?_
    · simp [handle, hpc]
    · rw [hpending, List.length_cons] at hlength
      exact Nat.succ.inj hlength

/-- With two signals and a kernel that delivers only one of them at first, the program can miss the
other and sleep for ever. -/
theorem exists_asleep (hdrains : c.drains = false) (hcount : 2 ≤ c.count) :
    ∃ s, (system c).Reachable s ∧ (system c).Stuck s ∧ s.pc = .paused := by
  obtain ⟨s, hs, hpc, hblocked, hhandler, hlength, hseen⟩ := exists_sent (le_refl c.count)
  have hunblock : s.pc = .unblock := hpc.trans (if_neg (lt_irrefl _))
  obtain ⟨v, rest, hpending⟩ := List.exists_cons_of_length_pos (l := s.pending) (by omega)
  rw [hpending, List.length_cons] at hlength
  -- `sigprocmask` delivers the first signal, and the test finds one value stored
  have hmask : (system c).step s .main = some { s with
      pc := .test, blocked := false, owed := true } := by
    simp [system, step, Runs, mainStep, hunblock, hblocked, hhandler, hpending]
  have hdeliver : (system c).step { s with pc := .test, blocked := false, owed := true } .deliver =
      some { s with
        pc := .test, blocked := false, owed := false, handler := some v, pending := rest } := by
    simp [system, step, hhandler, hpending]
  have hhandle : (system c).step { s with
      pc := .test, blocked := false, owed := false, handler := some v, pending := rest } .handler =
      some { s with
        pc := .test, blocked := false, owed := false, handler := none, pending := rest,
        values := s.values.set 0 v, seen := 1 } := by
    have hpos : 0 < c.count := by omega
    simp [system, step, handle, hseen, hpos]
  have htest : (system c).step { s with
      pc := .test, blocked := false, owed := false, handler := none, pending := rest,
      values := s.values.set 0 v, seen := 1 } .main =
      some { s with
        pc := .pause, blocked := false, owed := false, handler := none, pending := rest,
        values := s.values.set 0 v, seen := 1 } := by
    have hlt : 1 < c.count := by omega
    simp [system, step, Runs, mainStep, hdrains, hlt]
  obtain ⟨t, ht, hpause, hopen, howed, hidle, hempty⟩ := exists_drained
    ((((hs.next hmask).next hdeliver).next hhandle).next htest) rfl rfl rfl rfl rfl
  have hsleep : (system c).step t .main = some { t with pc := .paused } := by
    simp [system, step, Runs, mainStep, hpause, hidle, howed, hdrains]
  refine ⟨_, ht.next hsleep, fun a => ?_, rfl⟩
  cases a <;> simp [system, step, mainStep, hidle, hempty]

/-- Every run has at most `5 * (count + 1)` steps. All of them end with the last statement of
`main` exactly when the kernel drains pending signals or at most one signal is sent. -/
theorem realtime_completes_iff (c : Config) :
    (∀ as s, (system c).run (init c) as = some s → as.length ≤ 5 * (c.count + 1)) ∧
      ((∀ s, (system c).Reachable s → (system c).Stuck s → s.pc = .done) ↔
        c.drains = true ∨ c.count ≤ 1) := by
  refine ⟨fun as s hrun => ?_, fun h => ?_, fun hc s => done_of_stuck hc⟩
  · have hle := Reachable.length_run_le
      (fun s a s' hs (hstep : (system c).step s a = some s') =>
        rank_step (inv_of_reachable hs) hstep) .init hrun
    have hinit : rank c (init c) = 5 * (c.count + 1) := by
      simp only [rank, init, rank_sendTest, Option.toList_none, List.length_nil]
      omega
    rw [← hinit]
    exact Nat.le_of_add_right_le hle
  · by_contra hneither
    obtain ⟨hdrains, hcount⟩ := not_or.mp hneither
    obtain ⟨s, hs, hstuck, hpc⟩ := exists_asleep (c := c) (by simpa using hdrains) (by omega)
    rw [h s hs hstuck] at hpc
    cases hpc

end Progress

end RealtimeSignalOrder
