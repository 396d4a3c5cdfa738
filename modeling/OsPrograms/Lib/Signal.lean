import Mathlib.Data.Nat.Notation
import Mathlib.Logic.Function.Basic
import Mathlib.Tactic.Common

/-!
# Handled signals

A process that handles the signals in `σ` has for each of them a pending bit: a signal that is
sent again before it is delivered is merged with the pending one. A delivered signal starts its
handler, which interrupts what the process does. A signal is blocked while its own handler runs,
so the handlers that are running are a stack without repetitions; with an empty `sa_mask` the
handler of one signal can interrupt that of another.

A signal is in flight from when it is sent until its handler has returned.
-/

/-- The handled signals of a process. -/
structure Signals (σ : Type*) where
  /-- The signals that have been sent and not delivered. -/
  pending : σ → Bool
  /-- The signals whose handlers are running, the innermost one first. -/
  active : List σ

/-- The result of `poll` on one descriptor. -/
inductive PollResult
  /-- 1: the descriptor is ready. -/
  | ready
  /-- 0: the timeout has passed. -/
  | timedOut
  /-- -1 with `EINTR`: a handler ran while the process was blocked. -/
  | interrupted
  deriving DecidableEq, Repr

/-- The number of bytes a pipe can hold on Linux. -/
def pipeCapacity : ℕ :=
  65536

theorem one_le_pipeCapacity : 1 ≤ pipeCapacity := by
  decide

namespace Signals

variable {σ : Type*} [DecidableEq σ]

/-- No signal is pending and no handler is running. -/
def quiet : Signals σ where
  pending := fun _ => false
  active := []

/-- The signal `x` is sent to the process. -/
def send (s : Signals σ) (x : σ) : Signals σ :=
  { s with pending := Function.update s.pending x true }

/-- The handler of `x` starts, `none` if `x` is not pending or blocked. -/
def deliver (s : Signals σ) (x : σ) : Option (Signals σ) :=
  if s.pending x ∧ x ∉ s.active then
    some { pending := Function.update s.pending x false, active := x :: s.active }
  else
    none

/-- The innermost handler returns. -/
def sigreturn (s : Signals σ) : Signals σ :=
  { s with active := s.active.tail }

/-- The signal has been sent, and its handler has not returned. -/
def InFlight (s : Signals σ) (x : σ) : Prop :=
  s.pending x ∨ x ∈ s.active

instance (s : Signals σ) (x : σ) : Decidable (s.InFlight x) :=
  inferInstanceAs (Decidable (_ ∨ _))

variable {s s' : Signals σ} {x y : σ}

/-- A signal is delivered if it is pending and its handler is not running. -/
theorem deliver_eq_some_iff :
    s.deliver x = some s' ↔ (s.pending x ∧ x ∉ s.active) ∧
      s' = { pending := Function.update s.pending x false, active := x :: s.active } := by
  rw [deliver, Option.ite_none_right_eq_some, Option.some.injEq]
  exact and_congr_right fun _ => eq_comm

theorem pending_send (s : Signals σ) (x : σ) : (s.send x).pending x :=
  Function.update_self ..

/-- A signal that is not blocked can be delivered as soon as it is sent. -/
theorem deliver_send (h : x ∉ s.active) :
    ∃ s', (s.send x).deliver x = some s' ∧ s'.active = x :: s.active :=
  ⟨_, if_pos ⟨s.pending_send x, h⟩, rfl⟩

/-- A signal that has been sent is not lost. -/
theorem inFlight_send (s : Signals σ) (x : σ) : (s.send x).InFlight x :=
  .inl (s.pending_send x)

/-- Other signals do not displace a signal that is under way. -/
theorem InFlight.send (h : s.InFlight y) : (s.send x).InFlight y := by
  refine h.imp_left fun hpending => ?_
  by_cases hyx : y = x
  · rw [hyx]
    exact Function.update_self ..
  · show Function.update s.pending x true y = true
    rw [Function.update_of_ne hyx]
    exact hpending

/-- Delivery loses no signal. -/
theorem InFlight.deliver (h : s.InFlight y) (hs : s.deliver x = some s') : s'.InFlight y := by
  obtain ⟨-, rfl⟩ := deliver_eq_some_iff.mp hs
  by_cases hyx : y = x
  · -- the delivered signal is no longer pending, but its handler is running
    exact .inr (hyx ▸ List.mem_cons_self)
  · refine h.imp (fun hpending => ?_) (List.mem_cons_of_mem x)
    show Function.update s.pending x false y = true
    rw [Function.update_of_ne hyx]
    exact hpending

end Signals
