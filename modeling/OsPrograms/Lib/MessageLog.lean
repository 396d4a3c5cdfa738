import Mathlib.Data.List.Range
import Mathlib.Data.Nat.Notation
import Mathlib.Tactic.Common

/-!
# Numbered messages in a byte queue

A sender appends its messages 1, 2, 3, ... to a byte queue. What is in the queue when messages up
to `a` have been taken and messages up to `b` have been sent is `span message a b`.
-/

namespace MessageLog

variable {α : Type*} (message : ℕ → List α)

/-- The messages `a + 1, ..., b` one after the other. -/
def span (a b : ℕ) : List α :=
  (List.range' (a + 1) (b - a)).flatMap message

@[simp]
theorem span_self (a : ℕ) : span message a a = [] := by
  simp [span]

/-- Sending one more message appends it. -/
theorem span_succ {a b : ℕ} (h : a ≤ b) :
    span message a (b + 1) = span message a b ++ message (b + 1) := by
  have hlen : b + 1 - a = b - a + 1 := by omega
  have hlast : a + 1 + (b - a) = b + 1 := by omega
  simp only [span, hlen, List.range'_1_concat, List.flatMap_append, List.flatMap_cons,
    List.flatMap_nil, List.append_nil, hlast]

/-- What was taken and what is left are together what was sent. -/
theorem span_append {a b c : ℕ} (hab : a ≤ b) (hbc : b ≤ c) :
    span message a b ++ span message b c = span message a c := by
  induction c, hbc using Nat.le_induction with
  | base => simp
  | succ c hbc ih => rw [span_succ message hbc, span_succ message (hab.trans hbc), ← ih,
      List.append_assoc]

/-- A span of messages that are not empty is empty only if it has no messages. -/
theorem span_eq_nil_iff (hne : ∀ k, message k ≠ []) {a b : ℕ} :
    span message a b = [] ↔ b ≤ a := by
  constructor
  · intro hnil
    by_contra hlt
    -- the last message of the span is not empty
    obtain ⟨c, rfl⟩ := Nat.exists_eq_succ_of_ne_zero (show b ≠ 0 by omega)
    rw [Nat.succ_eq_add_one, span_succ message (by omega)] at hnil
    exact hne _ (List.append_eq_nil_iff.mp hnil).2
  · intro hle
    simp [span, Nat.sub_eq_zero_of_le hle]

/-- Messages of at most `w` bytes. -/
theorem length_span_le {a b w : ℕ} (hw : ∀ k ≤ b, (message k).length ≤ w) (hab : a ≤ b) :
    (span message a b).length ≤ (b - a) * w := by
  induction b, hab using Nat.le_induction with
  | base => simp
  | succ b hab ih =>
    have hlast := hw (b + 1) le_rfl
    have hinit := ih fun k hk => hw k (by omega)
    rw [span_succ message hab, List.length_append, Nat.succ_sub hab, Nat.succ_mul]
    omega

/-- A symbol that ends every message and occurs nowhere else counts the messages. -/
theorem count_span [BEq α] {c : α} (hc : ∀ k, (message k).count c = 1) {a b : ℕ} (hab : a ≤ b) :
    (span message a b).count c = b - a := by
  induction b, hab using Nat.le_induction with
  | base => simp
  | succ b hab ih =>
    rw [span_succ message hab, List.count_append, ih, hc]
    omega

end MessageLog
