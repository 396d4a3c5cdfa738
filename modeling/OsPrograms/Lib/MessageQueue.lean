import Mathlib.Data.List.Basic
import Mathlib.Data.Nat.Notation
import Mathlib.Tactic.Common

/-!
# Queues of typed messages

A System V message queue is one list of messages, oldest first. A message has a type, and
`msgrcv` with a type takes the oldest message of that type, wherever it is in the list. The
messages of one class, such as those for one receiver, are a subsequence of the list. Sending
appends to the subsequences the message is in and receiving takes the first of them
(`filter_of_receive`), so each class is a first-in first-out queue of its own as long as its
messages have the same type.
-/

namespace MessageQueue

variable {μ : Type*} (type : μ → ℕ)

/-- `msgrcv` for type `t`: the oldest message of that type and the queue without it, `none` if
there is none. -/
def receive (t : ℕ) : List μ → Option (μ × List μ)
  | [] => none
  | m :: q => if type m = t then some (m, q) else (receive t q).map fun r => (r.1, m :: r.2)

/-- How a call of `msgrcv` ends. -/
inductive Received (μ : Type*)
  /-- It blocks: there is no message of the type. -/
  | blocked
  /-- It fails with `E2BIG`, and the message stays in the queue. -/
  | tooLong
  /-- It returns `m` and leaves `q` in the queue. -/
  | received (m : μ) (q : List μ)

/-- `msgrcv` for at most `asked` bytes of a message of type `t`. -/
def msgrcv (size : μ → ℕ) (asked t : ℕ) (q : List μ) : Received μ :=
  match receive type t q with
  | none => .blocked
  | some (m, q') => if size m ≤ asked then .received m q' else .tooLong

/-- The number of bytes in the queue. -/
def bytes (size : μ → ℕ) (q : List μ) : ℕ :=
  q.foldr (fun m n => size m + n) 0

/-- `msgsnd` of `m` to a queue of `capacity` bytes, `none` while the message does not fit. -/
def send (size : μ → ℕ) (capacity : ℕ) (q : List μ) (m : μ) : Option (List μ) :=
  if bytes size q + size m ≤ capacity then some (q ++ [m]) else none

variable {type} {t : ℕ} {q q' : List μ} {m : μ}

/-- What is received was preceded by messages of other types. -/
theorem exists_of_receive (h : receive type t q = some (m, q')) :
    ∃ before after, q = before ++ m :: after ∧ q' = before ++ after ∧ type m = t ∧
      ∀ m' ∈ before, type m' ≠ t := by
  induction q generalizing q' with
  | nil => simp [receive] at h
  | cons m₀ q ih =>
    rw [receive] at h
    split_ifs at h with hm₀
    · simp only [Option.some.injEq, Prod.mk.injEq] at h
      obtain ⟨rfl, rfl⟩ := h
      exact ⟨[], q, rfl, rfl, hm₀, nofun⟩
    · -- `m₀` is of another type and stays in front of what is received
      obtain ⟨⟨m₁, q₁⟩, hr, heq⟩ := Option.map_eq_some_iff.mp h
      simp only [Prod.mk.injEq] at heq
      obtain ⟨rfl, rfl⟩ := heq
      obtain ⟨before, after, rfl, rfl, htype, hbefore⟩ := ih hr
      refine ⟨m₀ :: before, after, rfl, rfl, htype, ?_⟩
      intro m' hm'
      rcases List.mem_cons.mp hm' with rfl | hm'
      · exact hm₀
      · exact hbefore m' hm'

/-- What is received has the type that was asked for. -/
theorem type_of_receive (h : receive type t q = some (m, q')) : type m = t := by
  obtain ⟨_, _, _, _, htype, _⟩ := exists_of_receive h
  exact htype

/-- What is received was in the queue. -/
theorem mem_of_receive (h : receive type t q = some (m, q')) : m ∈ q := by
  obtain ⟨_, _, rfl, _⟩ := exists_of_receive h
  simp

/-- Nothing is added to the queue. -/
theorem subset_of_receive (h : receive type t q = some (m, q')) : q' ⊆ q := by
  obtain ⟨_, _, rfl, rfl, _⟩ := exists_of_receive h
  intro m' hm'
  simp only [List.mem_append, List.mem_cons] at hm' ⊢
  tauto

/-- A message that is received was the first of its class, if the class is of one type. -/
theorem filter_of_receive {P : μ → Bool} (h : receive type t q = some (m, q'))
    (hP : ∀ m', P m' → type m' = t) (hm : P m) : q.filter P = m :: q'.filter P := by
  obtain ⟨before, after, rfl, rfl, _, hbefore⟩ := exists_of_receive h
  -- the messages that were passed over are of other types, so none of them is in the class
  have hnil : before.filter P = [] :=
    List.filter_eq_nil_iff.mpr fun m' hm' hPm' => hbefore m' hm' (hP m' hPm')
  simp [hnil, hm]

/-- Receiving a message changes no class that it is not in. -/
theorem filter_of_receive_of_not {P : μ → Bool} (h : receive type t q = some (m, q'))
    (hm : P m = false) : q'.filter P = q.filter P := by
  obtain ⟨before, after, rfl, rfl, _⟩ := exists_of_receive h
  simp [hm]

/-- Messages that are in order within each class are in order whenever they share a class. -/
theorem pairwise_of_forall_filter {κ : Type*} {R : μ → μ → Prop} {P : κ → μ → Bool}
    (h : ∀ k, (q.filter (P k)).Pairwise R) :
    q.Pairwise fun a b => ∀ k, P k a → P k b → R a b := by
  induction q with
  | nil => exact .nil
  | cons a q ih =>
    refine List.pairwise_cons.mpr ⟨fun b hb k ha hPb => ?_, ih fun k => ?_⟩
    · have hk := h k
      rw [List.filter_cons_of_pos ha] at hk
      exact List.rel_of_pairwise_cons hk (List.mem_filter.mpr ⟨hb, hPb⟩)
    · exact (h k).sublist ((List.sublist_cons_self a q).filter (P k))

/-- Receiving blocks exactly when there is no message of the type. -/
theorem receive_eq_none_iff : receive type t q = none ↔ ∀ m ∈ q, type m ≠ t := by
  induction q with
  | nil => simp [receive]
  | cons m₀ q ih =>
    rw [receive, List.forall_mem_cons]
    split_ifs with hm₀
    · simp [hm₀]
    · rw [Option.map_eq_none_iff, ih]
      exact (and_iff_right hm₀).symm

/-- Receiving a message takes it out of the classes it is in. -/
theorem countP_of_receive {P : μ → Bool} (h : receive type t q = some (m, q')) :
    q.countP P = q'.countP P + if P m then 1 else 0 := by
  obtain ⟨before, after, rfl, rfl, _⟩ := exists_of_receive h
  rw [List.countP_append, List.countP_append, List.countP_cons]
  omega

/-- Messages of at most `n` bytes each. -/
theorem bytes_le_mul_length {size : μ → ℕ} {n : ℕ} (h : ∀ m ∈ q, size m ≤ n) :
    bytes size q ≤ n * q.length := by
  induction q with
  | nil => exact Nat.zero_le _
  | cons m q ih =>
    obtain ⟨hm, hq⟩ := List.forall_mem_cons.mp h
    have hle := ih hq
    rw [List.length_cons, Nat.mul_succ]
    show size m + bytes size q ≤ _
    omega

/-- A sender blocks exactly when its message does not fit. -/
theorem send_eq_none_iff {size : μ → ℕ} {capacity : ℕ} :
    send size capacity q m = none ↔ capacity < bytes size q + size m := by
  simp [send]

/-- A message that fits goes to the end of the queue. -/
theorem send_eq_some_iff {size : μ → ℕ} {capacity : ℕ} :
    send size capacity q m = some q' ↔
      bytes size q + size m ≤ capacity ∧ q' = q ++ [m] := by
  simp [send, eq_comm]

end MessageQueue
