import Mathlib.Data.List.Basic

/-!
# Byte streams

One direction of a connected stream socket: the bytes that have been sent and not yet received,
and whether the sender has said that no more will come. The kernel chooses how many bytes one
`write` or `read` moves, so this number is a parameter of both. A `write` that finds no room waits,
as does a `read` that finds nothing before the end of the stream.

Nothing is lost or reordered: `spec_of_send` and `spec_of_recv` say which bytes have moved.
-/

/-- One direction of a connection. -/
structure SocketStream (α : Type*) where
  /-- What has been sent and not received. -/
  queued : List α
  /-- The sender has shut its side down. -/
  ended : Bool
  deriving DecidableEq, Repr

namespace SocketStream

variable {α : Type*} {st st' : SocketStream α} {data rest : List α} {capacity size k : ℕ}

/-- The stream of a new connection. -/
def new : SocketStream α where
  queued := []
  ended := false

/-- `k` bytes of `data` are copied into a buffer of `capacity` bytes. The other bytes are left to
be written. -/
def send (capacity k : ℕ) (st : SocketStream α) (data : List α) :
    Option (SocketStream α × List α) :=
  if 0 < k ∧ k ≤ data.length ∧ st.queued.length + k ≤ capacity then
    some ({ st with queued := st.queued ++ data.take k }, data.drop k)
  else
    none

/-- A `read` with a buffer of `size` bytes returns the first `k` bytes. -/
def recv (size k : ℕ) (st : SocketStream α) : Option (List α × SocketStream α) :=
  if 0 < k ∧ k ≤ size ∧ k ≤ st.queued.length then
    some (st.queued.take k, { st with queued := st.queued.drop k })
  else
    none

/-- `shutdown(SHUT_WR)`, or the last `close` of the sender. -/
def shutdown (st : SocketStream α) : SocketStream α :=
  { st with ended := true }

/-- A `read` returns 0. -/
def AtEnd (st : SocketStream α) : Prop :=
  st.queued = [] ∧ st.ended = true

instance [DecidableEq α] : Decidable st.AtEnd :=
  inferInstanceAs (Decidable (_ ∧ _))

@[simp]
theorem queued_shutdown (st : SocketStream α) : st.shutdown.queued = st.queued := rfl

@[simp]
theorem ended_shutdown (st : SocketStream α) : st.shutdown.ended = true := rfl

/-- The bytes that `send` takes are the first of `data`, and they are queued last. -/
theorem spec_of_send (h : st.send capacity k data = some (st', rest)) :
    rest.length < data.length ∧ st'.queued ++ rest = st.queued ++ data ∧
      st'.queued ≠ [] ∧ st'.ended = st.ended := by
  simp only [send, Option.ite_none_right_eq_some, Option.some.injEq, Prod.mk.injEq] at h
  obtain ⟨⟨hk, hle, -⟩, rfl, rfl⟩ := h
  refine ⟨?_, ?_, ?_, rfl⟩
  · rw [List.length_drop]
    omega
  · simp only [List.append_assoc, List.take_append_drop]
  · intro hnil
    have hlength := congrArg List.length hnil
    simp only [List.length_append, List.length_take, List.length_nil] at hlength
    omega

/-- The bytes that `recv` returns are the first of the queue. -/
theorem spec_of_recv (h : st.recv size k = some (data, st')) :
    data ≠ [] ∧ data.length ≤ size ∧ data ++ st'.queued = st.queued ∧ st'.ended = st.ended := by
  simp only [recv, Option.ite_none_right_eq_some, Option.some.injEq, Prod.mk.injEq] at h
  obtain ⟨⟨hk, hsize, hle⟩, rfl, rfl⟩ := h
  have hlength : (st.queued.take k).length = k := by
    rw [List.length_take]
    omega
  refine ⟨?_, ?_, List.take_append_drop k st.queued, rfl⟩
  · rw [← List.length_pos_iff, hlength]
    exact hk
  · rw [hlength]
    exact hsize

/-- While there is room, a byte can be sent. -/
theorem isSome_send_one (hdata : data ≠ []) (hroom : st.queued.length < capacity) :
    (st.send capacity 1 data).isSome := by
  have hlength := List.length_pos_iff.mpr hdata
  rw [send, if_pos ⟨Nat.one_pos, hlength, hroom⟩]
  rfl

/-- While something is queued, a byte can be received. -/
theorem isSome_recv_one (hsize : 1 ≤ size) (hqueued : st.queued ≠ []) :
    (st.recv size 1).isSome := by
  have hlength := List.length_pos_iff.mpr hqueued
  rw [recv, if_pos ⟨Nat.one_pos, hsize, hlength⟩]
  rfl

end SocketStream
