import Mathlib.Data.Int.Init
import Mathlib.Data.List.TakeDrop

/-!
# `write_all`

The loop in `common.c` that writes a buffer out in as many `write` calls as it takes. The calls are
given by what they return, in order, so that the results hold for every way in which a descriptor
accepts the data.

## Main results

- `calls_writeAll`: each call passes a part of the first `length` bytes of the buffer.
- `sent_writeAll`: a `write_all` that returns `length` has sent these bytes, once and in order.
- `writeAll_returns`: what the value that `write_all` returns says about the bytes that were sent.
-/

/-- What one call of `write` returns. -/
inductive WriteReturn
  /-- It wrote `n` bytes, or all it was given if these are fewer. -/
  | wrote (n : ℕ)
  /-- `-1` with `errno == EINTR`. -/
  | interrupted
  /-- `-1` with another error. -/
  | failed
  deriving DecidableEq, Repr

namespace WriteAll

/-- How far `write_all` has come. -/
inductive Outcome
  /-- It has not returned: a call of `write` is still pending. -/
  | pending
  /-- It returned `-1`. -/
  | failed
  /-- It returned `length`. -/
  | done
  deriving DecidableEq, Repr

/-- What a run of `write_all` did. -/
structure Trace (α : Type*) where
  /-- The calls of `write`, each as the offset of `cursor` in the buffer and `remaining`. -/
  calls : List (ℕ × ℕ)
  /-- What the calls of `write` have accepted, in the order of the calls: each takes what it is
  given at `cursor`, up to its return value. -/
  sent : List α
  /-- How the run ended. -/
  outcome : Outcome

variable {α : Type*}

/-- The loop of `write_all`, from its state `cursor`, `remaining` on. -/
def loop (buffer : List α) : ℕ → ℕ → List WriteReturn → Trace α
  | _, 0, _ => { calls := [], sent := [], outcome := .done }
  | cursor, remaining + 1, [] =>
    { calls := [(cursor, remaining + 1)], sent := [], outcome := .pending }
  | cursor, remaining + 1, .failed :: _ =>
    { calls := [(cursor, remaining + 1)], sent := [], outcome := .failed }
  | cursor, remaining + 1, .interrupted :: returns =>
    let t := loop buffer cursor (remaining + 1) returns
    { t with calls := (cursor, remaining + 1) :: t.calls }
  | cursor, remaining + 1, .wrote n :: returns =>
    let t := loop buffer (cursor + min n (remaining + 1)) (remaining + 1 - n) returns
    { t with
      calls := (cursor, remaining + 1) :: t.calls
      sent := (buffer.drop cursor).take (min n (remaining + 1)) ++ t.sent }

/-- `write_all(fd, buffer, length)`. -/
def writeAll (buffer : List α) (length : ℕ) (returns : List WriteReturn) : Trace α :=
  loop buffer 0 length returns

/-- `SSIZE_MAX`, for a `ssize_t` of 64 bits. -/
def ssizeMax : ℕ := 0x7fffffffffffffff

/-- `(ssize_t)length`. -/
def toSsize (length : ℕ) : ℤ :=
  (BitVec.ofNat 64 length).toInt

/-- What `write_all` has returned, if it has. -/
def returnValue (length : ℕ) : Outcome → Option ℤ
  | .pending => none
  | .failed => some (-1)
  | .done => some (toSsize length)

/-- What `write_all` sends to a descriptor that takes all the data at once. -/
def atOnce (buffer : List α) (length : ℕ) : List α :=
  (writeAll buffer length [.wrote length]).sent

/-- Every call ends where the data ends. -/
theorem calls_loop (buffer : List α) (cursor remaining : ℕ) (returns : List WriteReturn) :
    ∀ call ∈ (loop buffer cursor remaining returns).calls,
      cursor ≤ call.1 ∧ call.1 + call.2 = cursor + remaining := by
  fun_induction loop buffer cursor remaining returns with
  | case1 => simp
  | case2 => simp
  | case3 => simp
  | case4 cursor remaining returns t ih =>
    intro call hcall
    rcases List.mem_cons.mp hcall with rfl | hcall
    · exact ⟨Nat.le_refl _, rfl⟩
    · exact ih call hcall
  | case5 cursor remaining n returns t ih =>
    intro call hcall
    rcases List.mem_cons.mp hcall with rfl | hcall
    · exact ⟨Nat.le_refl _, rfl⟩
    · have := ih call hcall
      omega

/-- What has been sent is an initial part of the data, and all of it when the loop has ended. -/
theorem exists_sent_loop (buffer : List α) (cursor remaining : ℕ) (returns : List WriteReturn) :
    ∃ k ≤ remaining,
      (loop buffer cursor remaining returns).sent = (buffer.drop cursor).take k ∧
      ((loop buffer cursor remaining returns).outcome = .done ↔ k = remaining) := by
  fun_induction loop buffer cursor remaining returns with
  | case1 => exact ⟨0, Nat.le_refl 0, by simp⟩
  | case2 cursor remaining => exact ⟨0, Nat.zero_le _, by simp⟩
  | case3 cursor remaining => exact ⟨0, Nat.zero_le _, by simp⟩
  | case4 cursor remaining returns t ih => exact ih
  | case5 cursor remaining n returns t ih =>
    obtain ⟨k, hk, hsent, hdone⟩ := ih
    -- the bytes of this call, and then those of the calls that follow
    refine ⟨min n (remaining + 1) + k, by omega, ?_, ?_⟩
    · rw [List.take_add, List.drop_drop]
      exact congrArg _ hsent
    · refine hdone.trans ?_
      omega

/-- The loop ends with `-1` when a call it has made has failed, and a call is not made any more
after that. -/
theorem outcome_loop_eq_failed_iff (buffer : List α) (cursor remaining : ℕ)
    (returns : List WriteReturn) :
    (loop buffer cursor remaining returns).outcome = .failed ↔
      .failed ∈ returns.take (loop buffer cursor remaining returns).calls.length := by
  fun_induction loop buffer cursor remaining returns with
  | case1 => simp
  | case2 => simp
  | case3 => simp
  | case4 cursor remaining returns t ih => simpa using ih
  | case5 cursor remaining n returns t ih => simpa using ih

/-- The calls go on where the one before has stopped and ask for all that is left. -/
theorem calls_writeAll (buffer : List α) (length : ℕ) (returns : List WriteReturn) :
    ∀ call ∈ (writeAll buffer length returns).calls, call.1 + call.2 = length := by
  intro call hcall
  have := calls_loop buffer 0 length returns call hcall
  omega

/-- A run to the end sends all it was asked to. -/
theorem sent_writeAll (buffer : List α) (length : ℕ) (returns : List WriteReturn)
    (h : (writeAll buffer length returns).outcome = .done) :
    (writeAll buffer length returns).sent = buffer.take length := by
  obtain ⟨k, -, hsent, hdone⟩ := exists_sent_loop buffer 0 length returns
  rw [hdone.mp h] at hsent
  exact hsent

/-- What is sent when nothing interferes. -/
theorem atOnce_eq (buffer : List α) (length : ℕ) : atOnce buffer length = buffer.take length := by
  refine sent_writeAll buffer length _ ?_
  cases length with
  | zero => rfl
  | succ length => simp [writeAll, loop]

/-! ## The value returned -/

/-- The conversion of `length` to the signed type of the return value is exact. -/
theorem toSsize_of_le {length : ℕ} (h : length ≤ ssizeMax) : toSsize length = length := by
  rw [ssizeMax] at h
  have hmod : (BitVec.ofNat 64 length).toNat = length := by
    rw [BitVec.toNat_ofNat]
    omega
  rw [toSsize, BitVec.toInt_eq_toNat_of_lt (by omega), hmod]

/-- For every buffer and all results of the `write` calls: `write_all` returns `length` exactly when
the buffer has been sent, and `-1` exactly when a call has failed with an error other than `EINTR`,
and then only a part of the buffer has been sent. No call goes beyond the buffer. What has been sent
is what the descriptor has accepted in the calls that were made, one after the other. -/
theorem writeAll_returns (buffer : List α) (hlength : buffer.length ≤ ssizeMax)
    (returns : List WriteReturn) :
    (∀ v, returnValue buffer.length (writeAll buffer buffer.length returns).outcome = some v →
      (v = buffer.length ↔ (writeAll buffer buffer.length returns).sent = buffer) ∧
      (v = -1 ↔
        .failed ∈ returns.take (writeAll buffer buffer.length returns).calls.length) ∧
      (v = -1 → (writeAll buffer buffer.length returns).sent <+: buffer ∧
        (writeAll buffer buffer.length returns).sent ≠ buffer)) ∧
      ∀ call ∈ (writeAll buffer buffer.length returns).calls,
        call.1 + call.2 ≤ buffer.length := by
  obtain ⟨k, hk, hsent, hdone⟩ := exists_sent_loop buffer 0 buffer.length returns
  have hfailed := outcome_loop_eq_failed_iff buffer 0 buffer.length returns
  rw [List.drop_zero] at hsent
  have hwhole : buffer.take k = buffer ↔ k = buffer.length := by
    rw [List.take_eq_self_iff]
    omega
  refine ⟨fun v hv => ?_, fun call hcall => Nat.le_of_eq (calls_writeAll _ _ returns call hcall)⟩
  rw [writeAll] at hv ⊢
  rw [hsent, hwhole, ← hfailed, ← hdone]
  -- while a call is pending there is no value; otherwise the outcome says whether all was sent
  cases houtcome : (loop buffer 0 buffer.length returns).outcome <;> rw [houtcome] at hv
  case pending => cases hv
  case failed =>
    obtain rfl : -1 = v := Option.some.inj hv
    have hne : (-1 : ℤ) ≠ buffer.length := by omega
    have hpart : buffer.take k ≠ buffer := by
      rw [ne_eq, hwhole, ← hdone, houtcome]
      exact nofun
    exact ⟨by simp [hne], by simp, fun _ => ⟨List.take_prefix k buffer, hpart⟩⟩
  case done =>
    obtain rfl : toSsize buffer.length = v := Option.some.inj hv
    rw [toSsize_of_le hlength]
    have hne : (buffer.length : ℤ) ≠ -1 := by omega
    exact ⟨by simp, by simp [hne], fun h => absurd h hne⟩

/-- Three bytes in two calls, with an interruption and a call that writes nothing between them. -/
theorem writeAll_returns_three :
    (writeAll [10, 20, 30] 3 [.wrote 1, .interrupted, .wrote 0, .wrote 2]).sent = [10, 20, 30] :=
  ((writeAll_returns [10, 20, 30] (by decide)
    [.wrote 1, .interrupted, .wrote 0, .wrote 2]).1 3 (by decide)).1.mp rfl

end WriteAll
