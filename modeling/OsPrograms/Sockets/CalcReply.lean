import OsPrograms.Common.WriteAll
import OsPrograms.Lib.Printf
import OsPrograms.Sockets.CalcService

/-!
# The reply of `unix_calc_server` and what its client prints

`serve` formats its reply with `snprintf` into an array of `BUFFER_SIZE` bytes and writes it out
with `write_all`. `unix_calc_client` reads once into an array of 256 bytes and prints what it got.
Both sizes meet the same text, whose length depends on the process id and on the number of digits
of the result.

## Main results

- `length_reply`, `length_reply_le`: the length of a reply, at most 337 bytes for a finite double.
- `serve_reply_fits`: the server's buffer holds every reply, and `write_all` stays inside it.
- `client_prints_reply_iff`: the client prints those replies that have at most 255 bytes.
-/

namespace UnixCalc

open Printf WriteAll

/-- The text that `"pid=%ld result=%.3f\n"` formats. -/
def replyText (pid : ℕ) (result : Binary64) : List Char :=
  ['p', 'i', 'd', '='] ++ decimal pid ++ [' ', 'r', 'e', 's', 'u', 'l', 't', '='] ++
    fixed3 result ++ ['\n']

/-- The bytes of that text. -/
def reply (pid : ℕ) (result : Binary64) : List UInt8 :=
  (replyText pid result).map Char.toUInt8

/-- The end of `serve`: the reply is formatted into `response`, where `junk` is what else the array
held, and written out. -/
def respond (pid : ℕ) (result : Binary64) (junk : List UInt8) (returns : List WriteReturn) :
    Trace UInt8 :=
  let (len, stored) := snprintf bufferSize (reply pid result)
  writeAll (CBuffer.store stored junk).bytes len returns

/-- The size of `response` in the client. -/
def responseSize : ℕ := 256

/-- What the client prints when the server's reply reaches it in `pieces`. -/
def clientPrints (junk : List UInt8) (pieces : List (List UInt8)) : List UInt8 :=
  (CBuffer.store (read (responseSize - 1) pieces).1 junk).text

/-! ## The length of a reply -/

/-- The length of a reply: its fixed text, the process id, the sign and the digits before the point.
-/
theorem length_reply (pid : ℕ) (v : Binary64) :
    (reply pid v).length =
      17 + (decimal pid).length + (if v.negative then 1 else 0) +
        (decimal v.integerPart).length := by
  have hfixed : (fixed3 v).length =
      (if v.negative then 1 else 0) + (decimal v.integerPart).length + 1 + 3 :=
    length_fixed (by decide) v.negative v.num v.den
  simp [reply, replyText, hfixed]
  omega

/-- Ten digits of a process id, a sign and 309 digits make 337 bytes. -/
theorem length_reply_le {pid : ℕ} (hpid : pid < 2 ^ 31) (v : Binary64) :
    (reply pid v).length ≤ 337 := by
  have hdigits : (decimal pid).length ≤ 10 :=
    (length_decimal_le_iff (by decide)).mpr (by omega)
  have hint := v.length_integerPart_le
  rw [length_reply]
  split <;> omega

/-- For every finite double and every process id, `snprintf` in `serve` returns a positive length
less than `BUFFER_SIZE` and stores the whole reply; the `write` calls of `write_all` stay inside
`response`, and when it has returned, the reply has been sent. -/
theorem serve_reply_fits (v : Binary64) (pid : ℕ) (hpid : pid < 2 ^ 31) :
    0 < (snprintf bufferSize (reply pid v)).1 ∧
      (snprintf bufferSize (reply pid v)).1 < bufferSize ∧
      (snprintf bufferSize (reply pid v)).2 = reply pid v ∧
      ∀ (junk : List UInt8) (returns : List WriteReturn),
        (∀ call ∈ (respond pid v junk returns).calls, call.1 + call.2 ≤ bufferSize) ∧
          ((respond pid v junk returns).outcome = .done →
            (respond pid v junk returns).sent = reply pid v) := by
  have hlen : (reply pid v).length < bufferSize :=
    (length_reply_le hpid v).trans_lt (by decide)
  have hstored : (snprintf bufferSize (reply pid v)).2 = reply pid v :=
    (snprintf_stored_eq_iff (by decide)).mpr hlen
  refine ⟨?_, hlen, hstored, fun junk returns => ⟨?_, ?_⟩⟩
  · change 0 < (reply pid v).length
    rw [length_reply]
    omega
  · intro call hcall
    exact (calls_writeAll _ _ returns call hcall).trans_le hlen.le
  · intro hdone
    refine (sent_writeAll _ _ returns hdone).trans ?_
    -- the NUL and what comes after it in the array are not sent
    change ((snprintf bufferSize (reply pid v)).2 ++ 0 :: junk).take (reply pid v).length = _
    rw [hstored, List.take_left]

/-- The longest reply, the lowest double from a child with a process id of ten digits, fits. -/
theorem serve_reply_fits_lowest :
    0 < (snprintf bufferSize (reply 2147483647 .lowest)).1 ∧
      (snprintf bufferSize (reply 2147483647 .lowest)).1 < bufferSize :=
  have h := serve_reply_fits .lowest 2147483647 (by decide)
  ⟨h.1, h.2.1⟩

/-! ## The client -/

/-- A digit is not NUL. -/
theorem toUInt8_ne_zero_of_isDigit {c : Char} (h : c.isDigit) : c.toUInt8 ≠ 0 := by
  simp only [Char.isDigit, Bool.and_eq_true, decide_eq_true_iff, ge_iff_le,
    UInt32.le_iff_toNat_le] at h
  rw [ne_eq, ← UInt8.toNat_inj]
  change ¬c.val.toNat % 256 = 0
  have h0 : ('0' : Char).val.toNat = 48 := rfl
  have h9 : ('9' : Char).val.toNat = 57 := rfl
  omega

/-- A reply contains no NUL. -/
theorem nulFree_reply (pid : ℕ) (v : Binary64) : 0 ∉ reply pid v := by
  have hdigits : ∀ n, ∀ c ∈ decimal n, c.toUInt8 ≠ 0 := fun n c hc =>
    toUInt8_ne_zero_of_isDigit (isDigit_of_mem_decimal hc)
  have hfixed : ∀ text : List Char, (text.all fun c => c.toUInt8 != 0) = true →
      ∀ c ∈ text, c.toUInt8 ≠ 0 := by
    intro text h c hc
    simpa using List.all_eq_true.mp h c hc
  have hsign : ∀ c ∈ if v.negative then ['-'] else [], c.toUInt8 ≠ 0 :=
    hfixed _ (by cases v.negative <;> decide)
  have hpad : ∀ n, ∀ c ∈ List.replicate n '0', c.toUInt8 ≠ 0 := by
    intro n c hc
    rw [List.eq_of_mem_replicate hc]
    decide
  have htext : ∀ c ∈ replyText pid v, c.toUInt8 ≠ 0 := by
    simp only [replyText, fixed3, fixed, List.leftpad, List.forall_mem_append]
    refine ⟨⟨⟨⟨hfixed _ (by decide), hdigits _⟩, hfixed _ (by decide)⟩, ⟨hsign, hdigits _⟩, ?_⟩,
      hfixed _ (by decide)⟩
    exact List.forall_mem_cons.mpr ⟨by decide, List.forall_mem_append.mpr ⟨hpad _, hdigits _⟩⟩
  rw [reply, List.mem_map]
  rintro ⟨c, hc, hzero⟩
  exact htext c hc hzero

/-- The client prints what its one `read` returns. -/
theorem clientPrints_reply (pid : ℕ) (v : Binary64) (junk : List UInt8) :
    clientPrints junk [reply pid v] = (reply pid v).take 255 := by
  have hnul : 0 ∉ (reply pid v).take 255 := fun h =>
    nulFree_reply pid v (List.mem_of_mem_take h)
  exact CBuffer.text_store hnul junk

/-- The client prints a reply that arrives in one piece, complete with its newline, exactly when
the process id, the sign and the digits before the point take at most 238 characters. -/
theorem client_prints_reply_iff (pid : ℕ) (v : Binary64) (junk : List UInt8) :
    clientPrints junk [reply pid v] = reply pid v ↔
      (decimal pid).length + (if v.negative then 1 else 0) +
        (decimal v.integerPart).length ≤ 238 := by
  rw [clientPrints_reply, List.take_eq_self_iff, length_reply]
  split <;> omega

/-- `2 ^ 971` has 293 digits: its reply is cut short. -/
theorem client_truncates_reply :
    ¬∀ (v : Binary64) (pid : ℕ), 0 < pid → pid < 2 ^ 31 →
      ∀ junk, clientPrints junk [reply pid v] = reply pid v := by
  intro hclaim
  let v : Binary64 :=
    { negative := false, mantissa := 1, exponent := 971, mantissa_lt := by decide,
      le_exponent := by decide, exponent_le := by decide }
  have hint : v.integerPart = 2 ^ 971 := by
    rw [Binary64.integerPart_of_nonneg v (by decide)]
    simp only [v, Binary64.num, Nat.one_mul, Int.reduceToNat]
  -- `10 ^ 238 ≤ 16 ^ 238 = 2 ^ 952`
  have hlong : ¬(decimal v.integerPart).length ≤ 238 := by
    rw [length_decimal_le_iff (by decide), hint, Nat.not_lt]
    have hpow : (2 ^ 4) ^ 238 ≤ 2 ^ 971 := by
      rw [← pow_mul]
      exact pow_le_pow_right₀ (by decide) (by decide)
    exact (Nat.pow_le_pow_left (by decide) 238).trans hpow
  have hshort := hclaim v 1 (by decide) (by decide) []
  rw [clientPrints_reply, List.take_eq_self_iff, length_reply] at hshort
  omega

end UnixCalc
