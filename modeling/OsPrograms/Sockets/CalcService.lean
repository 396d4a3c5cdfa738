import Mathlib.Algebra.Field.Rat
import OsPrograms.Sockets.CalcCorrectness

/-!
# One request to `unix_calc_server`

`unix_calc_client` writes its expression to a stream socket and shuts the socket down for
writing; the server's child runs `serve`, which reads once, evaluates what it got and replies.
A stream socket keeps the order of the bytes but not the boundaries of the writes, so the
expression arrives in pieces (`Delivery`).

`serve` looks at the first piece only, and at no more than `BUFFER_SIZE - 1` bytes of it.
`serve_replies_whole_iff` says exactly when this is harmless.
-/

namespace UnixCalc

/-- `BUFFER_SIZE`. -/
def bufferSize : ℕ := 512

/-- The client's `argv[2]`: a C string, here a non-empty one. -/
structure Expression where
  /-- The bytes that `write_all` sends, which are those before the NUL. -/
  bytes : List UInt8
  nulFree : 0 ∉ bytes
  nonempty : bytes ≠ []

/-- A way in which a stream socket hands the bytes `sent` to its reader before end of file. -/
structure Delivery (sent : List UInt8) where
  /-- What successive reads find in the socket. -/
  pieces : List (List UInt8)
  nonempty : ∀ piece ∈ pieces, piece ≠ []
  flatten_eq : pieces.flatten = sent

/-- `read` of at most `count` bytes: what it returns and what is left in the socket. At end of
file it returns nothing. -/
def read (count : ℕ) : List (List UInt8) → List UInt8 × List (List UInt8)
  | [] => ([], [])
  | piece :: pieces =>
    (piece.take count, if piece.length ≤ count then pieces else piece.drop count :: pieces)

/-- How `serve` ends. -/
inductive Served (α : Type)
  /-- It returns without a reply. -/
  | noReply
  /-- The child stops inside `evaluate`. -/
  | halted (halt : Halt)
  /-- It evaluates `request` and replies `result`. -/
  | replied (request : CBuffer) (result : α)

section Serve

variable {α : Type} [Add α] [Sub α] [Mul α] [Div α] [Neg α] (strtod : Strtod α)

/-- `serve`, up to the formatting of its reply. -/
def serve (junk : List UInt8) (pieces : List (List UInt8)) : Served α :=
  let data := (read (bufferSize - 1) pieces).1
  if data = [] then
    .noReply
  else
    -- `junk` is what else the stack held in the array `request`
    let request := CBuffer.store data junk
    match evaluate strtod request with
    | .ok result _ => .replied request result
    | .error halt _ => .halted halt

end Serve

section Serve

variable {α : Type} [Add α] [Sub α] [Mul α] [Div α] [Neg α] {strtod : Strtod α}
  {junk : List UInt8} {pieces : List (List UInt8)} {request : CBuffer} {v : α}

/-- `serve` replies with the value of what its one `read` returned. -/
theorem serve_eq_replied_iff :
    serve strtod junk pieces = .replied request v ↔
      (read (bufferSize - 1) pieces).1 ≠ [] ∧
        request = CBuffer.store (read (bufferSize - 1) pieces).1 junk ∧
        Returns strtod request v := by
  simp only [serve]
  by_cases hdata : (read (bufferSize - 1) pieces).1 = []
  · simp [hdata]
  · rw [if_neg hdata]
    constructor
    · intro h
      cases hev : evaluate strtod (CBuffer.store (read (bufferSize - 1) pieces).1 junk) with
      | ok w st =>
        rw [hev] at h
        cases h
        exact ⟨hdata, rfl, st, hev⟩
      | error e st =>
        rw [hev] at h
        cases h
    · rintro ⟨-, rfl, st, hev⟩
      rw [hev]

/-- The value of a request depends on its text only. -/
theorem returns_congr {buf buf' : CBuffer} (h : buf.text = buf'.text) :
    Returns strtod buf v ↔ Returns strtod buf' v :=
  ⟨fun hv => returns_of_input (h ▸ input_of_returns hv),
    fun hv => returns_of_input (h.symm ▸ input_of_returns hv)⟩

/-- The pieces of a non-empty expression start with a non-empty one. -/
theorem Delivery.exists_cons {e : Expression} (d : Delivery e.bytes) :
    ∃ piece pieces, d.pieces = piece :: pieces ∧ piece ≠ [] ∧
      (∀ q ∈ pieces, q ≠ []) ∧ e.bytes = piece ++ pieces.flatten := by
  have hflat := d.flatten_eq
  cases hp : d.pieces with
  | nil =>
    rw [hp, List.flatten_nil] at hflat
    exact absurd hflat.symm e.nonempty
  | cons piece pieces =>
    have hne : ∀ q ∈ piece :: pieces, q ≠ [] := hp ▸ d.nonempty
    rw [hp, List.flatten_cons] at hflat
    exact ⟨piece, pieces, rfl, hne piece List.mem_cons_self,
      fun q hq => hne q (List.mem_cons_of_mem piece hq), hflat.symm⟩

/-- Pieces that are all non-empty and hold nothing together are no pieces. -/
theorem eq_nil_of_flatten_eq_nil {pieces : List (List UInt8)} (hne : ∀ q ∈ pieces, q ≠ [])
    (h : pieces.flatten = []) : pieces = [] := by
  cases pieces with
  | nil => rfl
  | cons q qs =>
    rw [List.flatten_cons, List.append_eq_nil_iff] at h
    exact absurd h.1 (hne q List.mem_cons_self)

/-- The one `read` of `serve` gets the whole expression exactly when the expression arrives in
one piece and fits the buffer. -/
theorem read_eq_expression_iff {e : Expression} (d : Delivery e.bytes) :
    (read (bufferSize - 1) d.pieces).1 = e.bytes ↔
      d.pieces = [e.bytes] ∧ e.bytes.length < bufferSize := by
  obtain ⟨piece, pieces, hp, -, hne, he⟩ := d.exists_cons
  rw [hp, read]
  constructor
  · intro htake
    -- `take` keeps all bytes, so nothing is left for the later pieces
    have hlen := congrArg List.length htake
    have hlen' := congrArg List.length he
    rw [List.length_take] at hlen
    rw [List.length_append] at hlen'
    have hflat : pieces.flatten = [] := List.eq_nil_of_length_eq_zero (by omega)
    have hnil := eq_nil_of_flatten_eq_nil hne hflat
    have hbuf : bufferSize = 512 := rfl
    rw [hflat, List.append_nil] at he
    exact ⟨by rw [hnil, he], by omega⟩
  · rintro ⟨hcons, hlen⟩
    rw [List.cons.injEq] at hcons
    rw [hcons.1]
    exact List.take_of_length_le (by omega)

/-- Every reply is the value of the whole expression exactly when the expression arrives in one
piece that fits the buffer, or what the first `read` gets is no sentence, so that the child dies
and no reply is sent. -/
theorem serve_replies_whole_iff (strtod : Strtod α) (e : Expression) (d : Delivery e.bytes)
    (junk : List UInt8) :
    (∀ request v, serve strtod junk d.pieces = .replied request v →
        request.text = e.bytes ∧ Returns strtod (.ofString e.bytes) v) ↔
      (d.pieces = [e.bytes] ∧ e.bytes.length < bufferSize) ∨
        ¬∃ v, Input strtod ((d.pieces.headD []).take (bufferSize - 1)) v := by
  obtain ⟨piece, pieces, hp, hpiece, -, he⟩ := d.exists_cons
  have hread : (read (bufferSize - 1) d.pieces).1 = piece.take (bufferSize - 1) := by
    rw [hp, read]
  have hnul : 0 ∉ piece.take (bufferSize - 1) := by
    intro hmem
    apply e.nulFree
    rw [he]
    exact List.mem_append_left _ (List.mem_of_mem_take hmem)
  have htext := CBuffer.text_store hnul junk
  have hdata : piece.take (bufferSize - 1) ≠ [] := by
    simp [hpiece, bufferSize]
  rw [← read_eq_expression_iff, hread, hp, List.headD_cons]
  constructor
  · intro hwhole
    by_cases hin : ∃ v, Input strtod (piece.take (bufferSize - 1)) v
    · -- the first piece is a sentence, so a reply is sent, and it is for that piece
      obtain ⟨v, hv⟩ := hin
      have hret : Returns strtod (CBuffer.store (piece.take (bufferSize - 1)) junk) v :=
        returns_of_input (htext.symm ▸ hv)
      have hserve := serve_eq_replied_iff.mpr ⟨hread ▸ hdata, rfl, hread ▸ hret⟩
      rw [hp] at hserve
      have hreq := (hwhole _ v hserve).1
      rw [← hp, hread, htext] at hreq
      exact .inl hreq
    · exact .inr hin
  · intro hcond request v hserve
    rw [← hp, serve_eq_replied_iff, hread] at hserve
    obtain ⟨-, rfl, hret⟩ := hserve
    rcases hcond with hwhole | hno
    · rw [hwhole] at htext hret ⊢
      refine ⟨htext, (returns_congr ?_).mp hret⟩
      rw [htext, CBuffer.ofString, CBuffer.text_store e.nulFree]
    · -- what `read` got is no sentence, and a reply would make it one
      exact absurd ⟨v, htext ▸ input_of_returns hret⟩ hno

end Serve

/-- `strtod` on unsigned decimal integers. -/
def strtodDecimal : Strtod ℚ where
  convert t :=
    let digits := t.takeWhile fun c => '0'.toUInt8 ≤ c && c ≤ '9'.toUInt8
    { value := (digits.foldl (fun n c => 10 * n + (c.toNat - 48)) 0 : ℕ)
      consumed := digits.length
      erange := false }
  consumed_le _ := (List.takeWhile_prefix _).length_le

/-- A decimal integer is a sentence, with the value `strtod` gives it. -/
theorem input_decimal {t : List UInt8} (hstart : NumberStart t)
    (hconsumed : (strtodDecimal.convert t).consumed = t.length) (hne : t ≠ []) :
    Input strtodDecimal t (strtodDecimal.convert t).value := by
  have hpos : (strtodDecimal.convert t).consumed ≠ 0 := by
    rw [hconsumed]
    exact fun h => hne (List.eq_nil_of_length_eq_zero h)
  refine ⟨[], .term (.factor (.num (.refl t) hstart ⟨?_, rfl, ?_⟩)), .refl []⟩
  · rintro (h | h)
    · exact hpos h
    · cases h
  · rw [hconsumed, List.drop_length]

/-- The expression `12`, delivered as `1` and `2`, is answered with the value of `1`. -/
theorem serve_replies_prefix :
    ¬∀ (e : Expression) (d : Delivery e.bytes) (junk : List UInt8) (request : CBuffer) (v : ℚ),
      serve strtodDecimal junk d.pieces = .replied request v →
        Returns strtodDecimal (.ofString e.bytes) v := by
  intro hclaim
  let e : Expression :=
    { bytes := ['1'.toUInt8, '2'.toUInt8], nulFree := by decide, nonempty := by decide }
  let d : Delivery e.bytes :=
    { pieces := [['1'.toUInt8], ['2'.toUInt8]], nonempty := by decide, flatten_eq := rfl }
  -- the first piece alone is a sentence of value 1
  have hone : Returns strtodDecimal (.store ['1'.toUInt8] []) 1 :=
    returns_of_input (input_decimal (t := ['1'.toUInt8]) (by decide) (by decide) (by decide))
  have htwelve : Returns strtodDecimal (.ofString e.bytes) 12 :=
    returns_of_input (input_decimal (t := e.bytes) (by decide) (by decide) (by decide))
  have hserve := hclaim e d [] _ 1 (serve_eq_replied_iff.mpr ⟨by decide, rfl, hone⟩)
  exact absurd (hserve.unique htwelve) (by decide)

end UnixCalc
