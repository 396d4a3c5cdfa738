import OsPrograms.Sockets.CalcGrammar

/-!
# What one call of a parser function does

Each parser function is described by the text at its cursor. The lemmas of this module unfold
one level of a function, once per branch of the source, and say where the cursor is when the
next call starts. Everything proved about the parser is proved from them, so no later proof
looks into the programs again.

* `InText buf st`: the cursor has not passed the NUL.
* `Moves buf st st'`: the cursor went forward from `st` to `st'` and did not pass the NUL.
-/

namespace UnixCalc

namespace CBuffer

variable (buf : CBuffer)

/-- The buffer is its string, the first NUL, and whatever follows it. -/
theorem exists_bytes_eq : ∃ junk, buf.bytes = buf.text ++ 0 :: junk := by
  have hsplit := (List.takeWhile_append_dropWhile (p := (· ≠ 0)) (l := buf.bytes)).symm
  cases hdrop : buf.bytes.dropWhile (· ≠ 0) with
  | nil =>
    -- then all the bytes are nonzero, but one of them is the terminator
    exfalso
    rw [hdrop, List.append_nil] at hsplit
    have hnul := buf.terminated
    rw [hsplit] at hnul
    simpa using List.mem_takeWhile_imp hnul
  | cons c junk =>
    have hhead := List.head?_dropWhile_not (· ≠ 0) buf.bytes
    rw [hdrop] at hhead
    have hc : c = 0 := by simpa using hhead
    subst hc
    exact ⟨junk, by rw [text, ← hdrop]; exact hsplit⟩

/-- No character of the string is NUL. -/
theorem ne_zero_of_mem_text {c : UInt8} (h : c ∈ buf.text) : c ≠ 0 := by
  simpa using List.mem_takeWhile_imp h

/-- What is stored without a NUL is the text of the buffer. -/
theorem text_store {data : List UInt8} (h : 0 ∉ data) (junk : List UInt8) :
    (store data junk).text = data := by
  have hne : ∀ c ∈ data, decide (c ≠ 0) = true := by
    intro c hc
    have : c ≠ 0 := fun h0 => h (h0 ▸ hc)
    simpa using this
  rw [text, store, List.takeWhile_append_of_pos hne]
  simp

/-- What is left of the text after `i` characters. -/
@[simp]
theorem length_rest (i : ℕ) : (buf.rest i).length = buf.text.length - i :=
  List.length_drop

/-- Up to and including the NUL, the buffer holds the next character of the text, or NUL at its
end. -/
theorem getElem?_bytes {i : ℕ} (h : i ≤ buf.text.length) :
    buf.bytes[i]? = some ((buf.rest i).headD 0) := by
  obtain ⟨junk, hbytes⟩ := buf.exists_bytes_eq
  rw [hbytes]
  rcases Nat.lt_or_eq_of_le h with hlt | heq
  · rw [List.getElem?_append_left hlt, rest, List.headD_eq_head?_getD, List.head?_drop,
      List.getElem?_eq_getElem hlt, Option.getD_some]
  · subst heq
    simp [rest]

/-- One character further the text has lost its first character. -/
theorem rest_succ {i : ℕ} {c : UInt8} {t : List UInt8} (h : buf.rest i = c :: t) :
    buf.rest (i + 1) = t := by
  rw [rest, ← List.tail_drop, ← rest, h, List.tail_cons]

/-- Where the text goes on, the cursor is before the NUL. -/
theorem lt_of_rest_eq_cons {i : ℕ} {c : UInt8} {t : List UInt8} (h : buf.rest i = c :: t) :
    i < buf.text.length := by
  have hlen := buf.length_rest i
  rw [h, List.length_cons] at hlen
  omega

/-- The next character of the text is not NUL. -/
theorem ne_zero_of_rest_eq_cons {i : ℕ} {c : UInt8} {t : List UInt8}
    (h : buf.rest i = c :: t) : c ≠ 0 := by
  apply buf.ne_zero_of_mem_text
  apply List.mem_of_mem_drop (i := i)
  rw [← rest, h]
  exact List.mem_cons_self

end CBuffer

/-- The cursor has not passed the NUL. -/
def InText (buf : CBuffer) (st : ParserState) : Prop :=
  st.expr ≤ buf.text.length

/-- The cursor went from `st` forward to `st'` and has not passed the NUL. -/
def Moves (buf : CBuffer) (st st' : ParserState) : Prop :=
  st.expr ≤ st'.expr ∧ st'.expr ≤ buf.text.length

variable {buf : CBuffer} {st st' st'' : ParserState}

theorem InText.moves (h : InText buf st) : Moves buf st st :=
  ⟨le_rfl, h⟩

theorem Moves.inText (h : Moves buf st st') : InText buf st' :=
  h.2

/-- The cursor moves on from where it has moved to. -/
theorem Moves.trans (h : Moves buf st st') (h' : Moves buf st' st'') : Moves buf st st'' :=
  ⟨h.1.trans h'.1, h'.2⟩

/-- Going forward leaves no more text. -/
theorem Moves.length_rest_le (h : Moves buf st st') :
    (buf.rest st'.expr).length ≤ (buf.rest st.expr).length := by
  rw [buf.length_rest, buf.length_rest]
  exact Nat.sub_le_sub_left h.1 _

@[simp]
theorem run_advance (n : ℕ) (st : ParserState) :
    (advance n).run st = .ok () { st with expr := st.expr + n } := rfl

@[simp]
theorem run_enterFactor (st : ParserState) :
    enterFactor.run st =
      .ok () { st with active := st.active + 1, deepest := max st.deepest (st.active + 1) } := rfl

/-- Reading through `expr` gives the next character of the text, or NUL at its end. -/
theorem peek_eq {c : UInt8} (h : InText buf st) (hc : (buf.rest st.expr).headD 0 = c) :
    (peek buf).run st = .ok c { st with reads := st.expr :: st.reads } := by
  simp only [peek, EStateM.run, buf.getElem?_bytes h, hc]

/-- The loop of `skip_spaces` passes exactly the leading white space when it has fuel for every
character of the text. -/
theorem skipSpacesLoop_spec {fuel : ℕ} (h : InText buf st)
    (hfuel : (buf.rest st.expr).length < fuel) :
    ∃ st', (skipSpacesLoop buf fuel).run st = .ok () st' ∧ Moves buf st st' ∧
      buf.rest st'.expr = dropSpaces (buf.rest st.expr) := by
  induction fuel generalizing st with
  | zero => omega
  | succ fuel ih =>
    rw [skipSpacesLoop]
    cases hrest : buf.rest st.expr with
    | nil =>
      -- the cursor is at the NUL, which is no white space
      have hpeek : (peek buf).run st = .ok 0 _ := peek_eq h (by simp [hrest])
      rw [EStateM.run_bind_of_ok hpeek]
      exact ⟨_, rfl, h.moves, by simp [hrest, dropSpaces]⟩
    | cons c t =>
      rw [EStateM.run_bind_of_ok (peek_eq h (by rw [hrest, List.headD_cons]))]
      by_cases hc : isspace c = true
      · rw [if_pos hc, EStateM.run_bind_of_ok (run_advance 1 _)]
        have hlt := buf.lt_of_rest_eq_cons hrest
        have hnext := buf.rest_succ hrest
        rw [hrest, List.length_cons] at hfuel
        -- the rest of the loop starts one character further, with one character less to pass
        let st₁ : ParserState := { st with expr := st.expr + 1, reads := st.expr :: st.reads }
        have hlen : (buf.rest st₁.expr).length < fuel := by
          simp only [st₁, hnext]
          omega
        have hin : InText buf st₁ := hlt
        obtain ⟨st', hrun, hmoves, hst'⟩ := ih hin hlen
        refine ⟨st', hrun, ⟨(Nat.le_succ _).trans hmoves.1, hmoves.2⟩, ?_⟩
        rw [hst', hnext, dropSpaces, dropSpaces, List.dropWhile_cons_of_pos hc]
      · rw [if_neg hc]
        refine ⟨_, rfl, h.moves, ?_⟩
        rw [dropSpaces, List.dropWhile_cons_of_neg hc, ← hrest]

/-- `skip_spaces` returns with the cursor after the leading white space. -/
theorem skipSpaces_spec (h : InText buf st) :
    ∃ st', (skipSpaces buf).run st = .ok () st' ∧ Moves buf st st' ∧
      buf.rest st'.expr = dropSpaces (buf.rest st.expr) :=
  skipSpacesLoop_spec h (by rw [buf.length_rest]; omega)

/-- `skip_spaces` followed by a read of `*expr`: the read gives the first character after the
white space, or NUL. -/
theorem skipSpaces_peek {c : UInt8} (h : InText buf st)
    (hc : (dropSpaces (buf.rest st.expr)).headD 0 = c) :
    ∃ st', Moves buf st st' ∧ buf.rest st'.expr = dropSpaces (buf.rest st.expr) ∧
      ∀ {β : Type} (f : UInt8 → Parse β),
        (do skipSpaces buf; let c ← peek buf; f c).run st = (f c).run st' := by
  obtain ⟨st₁, hskip, hmoves, hrest⟩ := skipSpaces_spec h
  refine ⟨{ st₁ with reads := st₁.expr :: st₁.reads }, hmoves, hrest, ?_⟩
  intro β f
  have hpeek := peek_eq hmoves.inText (by rw [hrest, hc])
  rw [EStateM.run_bind_of_ok hskip, EStateM.run_bind_of_ok hpeek]

/-- A cursor at a character, after white space, may step over it. -/
theorem Moves.advance {c : UInt8} {t : List UInt8} (h : Moves buf st st')
    (hrest : buf.rest st'.expr = c :: t) :
    Moves buf st { st' with expr := st'.expr + 1 } ∧ buf.rest (st'.expr + 1) = t :=
  ⟨⟨h.1.trans (Nat.le_succ _), buf.lt_of_rest_eq_cons hrest⟩, buf.rest_succ hrest⟩

/-! ## One level of each parser function -/

/-- What `parse_factor` does after the expression in parentheses. -/
def closeParen {α : Type} (buf : CBuffer) (value : α) : Parse α := do
  skipSpaces buf
  let close ← peek buf
  advance 1
  if close ≠ ')'.toUInt8 then
    die "missing parenthesis"
  else
    leaveFactor
    pure value

/-- A closing parenthesis ends the factor. -/
theorem closeParen_ok {α : Type} {r : List UInt8} (h : InText buf st) (value : α)
    (hclose : dropSpaces (buf.rest st.expr) = ')'.toUInt8 :: r) :
    ∃ st', (closeParen buf value).run st = .ok value st' ∧ Moves buf st st' ∧
      buf.rest st'.expr = r := by
  obtain ⟨st₁, hmoves, hrest, hrun⟩ := skipSpaces_peek h (by rw [hclose, List.headD_cons])
  rw [hclose] at hrest
  obtain ⟨hmoves', hrest'⟩ := hmoves.advance hrest
  exact ⟨_, hrun _, hmoves', hrest'⟩

/-- Anything else dies, with the cursor after the character that was read. -/
theorem closeParen_died {α : Type} (h : InText buf st) (value : α)
    (hclose : (dropSpaces (buf.rest st.expr)).headD 0 ≠ ')'.toUInt8) :
    ∃ st', (closeParen buf value).run st = .error (.died "missing parenthesis") st' := by
  obtain ⟨st₁, -, -, hrun⟩ := skipSpaces_peek h rfl
  rw [closeParen, hrun, EStateM.run_bind_of_ok (run_advance 1 _), if_pos hclose]
  exact ⟨_, rfl⟩

/-- What `evaluate` does after the expression. -/
def checkTrailing {α : Type} (buf : CBuffer) (value : α) : Parse α := do
  skipSpaces buf
  let c ← peek buf
  if c = 0 then
    pure value
  else
    let c ← peek buf
    if c = '\n'.toUInt8 then
      pure value
    else
      die "unexpected trailing token"

/-- Nothing but white space after the expression ends the evaluation. -/
theorem checkTrailing_ok {α : Type} (h : InText buf st) (value : α)
    (hend : dropSpaces (buf.rest st.expr) = []) :
    ∃ st', (checkTrailing buf value).run st = .ok value st' := by
  obtain ⟨st₁, -, -, hrun⟩ := skipSpaces_peek (c := 0) h (by rw [hend]; rfl)
  rw [checkTrailing, hrun, if_pos rfl]
  exact ⟨st₁, rfl⟩

/-- Anything else dies: the test for a newline is never true, because `skip_spaces` has passed
the newline too. -/
theorem checkTrailing_died {α : Type} (h : InText buf st) (value : α)
    (hend : dropSpaces (buf.rest st.expr) ≠ []) :
    ∃ st', (checkTrailing buf value).run st =
      .error (.died "unexpected trailing token") st' := by
  obtain ⟨c, t, ht⟩ := List.exists_cons_of_ne_nil hend
  obtain ⟨st₁, hmoves, hrest, hrun⟩ := skipSpaces_peek h (by rw [ht, List.headD_cons])
  rw [ht] at hrest
  have hpeek := peek_eq hmoves.inText (by rw [hrest, List.headD_cons])
  -- a newline is white space, so the cursor cannot be at one here
  have hnl : c ≠ '\n'.toUInt8 := by
    rintro rfl
    exact absurd (isspace_of_dropSpaces_eq_cons ht) (by decide)
  rw [checkTrailing, hrun, if_neg (buf.ne_zero_of_rest_eq_cons hrest),
    EStateM.run_bind_of_ok hpeek, if_neg hnl]
  exact ⟨_, rfl⟩

section Parser

variable {α : Type} [Add α] [Sub α] [Mul α] [Div α] [Neg α] (strtod : Strtod α)

/-- `parse_factor` skips white space and looks at the next character `c`. -/
theorem parseFactor_skip {c : UInt8} (h : InText buf st) (fuel : ℕ)
    (hc : (dropSpaces (buf.rest st.expr)).headD 0 = c) :
    ∃ st', Moves buf st st' ∧ buf.rest st'.expr = dropSpaces (buf.rest st.expr) ∧
      (parseFactor strtod buf (fuel + 1)).run st =
        (if c = '('.toUInt8 then do
          advance 1
          parseExpression strtod buf fuel >>= closeParen buf
        else do
          let c ← peek buf
          if c = '-'.toUInt8 then do
            advance 1
            let value ← parseFactor strtod buf fuel
            leaveFactor
            pure (-value)
          else do
            let value ← parseNumber strtod buf
            leaveFactor
            pure value : Parse α).run st' := by
  let st₀ : ParserState :=
    { st with active := st.active + 1, deepest := max st.deepest (st.active + 1) }
  have hin : InText buf st₀ := h
  obtain ⟨st₁, hmoves, hrest, hrun⟩ := skipSpaces_peek hin hc
  refine ⟨st₁, hmoves, hrest, ?_⟩
  rw [parseFactor, EStateM.run_bind_of_ok (run_enterFactor st), hrun]
  rfl

/-- `parse_factor` at an opening parenthesis. -/
theorem parseFactor_paren {t : List UInt8} (h : InText buf st) (fuel : ℕ)
    (ht : dropSpaces (buf.rest st.expr) = '('.toUInt8 :: t) :
    ∃ st', Moves buf st st' ∧ buf.rest st'.expr = t ∧
      (parseFactor strtod buf (fuel + 1)).run st =
        (parseExpression strtod buf fuel >>= closeParen buf).run st' := by
  obtain ⟨st₁, hmoves, hrest, hrun⟩ :=
    parseFactor_skip strtod h fuel (by rw [ht, List.headD_cons])
  rw [ht] at hrest
  obtain ⟨hmoves', hrest'⟩ := hmoves.advance hrest
  refine ⟨_, hmoves', hrest', ?_⟩
  rw [hrun, if_pos rfl, EStateM.run_bind_of_ok (run_advance 1 _)]

/-- `parse_factor` at a minus sign. -/
theorem parseFactor_neg {t : List UInt8} (h : InText buf st) (fuel : ℕ)
    (ht : dropSpaces (buf.rest st.expr) = '-'.toUInt8 :: t) :
    ∃ st', Moves buf st st' ∧ buf.rest st'.expr = t ∧
      (parseFactor strtod buf (fuel + 1)).run st =
        (do let value ← parseFactor strtod buf fuel; leaveFactor; pure (-value)).run st' := by
  obtain ⟨st₁, hmoves, hrest, hrun⟩ :=
    parseFactor_skip strtod h fuel (by rw [ht, List.headD_cons])
  rw [ht] at hrest
  have hpeek := peek_eq hmoves.inText (by rw [hrest, List.headD_cons])
  obtain ⟨hmoves', hrest'⟩ := hmoves.advance hrest
  refine ⟨{ st₁ with expr := st₁.expr + 1, reads := st₁.expr :: st₁.reads }, hmoves', hrest', ?_⟩
  rw [hrun, if_neg (by decide), EStateM.run_bind_of_ok hpeek, if_pos rfl,
    EStateM.run_bind_of_ok (run_advance 1 _)]

/-- `parse_factor` at the start of a number tries `strtod`. -/
theorem parseFactor_number (h : InText buf st) (fuel : ℕ)
    (hstart : NumberStart (dropSpaces (buf.rest st.expr))) :
    ∃ st', Moves buf st st' ∧ buf.rest st'.expr = dropSpaces (buf.rest st.expr) ∧
      (parseFactor strtod buf (fuel + 1)).run st =
        (do let value ← parseNumber strtod buf; leaveFactor; pure value).run st' := by
  obtain ⟨st₁, hmoves, hrest, hrun⟩ := parseFactor_skip strtod h fuel rfl
  have hpeek := peek_eq hmoves.inText (by rw [hrest])
  have hne : (dropSpaces (buf.rest st.expr)).headD 0 ≠ '('.toUInt8 ∧
      (dropSpaces (buf.rest st.expr)).headD 0 ≠ '-'.toUInt8 := by
    -- at the end of the text the character read is the NUL, which is neither
    cases ht : dropSpaces (buf.rest st.expr) with
    | nil => exact ⟨by decide, by decide⟩
    | cons c t => exact (hstart c (by rw [ht, List.head?_cons]; rfl)).2
  refine ⟨{ st₁ with reads := st₁.expr :: st₁.reads }, hmoves, hrest, ?_⟩
  rw [hrun, if_neg hne.1, EStateM.run_bind_of_ok hpeek, if_neg hne.2]

/-- A number that `strtod` converts is the factor. -/
theorem parseFactor_number_ok {v : α} {r : List UInt8} (h : InText buf st) (fuel : ℕ)
    (hstart : NumberStart (dropSpaces (buf.rest st.expr)))
    (hconv : strtod.Converts (dropSpaces (buf.rest st.expr)) v r) :
    ∃ st', (parseFactor strtod buf (fuel + 1)).run st = .ok v st' ∧ Moves buf st st' ∧
      buf.rest st'.expr = r := by
  obtain ⟨st₁, hmoves, hrest, hrun⟩ := parseFactor_number strtod h fuel hstart
  rw [← hrest] at hconv
  obtain ⟨hok, hv, hr⟩ := hconv
  -- the end pointer of `strtod` does not pass the NUL, so the cursor set to it does not either
  have hle := strtod.consumed_le (buf.rest st₁.expr)
  rw [buf.length_rest] at hle
  have hin : st₁.expr ≤ buf.text.length := hmoves.inText
  let st₂ : ParserState :=
    { st₁ with expr := st₁.expr + (strtod.convert (buf.rest st₁.expr)).consumed }
  have hnumber : (parseNumber strtod buf).run st₁ = .ok v st₂ := by
    simp only [parseNumber, EStateM.run, if_neg hok]
    rw [← hv]
    rfl
  refine ⟨{ st₂ with active := st₂.active - 1 }, ?_, ⟨?_, ?_⟩, ?_⟩
  · rw [hrun, EStateM.run_bind_of_ok hnumber]
    rfl
  · exact hmoves.1.trans (Nat.le_add_right _ _)
  · change st₁.expr + _ ≤ _
    omega
  · change buf.text.drop (st₁.expr + _) = r
    rw [← List.drop_drop]
    exact hr

/-- A number that `strtod` does not convert dies. -/
theorem parseFactor_number_died (h : InText buf st) (fuel : ℕ)
    (hstart : NumberStart (dropSpaces (buf.rest st.expr)))
    (hfail : (strtod.convert (dropSpaces (buf.rest st.expr))).consumed = 0 ∨
      (strtod.convert (dropSpaces (buf.rest st.expr))).erange) :
    ∃ st', (parseFactor strtod buf (fuel + 1)).run st =
      .error (.died "invalid numeric token") st' := by
  obtain ⟨st₁, -, hrest, hrun⟩ := parseFactor_number strtod h fuel hstart
  rw [← hrest] at hfail
  have hnumber : (parseNumber strtod buf).run st₁ =
      .error (.died "invalid numeric token") st₁ := by
    simp only [parseNumber, EStateM.run, if_pos hfail]
    rfl
  exact ⟨st₁, by rw [hrun, EStateM.run_bind_of_error hnumber]⟩

/-- The loop of `parse_term` stops in front of anything but `*` and `/`. -/
theorem termLoop_stop (h : InText buf st) (fuel : ℕ) (value : α)
    (hstop : (dropSpaces (buf.rest st.expr)).headD 0 ≠ '*'.toUInt8 ∧
      (dropSpaces (buf.rest st.expr)).headD 0 ≠ '/'.toUInt8) :
    ∃ st', (termLoop strtod buf (fuel + 1) value).run st = .ok value st' ∧ Moves buf st st' ∧
      buf.rest st'.expr = dropSpaces (buf.rest st.expr) := by
  obtain ⟨st₁, hmoves, hrest, hrun⟩ := skipSpaces_peek h rfl
  refine ⟨st₁, ?_, hmoves, hrest⟩
  rw [termLoop, hrun, if_pos hstop]
  rfl

/-- The loop of `parse_term` takes an operator and the factor after it. -/
theorem termLoop_operator {op : UInt8} {t : List UInt8} (h : InText buf st) (fuel : ℕ) (value : α)
    (ht : dropSpaces (buf.rest st.expr) = op :: t) (hop : op = '*'.toUInt8 ∨ op = '/'.toUInt8) :
    ∃ st', Moves buf st st' ∧ buf.rest st'.expr = t ∧
      (termLoop strtod buf (fuel + 1) value).run st =
        (do
          let rhs ← parseFactor strtod buf fuel
          termLoop strtod buf fuel
            (if op = '*'.toUInt8 then value * rhs else value / rhs)).run st' := by
  obtain ⟨st₁, hmoves, hrest, hrun⟩ := skipSpaces_peek h (by rw [ht, List.headD_cons])
  rw [ht] at hrest
  obtain ⟨hmoves', hrest'⟩ := hmoves.advance hrest
  have hgo : ¬(op ≠ '*'.toUInt8 ∧ op ≠ '/'.toUInt8) := fun hne => hop.elim hne.1 hne.2
  refine ⟨_, hmoves', hrest', ?_⟩
  rw [termLoop, hrun, if_neg hgo, EStateM.run_bind_of_ok (run_advance 1 _)]

/-- The loop of `parse_expression` stops in front of anything but `+` and `-`. -/
theorem expressionLoop_stop (h : InText buf st) (fuel : ℕ) (value : α)
    (hstop : (dropSpaces (buf.rest st.expr)).headD 0 ≠ '+'.toUInt8 ∧
      (dropSpaces (buf.rest st.expr)).headD 0 ≠ '-'.toUInt8) :
    ∃ st', (expressionLoop strtod buf (fuel + 1) value).run st = .ok value st' ∧
      Moves buf st st' ∧ buf.rest st'.expr = dropSpaces (buf.rest st.expr) := by
  obtain ⟨st₁, hmoves, hrest, hrun⟩ := skipSpaces_peek h rfl
  refine ⟨st₁, ?_, hmoves, hrest⟩
  rw [expressionLoop, hrun, if_pos hstop]
  rfl

/-- The loop of `parse_expression` takes an operator and the term after it. -/
theorem expressionLoop_operator {op : UInt8} {t : List UInt8} (h : InText buf st) (fuel : ℕ)
    (value : α) (ht : dropSpaces (buf.rest st.expr) = op :: t)
    (hop : op = '+'.toUInt8 ∨ op = '-'.toUInt8) :
    ∃ st', Moves buf st st' ∧ buf.rest st'.expr = t ∧
      (expressionLoop strtod buf (fuel + 1) value).run st =
        (do
          let rhs ← parseTerm strtod buf fuel
          expressionLoop strtod buf fuel
            (if op = '+'.toUInt8 then value + rhs else value - rhs)).run st' := by
  obtain ⟨st₁, hmoves, hrest, hrun⟩ := skipSpaces_peek h (by rw [ht, List.headD_cons])
  rw [ht] at hrest
  obtain ⟨hmoves', hrest'⟩ := hmoves.advance hrest
  have hgo : ¬(op ≠ '+'.toUInt8 ∧ op ≠ '-'.toUInt8) := fun hne => hop.elim hne.1 hne.2
  refine ⟨_, hmoves', hrest', ?_⟩
  rw [expressionLoop, hrun, if_neg hgo, EStateM.run_bind_of_ok (run_advance 1 _)]

end Parser

end UnixCalc
