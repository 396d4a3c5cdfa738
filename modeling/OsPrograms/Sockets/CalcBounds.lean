import OsPrograms.Sockets.CalcTrace

/-!
# Bounds on what the parser reads and on how deep it calls

What holds of every call that `evaluate` makes, on the paths that return and on those that die. The
invariant says that a call starts with its cursor inside the text, and that the number of active
`parse_factor` calls is at most the number of `(` and `-` that have been consumed. It is carried
through the traced functions of `CalcTrace` by the rules for postconditions of `Lib.StateError`.

## Main results

- `good_tracedEvaluate`: what holds of every entry of the log, and of the last state.
- `evaluate_stays_in_text`: the parser reads no character behind the NUL, and no call moves the
  cursor back or past the NUL.
- `evaluate_terminates`: `evaluate` returns or dies, and at any time at most one `parse_factor` call
  more is active than `(` and `-` have been consumed.
-/

namespace UnixCalc

/-! ## Characters that open a level -/

/-- The characters after which `parse_factor` calls itself, directly or through
`parse_expression`. -/
def isOpening (c : UInt8) : Bool :=
  c == '('.toUInt8 || c == '-'.toUInt8

/-- The number of such characters among the first `n` of the text. -/
def opened (buf : CBuffer) (n : ℕ) : ℕ :=
  (buf.text.take n).countP isOpening

section Opened

variable (buf : CBuffer)

/-- Consuming characters opens levels and closes none of the count. -/
theorem opened_mono {m n : ℕ} (h : m ≤ n) : opened buf m ≤ opened buf n :=
  (List.take_sublist_take_left h).countP_le

/-- There are no more levels than characters. -/
theorem opened_le (n : ℕ) : opened buf n ≤ buf.text.length :=
  List.countP_le_length.trans (List.length_take_le' n _)

/-- A `(` or a `-` opens a level. -/
theorem opened_succ {n : ℕ} {c : UInt8} {t : List UInt8} (h : buf.rest n = c :: t)
    (hc : isOpening c) : opened buf (n + 1) = opened buf n + 1 := by
  have hget : buf.text[n]? = some c := by
    rw [← List.head?_drop, ← CBuffer.rest, h, List.head?_cons]
  rw [opened, List.take_add_one, hget, List.countP_append]
  simp [hc, opened]

end Opened

/-! ## What the parts of a function do -/

/-- What a part of a function that calls no other does to the state: the cursor goes forward and
stays in the text, nothing behind the NUL is read, and the calls of `parse_factor` stay as they
are. -/
structure Scans (buf : CBuffer) (st st' : ParserState) : Prop where
  moves : Moves buf st st'
  reads : ∀ i ∈ st'.reads, i ∈ st.reads ∨ i ≤ buf.text.length
  active : st'.active = st.active
  deepest : st'.deepest = st.deepest

variable {buf : CBuffer} {st st' st'' : ParserState}

theorem Scans.trans (h : Scans buf st st') (h' : Scans buf st' st'') : Scans buf st st'' where
  moves := h.moves.trans h'.moves
  reads i hi := (h'.reads i hi).elim (h.reads i) .inr
  active := h'.active.trans h.active
  deepest := h'.deepest.trans h.deepest

/-- Reading through `expr` stays at or before the NUL. -/
theorem scans_peek (h : InText buf st) :
    Scans buf st { st with reads := st.expr :: st.reads } where
  moves := h.moves
  reads i hi := by
    rcases List.mem_cons.mp hi with rfl | hi
    · exact .inr h
    · exact .inl hi
  active := rfl
  deepest := rfl

/-- `expr` goes forward inside the text. -/
theorem scans_advance {n : ℕ} (h : st.expr + n ≤ buf.text.length) :
    Scans buf st { st with expr := st.expr + n } where
  moves := ⟨Nat.le_add_right _ n, h⟩
  reads _ hi := .inl hi
  active := rfl
  deepest := rfl

/-- A character that is not the NUL is in the text. -/
theorem CBuffer.rest_eq_cons_of_headD {i : ℕ} {c : UInt8} (h : (buf.rest i).headD 0 = c)
    (hc : c ≠ 0) : ∃ t, buf.rest i = c :: t := by
  cases hrest : buf.rest i with
  | nil =>
    rw [hrest] at h
    exact absurd h.symm hc
  | cons d t =>
    rw [hrest, List.headD_cons] at h
    exact ⟨t, by rw [h]⟩

/-- The loop of `skip_spaces` stops at the NUL, which is no space. -/
theorem skipSpacesLoop_scans (fuel : ℕ) (h : InText buf st) :
    ((skipSpacesLoop buf fuel).run st).Ends (fun _ st' => Scans buf st st')
      (fun st' => Scans buf st st') := by
  induction fuel generalizing st with
  | zero =>
    rw [skipSpacesLoop]
    exact ⟨h.moves, fun _ => .inl, rfl, rfl⟩
  | succ fuel ih =>
    have hpeek := scans_peek h
    rw [skipSpacesLoop, EStateM.run_bind_of_ok (peek_eq h rfl)]
    by_cases hc : isspace ((buf.rest st.expr).headD 0) = true
    · rw [if_pos hc, EStateM.run_bind_of_ok (run_advance 1 _)]
      -- the NUL is no white space
      have hne : (buf.rest st.expr).headD 0 ≠ 0 := fun h0 => absurd (h0 ▸ hc) (by decide)
      obtain ⟨t, ht⟩ := CBuffer.rest_eq_cons_of_headD rfl hne
      have hnext := hpeek.trans (scans_advance (n := 1) (buf.lt_of_rest_eq_cons ht))
      have hloop := ih hnext.moves.inText
      exact hloop.mono (fun _ _ => hnext.trans) fun _ => hnext.trans
    · rw [if_neg hc]
      exact hpeek

/-! ## The invariant -/

/-- What holds of every entry of the log. -/
def Event.Ok (buf : CBuffer) : Event → Prop
  | .call f st =>
    InText buf st ∧ (f = .parseFactor → st.active ≤ opened buf st.expr)
  | .ret _ st st' => Moves buf st st'

/-- A call of another function than `parse_factor` only needs the cursor inside the text. -/
theorem Event.Ok.call {f : ParserFunction} (hf : f ≠ .parseFactor) (h : InText buf st) :
    (Event.call f st).Ok buf :=
  ⟨h, fun hf' => absurd hf' hf⟩

/-- What holds at any time. -/
structure Good (buf : CBuffer) (s : TracedState) : Prop where
  reads : ∀ i ∈ s.parser.reads, i ≤ buf.text.length
  log : ∀ e ∈ s.log, e.Ok buf
  deepest : s.parser.deepest ≤ opened buf s.parser.expr + 1

/-- What holds before a call of a parser function. -/
structure Ready (buf : CBuffer) (s : TracedState) : Prop where
  good : Good buf s
  inText : InText buf s.parser
  depth : s.parser.active ≤ opened buf s.parser.expr

/-- What holds inside a function that was called in `st`, while `k` of its own calls of
`parse_factor` are active. -/
structure Within (buf : CBuffer) (st : ParserState) (k : ℕ) (s : TracedState) : Prop where
  good : Good buf s
  moves : Moves buf st s.parser
  active : s.parser.active = st.active + k

variable {s s' : TracedState} {k : ℕ}

/-- Between calls nothing is added to the log. -/
theorem Good.scans (h : Good buf s) (hs : Scans buf s.parser st') :
    Good buf { s with parser := st' } where
  reads i hi := (hs.reads i hi).elim (h.reads i) id
  log := h.log
  deepest := by
    have hmono := opened_mono buf hs.moves.1
    have hdeepest := h.deepest
    dsimp only
    rw [hs.deepest]
    omega

theorem Within.scans (h : Within buf st k s) (hs : Scans buf s.parser st') :
    Within buf st k { s with parser := st' } where
  good := h.good.scans hs
  moves := h.moves.trans hs.moves
  active := hs.active.trans h.active

/-- A call that has returned leaves its caller where it was, further on in the text. -/
theorem Within.trans (h : Within buf st k s) (h' : Within buf s.parser 0 s') :
    Within buf st k s' where
  good := h'.good
  moves := h.moves.trans h'.moves
  active := h'.active.trans h.active

/-- A function starts in the state in which it was called. -/
theorem Ready.within (h : Ready buf s) : Within buf s.parser 0 s where
  good := h.good
  moves := h.inText.moves
  active := rfl

/-- A function may call another one, since the cursor has only gone forward. -/
theorem Within.ready (h : Within buf st 0 s) (hdepth : st.active ≤ opened buf st.expr) :
    Ready buf s where
  good := h.good
  inText := h.moves.inText
  depth := by
    rw [h.active]
    exact hdepth.trans (opened_mono buf h.moves.1)

/-! ## The parts of the traced functions -/

section Parts

variable {β : Type} {Q : β → TracedState → Prop}

/-- The rule for a part of a function that calls no other. -/
theorem ends_untraced {x : Parse β}
    (h : (x.run s.parser).Ends (fun v st => Q v { s with parser := st })
      (fun st => Good buf { s with parser := st })) :
    ((untraced x).run s).Ends Q (Good buf) := by
  simp only [untraced, EStateM.run] at h ⊢
  cases hx : x s.parser with
  | ok v st' =>
    rw [hx] at h
    exact h
  | error e st' =>
    rw [hx] at h
    exact h

/-- A call that goes well adds an entry for its return. -/
theorem ends_traced {f : ParserFunction} {x : Traced β} (hgood : Good buf s)
    (hcall : (Event.call f s.parser).Ok buf)
    (hx : ∀ s₁, Good buf s₁ → s₁.parser = s.parser →
      (x.run s₁).Ends (fun _ s' => Within buf s.parser 0 s') (Good buf)) :
    ((traced f x).run s).Ends (fun _ s' => Within buf s.parser 0 s') (Good buf) := by
  let s₁ : TracedState := { s with log := .call f s.parser :: s.log }
  have hgood₁ : Good buf s₁ :=
    { reads := hgood.reads, log := List.forall_mem_cons.mpr ⟨hcall, hgood.log⟩,
      deepest := hgood.deepest }
  have hend := hx s₁ hgood₁ rfl
  simp only [traced, EStateM.run] at hend ⊢
  cases hrun : x s₁ with
  | ok v s' =>
    rw [hrun] at hend
    have hwithin : Within buf s.parser 0 s' := hend
    exact
      { good :=
          { reads := hwithin.good.reads
            log := List.forall_mem_cons.mpr ⟨hwithin.moves, hwithin.good.log⟩
            deepest := hwithin.good.deepest }
        moves := hwithin.moves
        active := hwithin.active }
  | error e s' =>
    rw [hrun] at hend
    exact hend

/-- A call of another function than `parse_factor`, whose body is ready as it is called. -/
theorem Ready.ends_traced {f : ParserFunction} {x : Traced β} (h : Ready buf s)
    (hf : f ≠ .parseFactor)
    (hx : ∀ s₁, Ready buf s₁ →
      (x.run s₁).Ends (fun _ s' => Within buf s₁.parser 0 s') (Good buf)) :
    ((traced f x).run s).Ends (fun _ s' => Within buf s.parser 0 s') (Good buf) := by
  refine UnixCalc.ends_traced h.good (.call hf h.inText) fun s₁ hgood₁ hs₁ => ?_
  rw [← hs₁]
  exact hx s₁ ⟨hgood₁, hs₁ ▸ h.inText, hs₁ ▸ h.depth⟩

/-- The rule for a call of `skip_spaces`. -/
theorem ends_skipSpaces (h : Within buf st k s) :
    ((tracedSkipSpaces buf).run s).Ends (fun _ s' => Within buf st k s') (Good buf) := by
  have hin := h.moves.inText
  have hskip := ends_traced (f := .skipSpaces) (x := untraced (skipSpaces buf)) h.good
    (.call (by decide) hin) fun s₁ hgood₁ hs₁ => ends_untraced (by
      have hloop := skipSpacesLoop_scans (buf.text.length + 1) hin
      rw [hs₁]
      have hwithin₁ : Within buf s.parser 0 s₁ :=
        { good := hgood₁, moves := hs₁ ▸ hin.moves, active := by rw [hs₁]; rfl }
      exact hloop.mono (fun _ _ hs => hwithin₁.scans (hs₁ ▸ hs))
        fun _ hs => hgood₁.scans (hs₁ ▸ hs))
  exact hskip.mono (fun _ _ => h.trans) fun _ => id

/-- The rule for a look at the next character. -/
theorem ends_peek (h : Within buf st k s) :
    ((untraced (peek buf)).run s).Ends
      (fun c s' => Within buf st k s' ∧ (buf.rest s'.parser.expr).headD 0 = c) (Good buf) := by
  apply ends_untraced
  rw [peek_eq h.moves.inText rfl]
  exact ⟨h.scans (scans_peek h.moves.inText), rfl⟩

/-- The rule for `expr++` after a character that is not NUL. -/
theorem ends_advance {c : UInt8} (h : Within buf st k s)
    (hc : (buf.rest s.parser.expr).headD 0 = c) (hne : c ≠ 0) :
    ((untraced (advance 1)).run s).Ends (fun _ s' => Within buf st k s') (Good buf) := by
  obtain ⟨t, ht⟩ := CBuffer.rest_eq_cons_of_headD hc hne
  apply ends_untraced
  exact h.scans (scans_advance (buf.lt_of_rest_eq_cons ht))

/-- After an opening character, the next call has one level more to spend. -/
theorem ends_advance_opening {c : UInt8} (h : Within buf st 1 s)
    (hdepth : st.active ≤ opened buf st.expr) (hc : (buf.rest s.parser.expr).headD 0 = c)
    (hopening : isOpening c) :
    ((untraced (advance 1)).run s).Ends (fun _ s' => Within buf st 1 s' ∧ Ready buf s')
      (Good buf) := by
  have hne : c ≠ 0 := fun h0 => absurd (h0 ▸ hopening) (by decide)
  obtain ⟨t, ht⟩ := CBuffer.rest_eq_cons_of_headD hc hne
  have hwithin := h.scans (scans_advance (n := 1) (buf.lt_of_rest_eq_cons ht))
  apply ends_untraced
  refine ⟨hwithin, hwithin.good, hwithin.moves.inText, ?_⟩
  have hsucc := opened_succ buf ht hopening
  have hmono := opened_mono buf h.moves.1
  have hactive := h.active
  change s.parser.active ≤ opened buf (s.parser.expr + 1)
  omega

/-- The rule for the return from `parse_factor`. -/
theorem ends_leaveFactor (h : Within buf st 1 s) (v : β) :
    ((untraced leaveFactor >>= fun _ => pure v : Traced β).run s).Ends
      (fun _ s' => Within buf st 0 s') (Good buf) := by
  have hactive := h.active
  exact
    { good := { reads := h.good.reads, log := h.good.log, deepest := h.good.deepest }
      moves := h.moves
      active := by
        change s.parser.active - 1 = st.active + 0
        omega }

/-- The rule for `strtod`: it consumes a part of the text, or the program dies where it is. -/
theorem scans_parseNumber (strtod : Strtod β) (h : InText buf st) :
    ((parseNumber strtod buf).run st).Ends (fun _ st' => Scans buf st st')
      (fun st' => st' = st) := by
  simp only [parseNumber, EStateM.run]
  split
  · exact rfl
  · -- the end pointer of `strtod` does not pass the NUL
    have hle := strtod.consumed_le (buf.rest st.expr)
    rw [buf.length_rest] at hle
    have hin : st.expr ≤ buf.text.length := h
    exact scans_advance (by omega)

/-- The part of `parse_factor` after an expression in parentheses. -/
theorem ends_close (h : Within buf st 1 s) (v : β) :
    ((do
      tracedSkipSpaces buf
      let close ← untraced (peek buf)
      untraced (advance 1)
      if close ≠ ')'.toUInt8 then
        untraced (die "missing parenthesis")
      else
        untraced leaveFactor
        pure v : Traced β).run s).Ends (fun _ s' => Within buf st 0 s') (Good buf) := by
  refine EStateM.ends_bind (ends_skipSpaces h) fun _ s₁ h₁ => ?_
  refine EStateM.ends_bind (ends_peek h₁) fun close s₂ h₂' => ?_
  obtain ⟨h₂, hclose⟩ := h₂'
  by_cases hparen : close = ')'.toUInt8
  · refine EStateM.ends_bind (ends_advance h₂ hclose (by rw [hparen]; decide)) fun _ s₃ h₃ => ?_
    rw [if_neg (not_not_intro hparen)]
    exact ends_leaveFactor h₃ v
  · -- the cursor may be past the NUL now, but nothing is read any more
    rw [if_pos hparen]
    have hmono := opened_mono buf (Nat.le_add_right s₂.parser.expr 1)
    have hdeepest := h₂.good.deepest
    refine ⟨h₂.good.reads, h₂.good.log, ?_⟩
    change s₂.parser.deepest ≤ opened buf (s₂.parser.expr + 1) + 1
    omega

/-- One round of the loops of `parse_term` and `parse_expression`: `x` is the operand and `rest` the
rounds after it. The loop ends at a character with `P`, as the NUL is. -/
theorem ends_operatorLoop {P : UInt8 → Prop} [DecidablePred P] {x : Traced β}
    {rest : UInt8 → β → Traced β} {acc : β} (hzero : P 0)
    (hx : ∀ {s}, Ready buf s → (x.run s).Ends (fun _ s' => Within buf s.parser 0 s') (Good buf))
    (hrest : ∀ {s} op rhs, Ready buf s →
      ((rest op rhs).run s).Ends (fun _ s' => Within buf s.parser 0 s') (Good buf))
    (h : Ready buf s) :
    ((do
      tracedSkipSpaces buf
      let op ← untraced (peek buf)
      if P op then
        pure acc
      else
        untraced (advance 1)
        let rhs ← x
        rest op rhs : Traced β).run s).Ends (fun _ s' => Within buf s.parser 0 s')
      (Good buf) := by
  refine EStateM.ends_bind (ends_skipSpaces h.within) fun _ s₁ h₁ => ?_
  refine EStateM.ends_bind (ends_peek h₁) fun op s₂ h₂' => ?_
  obtain ⟨h₂, hop⟩ := h₂'
  by_cases hend : P op
  · rw [if_pos hend]
    exact h₂
  · rw [if_neg hend]
    -- an operator is not the NUL, so the cursor stays inside the text
    have hne : op ≠ 0 := fun h0 => hend (h0 ▸ hzero)
    refine EStateM.ends_bind (ends_advance h₂ hop hne) fun _ s₃ h₃ => ?_
    refine EStateM.ends_bind (hx (h₃.ready h.depth)) fun rhs s₄ h₄ => ?_
    have h₅ := h₃.trans h₄
    exact (hrest op rhs (h₅.ready h.depth)).mono (fun _ _ => h₅.trans) fun _ => id

end Parts

/-! ## All calls -/

section Calls

variable {α : Type} [Add α] [Sub α] [Mul α] [Div α] [Neg α] (strtod : Strtod α) (buf : CBuffer)

/-- The calls with `fuel` keep the invariant, whether they return or die. -/
structure GoodAt (fuel : ℕ) : Prop where
  factor : ∀ {s}, Ready buf s → ((tracedFactor strtod buf fuel).run s).Ends
    (fun _ s' => Within buf s.parser 0 s') (Good buf)
  term : ∀ {s}, Ready buf s → ((tracedTerm strtod buf fuel).run s).Ends
    (fun _ s' => Within buf s.parser 0 s') (Good buf)
  termLoop : ∀ {s acc}, Ready buf s → ((tracedTermLoop strtod buf fuel acc).run s).Ends
    (fun _ s' => Within buf s.parser 0 s') (Good buf)
  expression : ∀ {s}, Ready buf s → ((tracedExpression strtod buf fuel).run s).Ends
    (fun _ s' => Within buf s.parser 0 s') (Good buf)
  expressionLoop : ∀ {s acc}, Ready buf s →
    ((tracedExpressionLoop strtod buf fuel acc).run s).Ends
      (fun _ s' => Within buf s.parser 0 s') (Good buf)

variable {strtod buf} {fuel : ℕ}

/-- `parse_factor` calls itself or `parse_expression` only after a `(` or a `-`. -/
theorem GoodAt.factor_succ (ih : GoodAt strtod buf fuel) (h : Ready buf s) :
    ((tracedFactor strtod buf (fuel + 1)).run s).Ends
      (fun _ s' => Within buf s.parser 0 s') (Good buf) := by
  rw [tracedFactor]
  refine ends_traced h.good ⟨h.inText, fun _ => h.depth⟩ fun s₁ hgood₁ hs₁ => ?_
  -- the call is active from here on
  have henter : ((untraced enterFactor).run s₁).Ends (fun _ s' => Within buf s.parser 1 s')
      (Good buf) := by
    apply ends_untraced
    rw [hs₁]
    have hdepth := h.depth
    have hdeepest := hgood₁.deepest
    rw [hs₁] at hdeepest
    exact
      { good :=
          { reads := hs₁ ▸ hgood₁.reads
            log := hgood₁.log
            deepest := by
              change max s.parser.deepest (s.parser.active + 1) ≤ opened buf s.parser.expr + 1
              omega }
        moves := h.inText.moves
        active := rfl }
  refine EStateM.ends_bind henter fun _ s₂ h₂ => ?_
  refine EStateM.ends_bind (ends_skipSpaces h₂) fun _ s₃ h₃ => ?_
  refine EStateM.ends_bind (ends_peek h₃) fun c s₄ h₄' => ?_
  obtain ⟨h₄, hc⟩ := h₄'
  split
  case isTrue hparen =>
    have hadvance := ends_advance_opening h₄ h.depth hc (by rw [hparen]; decide)
    refine EStateM.ends_bind hadvance fun _ s₅ h₅' => ?_
    obtain ⟨h₅, hready⟩ := h₅'
    exact EStateM.ends_bind (ih.expression hready) fun v s₆ h₆ => ends_close (h₅.trans h₆) v
  case isFalse =>
    refine EStateM.ends_bind (ends_peek h₄) fun c s₅ h₅' => ?_
    obtain ⟨h₅, hc⟩ := h₅'
    split
    case isTrue hminus =>
      have hadvance := ends_advance_opening h₅ h.depth hc (by rw [hminus]; decide)
      refine EStateM.ends_bind hadvance fun _ s₆ h₆' => ?_
      obtain ⟨h₆, hready⟩ := h₆'
      exact EStateM.ends_bind (ih.factor hready) fun v s₇ h₇ => ends_leaveFactor (h₆.trans h₇) (-v)
    case isFalse =>
      have hnumber : ((untraced (parseNumber strtod buf)).run s₅).Ends
          (fun _ s' => Within buf s.parser 1 s') (Good buf) :=
        ends_untraced ((scans_parseNumber strtod h₅.moves.inText).mono (fun _ _ => h₅.scans)
          fun st' hst' => hst' ▸ h₅.good)
      exact EStateM.ends_bind hnumber fun v s₆ h₆ => ends_leaveFactor h₆ v

/-- Each iteration of `parse_term` calls `parse_factor` at the level of its own call. -/
theorem GoodAt.termLoop_succ (ih : GoodAt strtod buf fuel) {acc : α} (h : Ready buf s) :
    ((tracedTermLoop strtod buf (fuel + 1) acc).run s).Ends
      (fun _ s' => Within buf s.parser 0 s') (Good buf) := by
  rw [tracedTermLoop]
  exact ends_operatorLoop ⟨by decide, by decide⟩ ih.factor (fun _ _ => ih.termLoop) h

/-- Each iteration of `parse_expression` calls `parse_term` at the level of its own call. -/
theorem GoodAt.expressionLoop_succ (ih : GoodAt strtod buf fuel) {acc : α} (h : Ready buf s) :
    ((tracedExpressionLoop strtod buf (fuel + 1) acc).run s).Ends
      (fun _ s' => Within buf s.parser 0 s') (Good buf) := by
  rw [tracedExpressionLoop]
  exact ends_operatorLoop ⟨by decide, by decide⟩ ih.term (fun _ _ => ih.expressionLoop) h

/-- Every call keeps the invariant. -/
theorem goodAt (fuel : ℕ) : GoodAt strtod buf fuel := by
  induction fuel with
  | zero =>
    -- nothing has happened since the call
    refine ⟨fun h => ?_, fun h => ?_, fun h => ?_, fun h => ?_, fun h => ?_⟩
    · rw [tracedFactor]
      exact h.good
    · rw [tracedTerm]
      exact h.good
    · rw [tracedTermLoop]
      exact h.good
    · rw [tracedExpression]
      exact h.good
    · rw [tracedExpressionLoop]
      exact h.good
  | succ fuel ih =>
    refine ⟨ih.factor_succ, fun {s} h => ?_, ih.termLoop_succ, fun {s} h => ?_,
      ih.expressionLoop_succ⟩
    · rw [tracedTerm]
      refine h.ends_traced (by decide) fun s₁ hready => ?_
      refine EStateM.ends_bind (ih.factor hready) fun v s₂ h₂ => ?_
      exact (ih.termLoop (h₂.ready hready.depth)).mono (fun _ _ => h₂.trans) fun _ => id
    · rw [tracedExpression]
      refine h.ends_traced (by decide) fun s₁ hready => ?_
      refine EStateM.ends_bind (ih.term hready) fun v s₂ h₂ => ?_
      exact (ih.expressionLoop (h₂.ready hready.depth)).mono (fun _ _ => h₂.trans) fun _ => id

/-- The invariant holds when `evaluate` has returned or died. -/
theorem good_tracedEvaluate (strtod : Strtod α) (buf : CBuffer) :
    Good buf (tracedEvaluate strtod buf).state := by
  have hready : Ready buf { parser := .start, log := [] } :=
    { good := { reads := nofun, log := nofun, deepest := Nat.zero_le _ }
      inText := inText_start buf
      depth := Nat.zero_le _ }
  have hends : (tracedEvaluate strtod buf).Ends (fun _ s' => Good buf s') (Good buf) := by
    refine EStateM.ends_bind ((goodAt _).expression hready) fun v s₁ h₁ => ?_
    refine EStateM.ends_bind (ends_skipSpaces h₁) fun _ s₂ h₂ => ?_
    refine EStateM.ends_bind (ends_peek h₂) fun c s₃ h₃' => ?_
    obtain ⟨h₃, -⟩ := h₃'
    split
    · exact h₃.good
    · refine EStateM.ends_bind (ends_peek h₃) fun c s₄ h₄' => ?_
      obtain ⟨h₄, -⟩ := h₄'
      split
      · exact h₄.good
      · exact h₄.good
  exact hends.state fun _ _ => id

omit [Add α] [Sub α] [Mul α] [Div α] [Neg α] in
theorem state_erase (r : EStateM.Result Halt TracedState α) :
    (erase r).state = r.state.parser := by
  cases r <;> rfl

/-- `evaluate` ends in the state in which the traced evaluator ends. -/
theorem state_evaluate (strtod : Strtod α) (buf : CBuffer) :
    (evaluate strtod buf).state = (tracedEvaluate strtod buf).state.parser := by
  rw [← erase_tracedEvaluate, state_erase]

/-- For every request that `serve` stores, on every path through `evaluate`: no character behind the
first NUL is read through `expr`, and when a parser function returns, the cursor is not before its
place at the call and not past that NUL. -/
theorem evaluate_stays_in_text (strtod : Strtod α) (data junk : List UInt8) :
    ((∃ v, Returns strtod (.store data junk) v) ∨ Dies strtod (.store data junk)) ∧
      (∀ i ∈ (evaluate strtod (.store data junk)).state.reads,
        i ≤ (CBuffer.store data junk).text.length) ∧
      erase (tracedEvaluate strtod (.store data junk)) = evaluate strtod (.store data junk) ∧
      ∀ f st st', .ret f st st' ∈ (tracedEvaluate strtod (.store data junk)).state.log →
        st.expr ≤ st'.expr ∧ st'.expr ≤ (CBuffer.store data junk).text.length := by
  have hgood := good_tracedEvaluate strtod (.store data junk)
  refine ⟨returns_or_dies _ _, ?_, erase_tracedEvaluate _ _, ?_⟩
  · rw [state_evaluate]
    exact hgood.reads
  · intro f st st' hret
    exact hgood.log _ hret

/-- `evaluate` returns or dies on every input. At any time the number of active `parse_factor` calls
is at most one more than that of the `(` and `-` that have been consumed, and so at most one more
than the length of the input. -/
theorem evaluate_terminates (strtod : Strtod α) (buf : CBuffer) :
    ((∃ v, Returns strtod buf v) ∨ Dies strtod buf) ∧
      (evaluate strtod buf).state.deepest ≤ buf.text.length + 1 ∧
      erase (tracedEvaluate strtod buf) = evaluate strtod buf ∧
      ∀ st, .call .parseFactor st ∈ (tracedEvaluate strtod buf).state.log →
        st.active + 1 ≤ opened buf st.expr + 1 := by
  have hgood := good_tracedEvaluate strtod buf
  refine ⟨returns_or_dies _ _, ?_, erase_tracedEvaluate _ _, ?_⟩
  · rw [state_evaluate]
    exact hgood.deepest.trans (Nat.succ_le_succ (opened_le buf _))
  · intro st hcall
    exact Nat.succ_le_succ ((hgood.log _ hcall).2 rfl)

end Calls

end UnixCalc
