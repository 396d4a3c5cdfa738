import OsPrograms.Sockets.CalcSteps

/-!
# The evaluator computes the grammar's value

Three facts about every call of a parser function whose cursor is inside the text:

* soundness (`sound`): a call that returns has read a phrase of its nonterminal, of which it
  returns the value;
* termination (`halts_died`): with fuel for three calls per character left, a call that does not
  return has died;
* completeness (`accepts`): where a phrase starts, the call returns its value, unless it runs
  out of fuel. A loop takes the longest chain it can, so a phrase of a chain only has to be
  recognised when no further operator of that chain follows it.

`evaluate` hands out enough fuel for every text, so together they say that it returns exactly the
values the grammar gives to its input.
-/

namespace UnixCalc

variable {α : Type} [Add α] [Sub α] [Mul α] [Div α] [Neg α] (strtod : Strtod α) (buf : CBuffer)

/-- After the leading white space there is a parenthesis, a minus sign, or the place where a
number is tried. -/
theorem factor_cases (s : List UInt8) :
    (∃ t, dropSpaces s = '('.toUInt8 :: t) ∨ (∃ t, dropSpaces s = '-'.toUInt8 :: t) ∨
      NumberStart (dropSpaces s) := by
  cases hs : dropSpaces s with
  | nil => exact .inr (.inr fun c hc => by cases hc)
  | cons c t =>
    by_cases hparen : c = '('.toUInt8
    · exact .inl ⟨t, by rw [hparen]⟩
    by_cases hminus : c = '-'.toUInt8
    · exact .inr (.inl ⟨t, by rw [hminus]⟩)
    refine .inr (.inr ?_)
    intro d hd
    cases hd
    exact ⟨isspace_of_dropSpaces_eq_cons hs, hparen, hminus⟩

/-- After the leading white space there is one of two operators, or neither. -/
theorem operator_cases {a b : UInt8} (ha : a ≠ 0) (hb : b ≠ 0) (s : List UInt8) :
    (∃ op t, dropSpaces s = op :: t ∧ (op = a ∨ op = b)) ∨
      ((dropSpaces s).headD 0 ≠ a ∧ (dropSpaces s).headD 0 ≠ b) := by
  cases hs : dropSpaces s with
  | nil => exact .inr ⟨ha.symm, hb.symm⟩
  | cons c t =>
    by_cases hc : c = a ∨ c = b
    · exact .inl ⟨c, t, rfl, hc⟩
    · rw [not_or] at hc
      exact .inr hc

/-- After the leading white space there is a closing parenthesis, or something else. -/
theorem close_cases (s : List UInt8) :
    (∃ t, dropSpaces s = ')'.toUInt8 :: t) ∨ (dropSpaces s).headD 0 ≠ ')'.toUInt8 := by
  cases hs : dropSpaces s with
  | nil => exact .inr (by decide)
  | cons c t =>
    by_cases hc : c = ')'.toUInt8
    · exact .inl ⟨t, by rw [hc]⟩
    · exact .inr hc

/-! ## Soundness -/

/-- What the calls with `fuel` that return have read. The functions that end with a loop return
after the white space that follows their phrase. -/
structure SoundAt (fuel : ℕ) : Prop where
  factor : ∀ {st st' v}, InText buf st → (parseFactor strtod buf fuel).run st = .ok v st' →
    Moves buf st st' ∧ Derives strtod .factor (buf.rest st.expr) v (buf.rest st'.expr)
  term : ∀ {st st' v}, InText buf st → (parseTerm strtod buf fuel).run st = .ok v st' →
    Moves buf st st' ∧
      ∃ r, Derives strtod .term (buf.rest st.expr) v r ∧ Ws r (buf.rest st'.expr)
  termLoop : ∀ {st st' acc v s}, InText buf st →
    Derives strtod .term s acc (buf.rest st.expr) →
    (termLoop strtod buf fuel acc).run st = .ok v st' →
    Moves buf st st' ∧ ∃ r, Derives strtod .term s v r ∧ Ws r (buf.rest st'.expr)
  expression : ∀ {st st' v}, InText buf st →
    (parseExpression strtod buf fuel).run st = .ok v st' →
    Moves buf st st' ∧
      ∃ r, Derives strtod .expr (buf.rest st.expr) v r ∧ Ws r (buf.rest st'.expr)
  expressionLoop : ∀ {st st' acc v s r₀}, InText buf st → Derives strtod .expr s acc r₀ →
    Ws r₀ (buf.rest st.expr) → (expressionLoop strtod buf fuel acc).run st = .ok v st' →
    Moves buf st st' ∧ ∃ r, Derives strtod .expr s v r ∧ Ws r (buf.rest st'.expr)

/-- Without fuel no call returns. -/
theorem soundAt_zero : SoundAt strtod buf 0 where
  factor _ h := by rw [parseFactor] at h; cases h
  term _ h := by rw [parseTerm] at h; cases h
  termLoop _ _ h := by rw [UnixCalc.termLoop] at h; cases h
  expression _ h := by rw [parseExpression] at h; cases h
  expressionLoop _ _ _ h := by rw [UnixCalc.expressionLoop] at h; cases h

variable {strtod buf} {fuel : ℕ} {st st' : ParserState}

/-- White space up to a character that is found after dropping it. -/
theorem ws_of_dropSpaces_eq {s t : List UInt8} (h : dropSpaces s = t) : Ws s t :=
  h ▸ ws_dropSpaces s

/-- Soundness of `parse_factor` from soundness with less fuel. -/
theorem SoundAt.factor_succ (ih : SoundAt strtod buf fuel) {v : α} (hin : InText buf st)
    (h : (parseFactor strtod buf (fuel + 1)).run st = .ok v st') :
    Moves buf st st' ∧ Derives strtod .factor (buf.rest st.expr) v (buf.rest st'.expr) := by
  rcases factor_cases (buf.rest st.expr) with ⟨t, ht⟩ | ⟨t, ht⟩ | hstart
  · -- `(`: the expression, then the closing parenthesis after white space
    obtain ⟨st₁, hmoves, hrest, hrun⟩ := parseFactor_paren strtod hin fuel ht
    rw [hrun, EStateM.run_bind_eq_ok] at h
    obtain ⟨w, st₂, hexpr, hclose⟩ := h
    obtain ⟨hmoves₂, r, hder, hws⟩ := ih.expression hmoves.inText hexpr
    rcases close_cases (buf.rest st₂.expr) with ⟨u, hu⟩ | hne
    · obtain ⟨st₃, hok, hmoves₃, hrest₃⟩ := closeParen_ok hmoves₂.inText w hu
      rw [hok] at hclose
      cases hclose
      rw [hrest] at hder
      refine ⟨(hmoves.trans hmoves₂).trans hmoves₃, ?_⟩
      rw [hrest₃]
      exact .paren (ws_of_dropSpaces_eq ht) hder (hws.trans (ws_of_dropSpaces_eq hu))
    · obtain ⟨st₃, hdied⟩ := closeParen_died hmoves₂.inText w hne
      rw [hdied] at hclose
      cases hclose
  · -- `-`: the factor after it, negated
    obtain ⟨st₁, hmoves, hrest, hrun⟩ := parseFactor_neg strtod hin fuel ht
    rw [hrun, EStateM.run_bind_eq_ok] at h
    obtain ⟨w, st₂, hfactor, hret⟩ := h
    cases hret
    obtain ⟨hmoves₂, hder⟩ := ih.factor hmoves.inText hfactor
    rw [hrest] at hder
    exact ⟨hmoves.trans hmoves₂, .neg (ws_of_dropSpaces_eq ht) hder⟩
  -- a number: `strtod` converts something that is in range, or the parser dies
  · by_cases hfail : (strtod.convert (dropSpaces (buf.rest st.expr))).consumed = 0 ∨
        (strtod.convert (dropSpaces (buf.rest st.expr))).erange
    · obtain ⟨st₁, hdied⟩ := parseFactor_number_died strtod hin fuel hstart hfail
      rw [hdied] at h
      cases h
    · obtain ⟨st₁, hok, hmoves, hrest⟩ :=
        parseFactor_number_ok strtod hin fuel hstart ⟨hfail, rfl, rfl⟩
      rw [hok] at h
      cases h
      refine ⟨hmoves, ?_⟩
      rw [hrest]
      exact .num (ws_dropSpaces _) hstart ⟨hfail, rfl, rfl⟩

/-- Soundness of the loop of `parse_term` from soundness with less fuel. -/
theorem SoundAt.termLoop_succ (ih : SoundAt strtod buf fuel) {acc v : α} {s : List UInt8}
    (hin : InText buf st) (hder : Derives strtod .term s acc (buf.rest st.expr))
    (h : (UnixCalc.termLoop strtod buf (fuel + 1) acc).run st = .ok v st') :
    Moves buf st st' ∧ ∃ r, Derives strtod .term s v r ∧ Ws r (buf.rest st'.expr) := by
  rcases operator_cases (a := '*'.toUInt8) (b := '/'.toUInt8) (by decide) (by decide)
    (buf.rest st.expr) with ⟨op, t, ht, hop⟩ | hstop
  · obtain ⟨st₁, hmoves, hrest, hrun⟩ := termLoop_operator strtod hin fuel acc ht hop
    rw [hrun, EStateM.run_bind_eq_ok] at h
    obtain ⟨w, st₂, hfactor, hloop⟩ := h
    obtain ⟨hmoves₂, hrhs⟩ := ih.factor hmoves.inText hfactor
    rw [hrest] at hrhs
    -- the chain grows at its right end, so the derivation of the value so far is extended
    have hacc : Derives strtod .term s (if op = '*'.toUInt8 then acc * w else acc / w)
        (buf.rest st₂.expr) := by
      rcases hop with rfl | rfl
      · exact .mul hder (ws_of_dropSpaces_eq ht) hrhs
      · exact .div hder (ws_of_dropSpaces_eq ht) hrhs
    obtain ⟨hmoves₃, hres⟩ := ih.termLoop hmoves₂.inText hacc hloop
    exact ⟨(hmoves.trans hmoves₂).trans hmoves₃, hres⟩
  · obtain ⟨st₁, hok, hmoves, hrest⟩ := termLoop_stop strtod hin fuel acc hstop
    rw [hok] at h
    cases h
    exact ⟨hmoves, _, hder, ws_of_dropSpaces_eq hrest.symm⟩

/-- Soundness of the loop of `parse_expression` from soundness with less fuel. -/
theorem SoundAt.expressionLoop_succ (ih : SoundAt strtod buf fuel) {acc v : α}
    {s r₀ : List UInt8} (hin : InText buf st) (hder : Derives strtod .expr s acc r₀)
    (hws : Ws r₀ (buf.rest st.expr))
    (h : (UnixCalc.expressionLoop strtod buf (fuel + 1) acc).run st = .ok v st') :
    Moves buf st st' ∧ ∃ r, Derives strtod .expr s v r ∧ Ws r (buf.rest st'.expr) := by
  rcases operator_cases (a := '+'.toUInt8) (b := '-'.toUInt8) (by decide) (by decide)
    (buf.rest st.expr) with ⟨op, t, ht, hop⟩ | hstop
  · obtain ⟨st₁, hmoves, hrest, hrun⟩ := expressionLoop_operator strtod hin fuel acc ht hop
    rw [hrun, EStateM.run_bind_eq_ok] at h
    obtain ⟨w, st₂, hterm, hloop⟩ := h
    obtain ⟨hmoves₂, r, hrhs, hws₂⟩ := ih.term hmoves.inText hterm
    rw [hrest] at hrhs
    have hacc : Derives strtod .expr s (if op = '+'.toUInt8 then acc + w else acc - w) r := by
      rcases hop with rfl | rfl
      · exact .add hder (hws.trans (ws_of_dropSpaces_eq ht)) hrhs
      · exact .sub hder (hws.trans (ws_of_dropSpaces_eq ht)) hrhs
    obtain ⟨hmoves₃, hres⟩ := ih.expressionLoop hmoves₂.inText hacc hws₂ hloop
    exact ⟨(hmoves.trans hmoves₂).trans hmoves₃, hres⟩
  · obtain ⟨st₁, hok, hmoves, hrest⟩ := expressionLoop_stop strtod hin fuel acc hstop
    rw [hok] at h
    cases h
    exact ⟨hmoves, _, hder, hws.trans (ws_of_dropSpaces_eq hrest.symm)⟩

/-- Every call that returns has read a phrase of its nonterminal. -/
theorem sound (fuel : ℕ) : SoundAt strtod buf fuel := by
  induction fuel with
  | zero => exact soundAt_zero strtod buf
  | succ fuel ih =>
    -- `parse_term` and `parse_expression` enter their loops with a chain of one phrase
    refine ⟨ih.factor_succ, ?_, ih.termLoop_succ, ?_, ih.expressionLoop_succ⟩
    · intro st st' v hin h
      rw [parseTerm, EStateM.run_bind_eq_ok] at h
      obtain ⟨w, st₁, hfactor, hloop⟩ := h
      obtain ⟨hmoves, hder⟩ := ih.factor hin hfactor
      obtain ⟨hmoves', hres⟩ := ih.termLoop hmoves.inText (.factor hder) hloop
      exact ⟨hmoves.trans hmoves', hres⟩
    · intro st st' v hin h
      rw [parseExpression, EStateM.run_bind_eq_ok] at h
      obtain ⟨w, st₁, hterm, hloop⟩ := h
      obtain ⟨hmoves, r, hder, hws⟩ := ih.term hin hterm
      obtain ⟨hmoves', hres⟩ := ih.expressionLoop hmoves.inText (.term hder) hws hloop
      exact ⟨hmoves.trans hmoves', hres⟩

/-! ## Termination -/

/-- With fuel for three calls per character left and for the calls on the way to the next
character, a call with `fuel` that does not return has died. -/
structure HaltsAt (strtod : Strtod α) (buf : CBuffer) (fuel : ℕ) : Prop where
  factor : ∀ {st st' e}, InText buf st → 3 * (buf.rest st.expr).length + 1 ≤ fuel →
    (parseFactor strtod buf fuel).run st = .error e st' → ∃ m, e = .died m
  term : ∀ {st st' e}, InText buf st → 3 * (buf.rest st.expr).length + 2 ≤ fuel →
    (parseTerm strtod buf fuel).run st = .error e st' → ∃ m, e = .died m
  termLoop : ∀ {st st' acc e}, InText buf st → 3 * (buf.rest st.expr).length + 1 ≤ fuel →
    (termLoop strtod buf fuel acc).run st = .error e st' → ∃ m, e = .died m
  expression : ∀ {st st' e}, InText buf st → 3 * (buf.rest st.expr).length + 3 ≤ fuel →
    (parseExpression strtod buf fuel).run st = .error e st' → ∃ m, e = .died m
  expressionLoop : ∀ {st st' acc e}, InText buf st →
    3 * (buf.rest st.expr).length + 1 ≤ fuel →
    (expressionLoop strtod buf fuel acc).run st = .error e st' → ∃ m, e = .died m

variable {e : Halt}

/-- Termination of `parse_factor` from termination with less fuel. -/
theorem HaltsAt.factor_succ (ih : HaltsAt strtod buf fuel) (hin : InText buf st)
    (hfuel : 3 * (buf.rest st.expr).length + 1 ≤ fuel + 1)
    (h : (parseFactor strtod buf (fuel + 1)).run st = .error e st') : ∃ m, e = .died m := by
  rcases factor_cases (buf.rest st.expr) with ⟨t, ht⟩ | ⟨t, ht⟩ | hstart
  · obtain ⟨st₁, hmoves, hrest, hrun⟩ := parseFactor_paren strtod hin fuel ht
    have hlt := length_lt_of_dropSpaces_eq_cons ht
    rw [← hrest] at hlt
    rw [hrun, EStateM.run_bind_eq_error] at h
    rcases h with hexpr | ⟨w, st₂, hexpr, hclose⟩
    · -- the parenthesis has been passed, which pays for the three calls down to the next factor
      exact ih.expression hmoves.inText (by omega) hexpr
    · -- the expression returned, so only the closing parenthesis can be missing
      have hin₂ := ((sound fuel).expression hmoves.inText hexpr).1.inText
      rcases close_cases (buf.rest st₂.expr) with ⟨u, hu⟩ | hne
      · obtain ⟨st₃, hok, -, -⟩ := closeParen_ok hin₂ w hu
        rw [hok] at hclose
        cases hclose
      · obtain ⟨st₃, hdied⟩ := closeParen_died hin₂ w hne
        rw [hdied] at hclose
        cases hclose
        exact ⟨_, rfl⟩
  · obtain ⟨st₁, hmoves, hrest, hrun⟩ := parseFactor_neg strtod hin fuel ht
    have hlt := length_lt_of_dropSpaces_eq_cons ht
    rw [← hrest] at hlt
    rw [hrun, EStateM.run_bind_eq_error] at h
    rcases h with hfactor | ⟨w, st₂, -, hret⟩
    -- the minus sign has been passed
    · exact ih.factor hmoves.inText (by omega) hfactor
    · cases hret
  · by_cases hfail : (strtod.convert (dropSpaces (buf.rest st.expr))).consumed = 0 ∨
        (strtod.convert (dropSpaces (buf.rest st.expr))).erange
    · obtain ⟨st₁, hdied⟩ := parseFactor_number_died strtod hin fuel hstart hfail
      rw [hdied] at h
      cases h
      exact ⟨_, rfl⟩
    · obtain ⟨st₁, hok, -, -⟩ :=
        parseFactor_number_ok strtod hin fuel hstart ⟨hfail, rfl, rfl⟩
      rw [hok] at h
      cases h

/-- Termination of the loop of `parse_term` from termination with less fuel. -/
theorem HaltsAt.termLoop_succ (ih : HaltsAt strtod buf fuel) {acc : α} (hin : InText buf st)
    (hfuel : 3 * (buf.rest st.expr).length + 1 ≤ fuel + 1)
    (h : (UnixCalc.termLoop strtod buf (fuel + 1) acc).run st = .error e st') :
    ∃ m, e = .died m := by
  rcases operator_cases (a := '*'.toUInt8) (b := '/'.toUInt8) (by decide) (by decide)
    (buf.rest st.expr) with ⟨op, t, ht, hop⟩ | hstop
  · obtain ⟨st₁, hmoves, hrest, hrun⟩ := termLoop_operator strtod hin fuel acc ht hop
    have hlt := length_lt_of_dropSpaces_eq_cons ht
    rw [← hrest] at hlt
    rw [hrun, EStateM.run_bind_eq_error] at h
    rcases h with hfactor | ⟨w, st₂, hfactor, hloop⟩
    · exact ih.factor hmoves.inText (by omega) hfactor
    · -- the loop goes round with the text the factor has left, which is no longer than before
      have hmoves₂ := ((sound fuel).factor hmoves.inText hfactor).1
      have hle := hmoves₂.length_rest_le
      exact ih.termLoop hmoves₂.inText (by omega) hloop
  · obtain ⟨st₁, hok, -, -⟩ := termLoop_stop strtod hin fuel acc hstop
    rw [hok] at h
    cases h

/-- Termination of the loop of `parse_expression` from termination with less fuel. -/
theorem HaltsAt.expressionLoop_succ (ih : HaltsAt strtod buf fuel) {acc : α}
    (hin : InText buf st) (hfuel : 3 * (buf.rest st.expr).length + 1 ≤ fuel + 1)
    (h : (UnixCalc.expressionLoop strtod buf (fuel + 1) acc).run st = .error e st') :
    ∃ m, e = .died m := by
  rcases operator_cases (a := '+'.toUInt8) (b := '-'.toUInt8) (by decide) (by decide)
    (buf.rest st.expr) with ⟨op, t, ht, hop⟩ | hstop
  · obtain ⟨st₁, hmoves, hrest, hrun⟩ := expressionLoop_operator strtod hin fuel acc ht hop
    have hlt := length_lt_of_dropSpaces_eq_cons ht
    rw [← hrest] at hlt
    rw [hrun, EStateM.run_bind_eq_error] at h
    rcases h with hterm | ⟨w, st₂, hterm, hloop⟩
    · exact ih.term hmoves.inText (by omega) hterm
    · have hmoves₂ := ((sound fuel).term hmoves.inText hterm).1
      have hle := hmoves₂.length_rest_le
      exact ih.expressionLoop hmoves₂.inText (by omega) hloop
  · obtain ⟨st₁, hok, -, -⟩ := expressionLoop_stop strtod hin fuel acc hstop
    rw [hok] at h
    cases h

/-- With enough fuel, every call that does not return has died. -/
theorem halts_died (strtod : Strtod α) (buf : CBuffer) (fuel : ℕ) : HaltsAt strtod buf fuel := by
  induction fuel with
  | zero => exact ⟨by omega, by omega, by omega, by omega, by omega⟩
  | succ fuel ih =>
    refine ⟨ih.factor_succ, ?_, ih.termLoop_succ, ?_, ih.expressionLoop_succ⟩
    · intro st st' e hin hfuel h
      rw [parseTerm, EStateM.run_bind_eq_error] at h
      rcases h with hfactor | ⟨w, st₁, hfactor, hloop⟩
      · exact ih.factor hin (by omega) hfactor
      · have hmoves := ((sound fuel).factor hin hfactor).1
        have hle := hmoves.length_rest_le
        exact ih.termLoop hmoves.inText (by omega) hloop
    · intro st st' e hin hfuel h
      rw [parseExpression, EStateM.run_bind_eq_error] at h
      rcases h with hterm | ⟨w, st₁, hterm, hloop⟩
      · exact ih.term hin (by omega) hterm
      · have hmoves := ((sound fuel).term hin hterm).1
        have hle := hmoves.length_rest_le
        exact ih.expressionLoop hmoves.inText (by omega) hloop

/-! ## Completeness -/

/-- The call ran out of fuel. -/
def Starved (result : EStateM.Result Halt ParserState α) : Prop :=
  ∃ st, result = .error .outOfFuel st

omit [Add α] [Sub α] [Mul α] [Div α] [Neg α] in
/-- A call whose first part ran out of fuel ran out of fuel. -/
theorem Starved.bind {x : Parse α} (h : Starved (x.run st)) (f : α → Parse α) :
    Starved ((x >>= f).run st) := by
  obtain ⟨st₁, hx⟩ := h
  exact ⟨st₁, EStateM.run_bind_of_error hx f⟩

/-- The parser recognises the phrase of a nonterminal that leads from `s` to `r`, for any amount
of fuel that does not run out. The functions with a loop come to that loop with the value of the
phrase; the loop of `parse_term` inside `parse_expression` would go on at a `*` or `/`. -/
def Accepts (strtod : Strtod α) (buf : CBuffer) :
    Nonterminal → List UInt8 → α → List UInt8 → Prop
  | .factor, s, v, r => ∀ fuel st, InText buf st → buf.rest st.expr = s →
      Starved ((parseFactor strtod buf fuel).run st) ∨
        ∃ st', (parseFactor strtod buf fuel).run st = .ok v st' ∧ InText buf st' ∧
          buf.rest st'.expr = r
  | .term, s, v, r => ∀ fuel st, InText buf st → buf.rest st.expr = s →
      Starved ((parseTerm strtod buf fuel).run st) ∨
        ∃ fuel' st', (parseTerm strtod buf fuel).run st =
            (termLoop strtod buf fuel' v).run st' ∧ InText buf st' ∧ buf.rest st'.expr = r
  | .expr, s, v, r =>
      (dropSpaces r).headD 0 ≠ '*'.toUInt8 ∧ (dropSpaces r).headD 0 ≠ '/'.toUInt8 →
      ∀ fuel st, InText buf st → buf.rest st.expr = s →
      Starved ((parseExpression strtod buf fuel).run st) ∨
        ∃ fuel' st', (parseExpression strtod buf fuel).run st =
            (expressionLoop strtod buf fuel' v).run st' ∧ InText buf st' ∧
          dropSpaces (buf.rest st'.expr) = dropSpaces r

variable {s t u r : List UInt8} {v w : α}

/-- No call without fuel returns. -/
theorem starved_zero (st : ParserState) (acc : α) :
    Starved ((parseFactor strtod buf 0).run st) ∧ Starved ((parseTerm strtod buf 0).run st) ∧
      Starved ((termLoop strtod buf 0 acc).run st) ∧
      Starved ((parseExpression strtod buf 0).run st) ∧
      Starved ((expressionLoop strtod buf 0 acc).run st) := by
  rw [parseFactor, parseTerm, termLoop, parseExpression, expressionLoop]
  exact ⟨⟨_, rfl⟩, ⟨_, rfl⟩, ⟨_, rfl⟩, ⟨_, rfl⟩, ⟨_, rfl⟩⟩

/-- A term that is not followed by `*` or `/` is what `parse_term` returns. -/
theorem Accepts.parseTerm_ok (h : Accepts strtod buf .term s v r)
    (hstop : (dropSpaces r).headD 0 ≠ '*'.toUInt8 ∧ (dropSpaces r).headD 0 ≠ '/'.toUInt8)
    (fuel : ℕ) (hin : InText buf st) (hs : buf.rest st.expr = s) :
    Starved ((parseTerm strtod buf fuel).run st) ∨
      ∃ st', (parseTerm strtod buf fuel).run st = .ok v st' ∧ InText buf st' ∧
        buf.rest st'.expr = dropSpaces r := by
  rcases h fuel st hin hs with hstarved | ⟨fuel', st₁, hrun, hin₁, hr⟩
  · exact .inl hstarved
  · rw [hrun]
    cases fuel' with
    | zero => exact .inl (starved_zero st₁ v).2.2.1
    | succ fuel' =>
      -- the loop the call has come to finds no operator and returns at once
      rw [← hr] at hstop ⊢
      obtain ⟨st₂, hok, hmoves, hrest⟩ := termLoop_stop strtod hin₁ fuel' v hstop
      exact .inr ⟨st₂, hok, hmoves.inText, hrest⟩

/-- An expression followed by none of the four operators is what `parse_expression` returns. -/
theorem Accepts.parseExpression_ok (h : Accepts strtod buf .expr s v r)
    (hmul : (dropSpaces r).headD 0 ≠ '*'.toUInt8 ∧ (dropSpaces r).headD 0 ≠ '/'.toUInt8)
    (hadd : (dropSpaces r).headD 0 ≠ '+'.toUInt8 ∧ (dropSpaces r).headD 0 ≠ '-'.toUInt8)
    (fuel : ℕ) (hin : InText buf st) (hs : buf.rest st.expr = s) :
    Starved ((parseExpression strtod buf fuel).run st) ∨
      ∃ st', (parseExpression strtod buf fuel).run st = .ok v st' ∧ InText buf st' ∧
        buf.rest st'.expr = dropSpaces r := by
  rcases h hmul fuel st hin hs with hstarved | ⟨fuel', st₁, hrun, hin₁, hr⟩
  · exact .inl hstarved
  · rw [hrun]
    cases fuel' with
    | zero => exact .inl (starved_zero st₁ v).2.2.2.2
    | succ fuel' =>
      rw [← hr] at hadd ⊢
      obtain ⟨st₂, hok, hmoves, hrest⟩ := expressionLoop_stop strtod hin₁ fuel' v hadd
      exact .inr ⟨st₂, hok, hmoves.inText, hrest⟩

/-- An expression in parentheses is recognised as a factor. -/
theorem Accepts.paren (hs : Ws s ('('.toUInt8 :: t)) (ih : Accepts strtod buf .expr t v u)
    (hu : Ws u (')'.toUInt8 :: r)) : Accepts strtod buf .factor s v r := by
  intro fuel st hin hst
  cases fuel with
  | zero => exact .inl (starved_zero st v).1
  | succ fuel =>
    have ht : dropSpaces (buf.rest st.expr) = '('.toUInt8 :: t := by
      rw [hst]
      exact hs.dropSpaces_eq_cons (by decide)
    have hclose : dropSpaces u = ')'.toUInt8 :: r := hu.dropSpaces_eq_cons (by decide)
    obtain ⟨st₁, hmoves, hrest, hrun⟩ := parseFactor_paren strtod hin fuel ht
    rw [hrun]
    -- a closing parenthesis is none of the four operators, so both loops stop in front of it
    have hexpr := ih.parseExpression_ok
      (by rw [hclose, List.headD_cons]; exact ⟨by decide, by decide⟩)
      (by rw [hclose, List.headD_cons]; exact ⟨by decide, by decide⟩) fuel hmoves.inText hrest
    rcases hexpr with hstarved | ⟨st₂, hok, hin₂, hrest₂⟩
    · exact .inl (hstarved.bind _)
    · rw [EStateM.run_bind_of_ok hok]
      have hclose₂ : dropSpaces (buf.rest st₂.expr) = ')'.toUInt8 :: r := by
        rw [hrest₂, dropSpaces_dropSpaces, hclose]
      obtain ⟨st₃, hok₃, hmoves₃, hrest₃⟩ := closeParen_ok hin₂ v hclose₂
      exact .inr ⟨st₃, hok₃, hmoves₃.inText, hrest₃⟩

/-- A negated factor is recognised as a factor. -/
theorem Accepts.neg (hs : Ws s ('-'.toUInt8 :: t)) (ih : Accepts strtod buf .factor t v r) :
    Accepts strtod buf .factor s (-v) r := by
  intro fuel st hin hst
  cases fuel with
  | zero => exact .inl (starved_zero st v).1
  | succ fuel =>
    have ht : dropSpaces (buf.rest st.expr) = '-'.toUInt8 :: t := by
      rw [hst]
      exact hs.dropSpaces_eq_cons (by decide)
    obtain ⟨st₁, hmoves, hrest, hrun⟩ := parseFactor_neg strtod hin fuel ht
    rw [hrun]
    rcases ih fuel st₁ hmoves.inText hrest with hstarved | ⟨st₂, hok, hin₂, hrest₂⟩
    · exact .inl (hstarved.bind _)
    · rw [EStateM.run_bind_of_ok hok]
      exact .inr ⟨_, rfl, hin₂, hrest₂⟩

/-- A number is recognised as a factor. -/
theorem Accepts.num (hs : Ws s t) (hstart : NumberStart t) (hconv : strtod.Converts t v r) :
    Accepts strtod buf .factor s v r := by
  intro fuel st hin hst
  cases fuel with
  | zero => exact .inl (starved_zero st v).1
  | succ fuel =>
    have ht : dropSpaces (buf.rest st.expr) = t := by
      rw [hst, hs.dropSpaces_eq, hstart.dropSpaces_eq]
    rw [← ht] at hstart hconv
    obtain ⟨st₁, hok, hmoves, hrest⟩ := parseFactor_number_ok strtod hin fuel hstart hconv
    exact .inr ⟨st₁, hok, hmoves.inText, hrest⟩

/-- A factor is recognised as the start of a term. -/
theorem Accepts.factor (ih : Accepts strtod buf .factor s v r) :
    Accepts strtod buf .term s v r := by
  intro fuel st hin hst
  cases fuel with
  | zero => exact .inl (starved_zero st v).2.1
  | succ fuel =>
    rw [parseTerm]
    rcases ih fuel st hin hst with hstarved | ⟨st₁, hok, hin₁, hrest⟩
    · exact .inl (hstarved.bind _)
    · exact .inr ⟨fuel, st₁, EStateM.run_bind_of_ok hok _, hin₁, hrest⟩

/-- A term is recognised with one more operator and factor. -/
theorem Accepts.termOperator {op : UInt8} (hop : op = '*'.toUInt8 ∨ op = '/'.toUInt8)
    (ih : Accepts strtod buf .term s v t) (ht : Ws t (op :: u))
    (ihRhs : Accepts strtod buf .factor u w r) :
    Accepts strtod buf .term s (if op = '*'.toUInt8 then v * w else v / w) r := by
  intro fuel st hin hst
  rcases ih fuel st hin hst with hstarved | ⟨fuel', st₁, hrun, hin₁, hrest⟩
  · exact .inl hstarved
  · rw [hrun]
    cases fuel' with
    | zero => exact .inl (starved_zero st₁ v).2.2.1
    | succ fuel' =>
      have hspace : isspace op = false := by rcases hop with rfl | rfl <;> decide
      have hop' : dropSpaces (buf.rest st₁.expr) = op :: u := by
        rw [hrest]
        exact ht.dropSpaces_eq_cons hspace
      obtain ⟨st₂, hmoves, hrest₂, hrun₂⟩ := termLoop_operator strtod hin₁ fuel' v hop' hop
      rw [hrun₂]
      rcases ihRhs fuel' st₂ hmoves.inText hrest₂ with hstarved | ⟨st₃, hok, hin₃, hrest₃⟩
      · exact .inl (hstarved.bind _)
      · exact .inr ⟨fuel', st₃, EStateM.run_bind_of_ok hok _, hin₃, hrest₃⟩

/-- A term is recognised as the start of an expression. -/
theorem Accepts.term (ih : Accepts strtod buf .term s v r) : Accepts strtod buf .expr s v r := by
  intro hstop fuel st hin hst
  cases fuel with
  | zero => exact .inl (starved_zero st v).2.2.2.1
  | succ fuel =>
    rw [parseExpression]
    rcases ih.parseTerm_ok hstop fuel hin hst with hstarved | ⟨st₁, hok, hin₁, hrest⟩
    · exact .inl (hstarved.bind _)
    · refine .inr ⟨fuel, st₁, EStateM.run_bind_of_ok hok _, hin₁, ?_⟩
      rw [hrest, dropSpaces_dropSpaces]

/-- An expression is recognised with one more operator and term. -/
theorem Accepts.expressionOperator {op : UInt8} (hop : op = '+'.toUInt8 ∨ op = '-'.toUInt8)
    (ih : Accepts strtod buf .expr s v t) (ht : Ws t (op :: u))
    (ihRhs : Accepts strtod buf .term u w r) :
    Accepts strtod buf .expr s (if op = '+'.toUInt8 then v + w else v - w) r := by
  intro hstop fuel st hin hst
  have hspace : isspace op = false := by rcases hop with rfl | rfl <;> decide
  have hop' : dropSpaces t = op :: u := ht.dropSpaces_eq_cons hspace
  -- the operator `+` or `-` also ends the last term of the chain so far
  have hmul : (dropSpaces t).headD 0 ≠ '*'.toUInt8 ∧ (dropSpaces t).headD 0 ≠ '/'.toUInt8 := by
    rw [hop', List.headD_cons]
    rcases hop with rfl | rfl <;> exact ⟨by decide, by decide⟩
  rcases ih hmul fuel st hin hst with hstarved | ⟨fuel', st₁, hrun, hin₁, hrest⟩
  · exact .inl hstarved
  · rw [hrun]
    cases fuel' with
    | zero => exact .inl (starved_zero st₁ v).2.2.2.2
    | succ fuel' =>
      obtain ⟨st₂, hmoves, hrest₂, hrun₂⟩ :=
        expressionLoop_operator strtod hin₁ fuel' v (hrest.trans hop') hop
      rw [hrun₂]
      rcases ihRhs.parseTerm_ok hstop fuel' hmoves.inText hrest₂ with
        hstarved | ⟨st₃, hok, hin₃, hrest₃⟩
      · exact .inl (hstarved.bind _)
      · refine .inr ⟨fuel', st₃, EStateM.run_bind_of_ok hok _, hin₃, ?_⟩
        rw [hrest₃, dropSpaces_dropSpaces]

/-- Every phrase of the grammar is recognised. -/
theorem accepts (buf : CBuffer) {sym : Nonterminal} (h : Derives strtod sym s v r) :
    Accepts strtod buf sym s v r := by
  induction h with
  -- by induction on the derivation, one lemma above for each production
  | paren hs _ hu ih => exact .paren hs ih hu
  | neg hs _ ih => exact .neg hs ih
  | num hs hstart hconv => exact .num hs hstart hconv
  | factor _ ih => exact .factor ih
  | mul _ ht _ ih ihRhs => exact .termOperator (.inl rfl) ih ht ihRhs
  | div _ ht _ ih ihRhs => exact .termOperator (.inr rfl) ih ht ihRhs
  | term _ ih => exact .term ih
  | add _ ht _ ih ihRhs => exact .expressionOperator (.inl rfl) ih ht ihRhs
  | sub _ ht _ ih ihRhs => exact .expressionOperator (.inr rfl) ih ht ihRhs

/-! ## The evaluator -/

theorem inText_start (buf : CBuffer) : InText buf .start :=
  Nat.zero_le _

@[simp]
theorem rest_start (buf : CBuffer) : buf.rest ParserState.start.expr = buf.text := rfl

/-- `evaluate` parses an expression and checks what follows it. -/
theorem evaluate_eq (strtod : Strtod α) (buf : CBuffer) :
    evaluate strtod buf =
      (parseExpression strtod buf (3 * buf.text.length + 3) >>= checkTrailing buf).run .start :=
  rfl

/-- A value that `evaluate` returns is the grammar's value of the input. -/
theorem input_of_returns (h : Returns strtod buf v) : Input strtod buf.text v := by
  obtain ⟨st, hev⟩ := h
  rw [evaluate_eq, EStateM.run_bind_eq_ok] at hev
  obtain ⟨w, st₁, hexpr, htail⟩ := hev
  obtain ⟨hmoves, r, hder, hws⟩ := (sound _).expression (inText_start buf) hexpr
  by_cases hend : dropSpaces (buf.rest st₁.expr) = []
  · obtain ⟨st₂, hok⟩ := checkTrailing_ok hmoves.inText w hend
    rw [hok] at htail
    cases htail
    exact ⟨r, hder, hws.trans (ws_of_dropSpaces_eq hend)⟩
  · -- with something left the evaluator would have died
    obtain ⟨st₂, hdied⟩ := checkTrailing_died hmoves.inText w hend
    rw [hdied] at htail
    cases htail

/-- `evaluate` never runs out of fuel and never reads outside the buffer: it returns or dies. -/
theorem returns_or_dies (strtod : Strtod α) (buf : CBuffer) :
    (∃ v, Returns strtod buf v) ∨ Dies strtod buf := by
  cases hev : evaluate strtod buf with
  | ok v st => exact .inl ⟨v, st, hev⟩
  | error e st =>
    refine .inr ?_
    have hev' := hev
    rw [evaluate_eq, EStateM.run_bind_eq_error] at hev'
    rcases hev' with hexpr | ⟨w, st₁, hexpr, htail⟩
    · obtain ⟨m, rfl⟩ :=
        (halts_died strtod buf _).expression (inText_start buf) (by rw [rest_start]) hexpr
      exact ⟨m, st, hev⟩
    · obtain ⟨hmoves, -⟩ := (sound _).expression (inText_start buf) hexpr
      by_cases hend : dropSpaces (buf.rest st₁.expr) = []
      · obtain ⟨st₂, hok⟩ := checkTrailing_ok hmoves.inText w hend
        rw [hok] at htail
        cases htail
      · obtain ⟨st₂, hdied⟩ := checkTrailing_died hmoves.inText w hend
        rw [hdied] at htail
        cases htail
        exact ⟨_, _, hev⟩

/-- `evaluate` returns the grammar's value of every sentence. -/
theorem returns_of_input (h : Input strtod buf.text v) : Returns strtod buf v := by
  obtain ⟨r, hder, hws⟩ := h
  have hend : dropSpaces r = [] := hws.dropSpaces_eq
  have hexpr := (accepts buf hder).parseExpression_ok
    (by rw [hend]; exact ⟨by decide, by decide⟩) (by rw [hend]; exact ⟨by decide, by decide⟩)
    (3 * buf.text.length + 3) (inText_start buf) (rest_start buf)
  rcases hexpr with ⟨st₁, hstarved⟩ | ⟨st₁, hok, hin, hrest⟩
  · -- `evaluate` hands out enough fuel, so the call has not starved
    obtain ⟨m, hm⟩ :=
      (halts_died strtod buf _).expression (inText_start buf) (by rw [rest_start]) hstarved
    cases hm
  · obtain ⟨st₂, hok₂⟩ := checkTrailing_ok hin v (by rw [hrest, dropSpaces_dropSpaces, hend])
    refine ⟨st₂, ?_⟩
    rw [evaluate_eq, EStateM.run_bind_of_ok hok, hok₂]

/-- `evaluate` returns at most one value. -/
theorem Returns.unique (hv : Returns strtod buf v) (hw : Returns strtod buf w) : v = w := by
  obtain ⟨st, hv⟩ := hv
  obtain ⟨st', hw⟩ := hw
  rw [hv] at hw
  cases hw
  rfl

/-- The evaluator decides the grammar and computes its value: on every NUL-terminated input it
returns `v` exactly when the input is a sentence with value `v`, a sentence has only one value,
and on an input that is no sentence it dies. -/
theorem evaluate_returns_iff_input (strtod : Strtod α) (buf : CBuffer) :
    (∀ v, Returns strtod buf v ↔ Input strtod buf.text v) ∧
      (∀ v w, Input strtod buf.text v → Input strtod buf.text w → v = w) ∧
      ((¬∃ v, Input strtod buf.text v) ↔ Dies strtod buf) := by
  refine ⟨fun v => ⟨input_of_returns, returns_of_input⟩, ?_, ?_, ?_⟩
  · intro v w hv hw
    exact (returns_of_input hv).unique (returns_of_input hw)
  · intro hno
    rcases returns_or_dies strtod buf with ⟨v, hv⟩ | hdies
    · exact absurd ⟨v, input_of_returns hv⟩ hno
    · exact hdies
  · rintro ⟨m, st, hdies⟩ ⟨v, hv⟩
    obtain ⟨st', hok⟩ := returns_of_input hv
    rw [hdies] at hok
    cases hok

end UnixCalc
