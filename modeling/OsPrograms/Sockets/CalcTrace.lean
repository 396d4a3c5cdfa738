import OsPrograms.Sockets.CalcCorrectness

/-!
# Every call of the parser

`CalcSteps` and `CalcCorrectness` say what a call of a parser function does when its cursor is
inside the text. This module looks at all the calls that `evaluate` makes. `tracedEvaluate` is
`evaluate` with a log: an entry for each call of `skip_spaces`, `parse_factor`, `parse_term` and
`parse_expression`, with the state of the parser at the call, and an entry for each return.

The traced functions are the functions of `CalcParser` with their calls logged, and they compute the
same. The log is part of the state, so it is there on the paths that return and on those that die.

## Main results

- `erase_tracedEvaluate`: without the log, the traced evaluator is `evaluate`.
-/

namespace UnixCalc

/-- The functions whose calls are logged. -/
inductive ParserFunction
  | skipSpaces
  | parseFactor
  | parseTerm
  | parseExpression
  deriving DecidableEq, Repr

/-- An entry of the log. -/
inductive Event
  /-- A call, with the state before it. -/
  | call (f : ParserFunction) (st : ParserState)
  /-- A return, with the state before the call and the state after it. -/
  | ret (f : ParserFunction) (st st' : ParserState)
  deriving DecidableEq, Repr

/-- The state of the parser, and the log, the latest entry first. -/
structure TracedState where
  parser : ParserState
  log : List Event

/-- A parser function that keeps a log. -/
abbrev Traced (α : Type) := EStateM Halt TracedState α

/-- A part of a function that calls none of the logged functions. -/
def untraced {β : Type} (x : Parse β) : Traced β := fun s =>
  match x.run s.parser with
  | .ok v st => .ok v { s with parser := st }
  | .error e st => .error e { s with parser := st }

/-- A call of `f`, whose body is `x`. -/
def traced {β : Type} (f : ParserFunction) (x : Traced β) : Traced β := fun s =>
  match x.run { s with log := .call f s.parser :: s.log } with
  | .ok v s' => .ok v { s' with log := .ret f s.parser s'.parser :: s'.log }
  | .error e s' => .error e s'

/-- A call of `skip_spaces`. -/
def tracedSkipSpaces (buf : CBuffer) : Traced Unit :=
  traced .skipSpaces (untraced (skipSpaces buf))

section Parser

variable {α : Type} [Add α] [Sub α] [Mul α] [Div α] [Neg α] (strtod : Strtod α) (buf : CBuffer)

mutual

/-- A call of `parse_factor`. -/
def tracedFactor : ℕ → Traced α
  | 0 => throw .outOfFuel
  | fuel + 1 => traced .parseFactor do
    untraced enterFactor
    tracedSkipSpaces buf
    let c ← untraced (peek buf)
    if c = '('.toUInt8 then
      untraced (advance 1)
      let value ← tracedExpression fuel
      tracedSkipSpaces buf
      let close ← untraced (peek buf)
      untraced (advance 1)
      if close ≠ ')'.toUInt8 then
        untraced (die "missing parenthesis")
      else
        untraced leaveFactor
        pure value
    else
      let c ← untraced (peek buf)
      if c = '-'.toUInt8 then
        untraced (advance 1)
        let value ← tracedFactor fuel
        untraced leaveFactor
        pure (-value)
      else
        let value ← untraced (parseNumber strtod buf)
        untraced leaveFactor
        pure value

/-- A call of `parse_term`. -/
def tracedTerm : ℕ → Traced α
  | 0 => throw .outOfFuel
  | fuel + 1 => traced .parseTerm do
    let value ← tracedFactor fuel
    tracedTermLoop fuel value

/-- The loop of `parse_term`. -/
def tracedTermLoop : ℕ → α → Traced α
  | 0, _ => throw .outOfFuel
  | fuel + 1, value => do
    tracedSkipSpaces buf
    let op ← untraced (peek buf)
    if op ≠ '*'.toUInt8 ∧ op ≠ '/'.toUInt8 then
      pure value
    else
      untraced (advance 1)
      let rhs ← tracedFactor fuel
      tracedTermLoop fuel (if op = '*'.toUInt8 then value * rhs else value / rhs)

/-- A call of `parse_expression`. -/
def tracedExpression : ℕ → Traced α
  | 0 => throw .outOfFuel
  | fuel + 1 => traced .parseExpression do
    let value ← tracedTerm fuel
    tracedExpressionLoop fuel value

/-- The loop of `parse_expression`. -/
def tracedExpressionLoop : ℕ → α → Traced α
  | 0, _ => throw .outOfFuel
  | fuel + 1, value => do
    tracedSkipSpaces buf
    let op ← untraced (peek buf)
    if op ≠ '+'.toUInt8 ∧ op ≠ '-'.toUInt8 then
      pure value
    else
      untraced (advance 1)
      let rhs ← tracedTerm fuel
      tracedExpressionLoop fuel (if op = '+'.toUInt8 then value + rhs else value - rhs)

end

/-- The body of `evaluate` after `expr = input`. -/
def tracedProgram (fuel : ℕ) : Traced α := do
  let value ← tracedExpression strtod buf fuel
  tracedSkipSpaces buf
  let c ← untraced (peek buf)
  if c = 0 then
    pure value
  else
    let c ← untraced (peek buf)
    if c = '\n'.toUInt8 then
      pure value
    else
      untraced (die "unexpected trailing token")

/-- `evaluate` with a log. -/
def tracedEvaluate : EStateM.Result Halt TracedState α :=
  (tracedProgram strtod buf (3 * buf.text.length + 3)).run { parser := .start, log := [] }

end Parser

/-! ## The log changes nothing -/

/-- The result of a traced function without its log. -/
def erase {β : Type} : EStateM.Result Halt TracedState β → EStateM.Result Halt ParserState β
  | .ok v s => .ok v s.parser
  | .error e s => .error e s.parser

/-- The traced function `x` computes what `y` computes. -/
def Traces {β : Type} (x : Traced β) (y : Parse β) : Prop :=
  ∀ s, erase (x.run s) = y.run s.parser

section Traces

variable {β γ : Type} {x : Traced β} {y : Parse β}

theorem Traces.pure (v : β) : Traces (Pure.pure v) (Pure.pure v) := fun _ => rfl

theorem Traces.throw (e : Halt) : Traces (throw e : Traced β) (throw e) := fun _ => rfl

/-- A part that calls no other function has nothing to log. -/
theorem Traces.untraced (y : Parse β) : Traces (UnixCalc.untraced y) y := by
  intro s
  simp only [UnixCalc.untraced, EStateM.run]
  cases y s.parser <;> rfl

/-- A call with its two entries computes what its body computes. -/
theorem Traces.traced (f : ParserFunction) (h : Traces x y) : Traces (UnixCalc.traced f x) y := by
  intro s
  rw [← h { s with log := .call f s.parser :: s.log }]
  simp only [UnixCalc.traced, EStateM.run]
  cases x { s with log := .call f s.parser :: s.log } <;> rfl

/-- Sequences are traced part by part. -/
theorem Traces.bind {f : β → Traced γ} {g : β → Parse γ} (h : Traces x y)
    (hf : ∀ v, Traces (f v) (g v)) : Traces (x >>= f) (y >>= g) := by
  intro s
  rw [EStateM.run_bind, EStateM.run_bind, ← h s]
  cases x.run s with
  | ok v s' => exact hf v s'
  | error e s' => rfl

/-- Branches are traced branch by branch. -/
theorem Traces.ite {c : Prop} [Decidable c] {x' : Traced β} {y' : Parse β} (h : Traces x y)
    (h' : Traces x' y') : Traces (if c then x else x') (if c then y else y') := by
  split
  · exact h
  · exact h'

/-- The log of `skip_spaces` changes nothing. -/
theorem traces_skipSpaces (buf : CBuffer) : Traces (tracedSkipSpaces buf) (skipSpaces buf) :=
  .traced _ (.untraced _)

end Traces

section Erase

variable {α : Type} [Add α] [Sub α] [Mul α] [Div α] [Neg α] (strtod : Strtod α) (buf : CBuffer)

/-- With `fuel`, the traced functions compute what the functions of the parser compute. -/
structure TracesAt (fuel : ℕ) : Prop where
  factor : Traces (tracedFactor strtod buf fuel) (parseFactor strtod buf fuel)
  term : Traces (tracedTerm strtod buf fuel) (parseTerm strtod buf fuel)
  termLoop : ∀ acc, Traces (tracedTermLoop strtod buf fuel acc) (termLoop strtod buf fuel acc)
  expression : Traces (tracedExpression strtod buf fuel) (parseExpression strtod buf fuel)
  expressionLoop : ∀ acc,
    Traces (tracedExpressionLoop strtod buf fuel acc) (expressionLoop strtod buf fuel acc)

variable {strtod buf} {fuel : ℕ}

/-- The log of `parse_factor` changes nothing, if those of its calls do not. -/
theorem TracesAt.factor_succ (ih : TracesAt strtod buf fuel) :
    Traces (tracedFactor strtod buf (fuel + 1)) (parseFactor strtod buf (fuel + 1)) := by
  rw [tracedFactor, parseFactor]
  refine .traced _ (.bind (.untraced _) fun _ => .bind (traces_skipSpaces buf) fun _ =>
    .bind (.untraced _) fun c => .ite ?_ (.bind (.untraced _) fun c => .ite ?_ ?_))
  -- an expression in parentheses, a minus sign, or a number
  · refine .bind (.untraced _) fun _ => .bind ih.expression fun value =>
      .bind (traces_skipSpaces buf) fun _ => .bind (.untraced _) fun close =>
      .bind (.untraced _) fun _ => .ite (.untraced _) ?_
    exact .bind (.untraced _) fun _ => .pure value
  · refine .bind (.untraced _) fun _ => .bind ih.factor fun value => ?_
    exact .bind (.untraced _) fun _ => .pure (-value)
  · refine .bind (.untraced _) fun value => ?_
    exact .bind (.untraced _) fun _ => .pure value

/-- The log changes nothing in an iteration of `parse_term`. -/
theorem TracesAt.termLoop_succ (ih : TracesAt strtod buf fuel) (acc : α) :
    Traces (tracedTermLoop strtod buf (fuel + 1) acc)
      (UnixCalc.termLoop strtod buf (fuel + 1) acc) := by
  rw [tracedTermLoop, UnixCalc.termLoop]
  refine .bind (traces_skipSpaces buf) fun _ => .bind (.untraced _) fun op => .ite (.pure acc) ?_
  exact .bind (.untraced _) fun _ => .bind ih.factor fun rhs => ih.termLoop _

/-- The log changes nothing in an iteration of `parse_expression`. -/
theorem TracesAt.expressionLoop_succ (ih : TracesAt strtod buf fuel) (acc : α) :
    Traces (tracedExpressionLoop strtod buf (fuel + 1) acc)
      (UnixCalc.expressionLoop strtod buf (fuel + 1) acc) := by
  rw [tracedExpressionLoop, UnixCalc.expressionLoop]
  refine .bind (traces_skipSpaces buf) fun _ => .bind (.untraced _) fun op => .ite (.pure acc) ?_
  exact .bind (.untraced _) fun _ => .bind ih.term fun rhs => ih.expressionLoop _

/-- By induction on the fuel, which all functions of the recursion share. -/
theorem tracesAt (fuel : ℕ) : TracesAt strtod buf fuel := by
  induction fuel with
  | zero =>
    refine ⟨?_, ?_, fun acc => ?_, ?_, fun acc => ?_⟩
    · rw [tracedFactor, parseFactor]
      exact .throw _
    · rw [tracedTerm, parseTerm]
      exact .throw _
    · rw [tracedTermLoop, termLoop]
      exact .throw _
    · rw [tracedExpression, parseExpression]
      exact .throw _
    · rw [tracedExpressionLoop, expressionLoop]
      exact .throw _
  | succ fuel ih =>
    refine ⟨ih.factor_succ, ?_, ih.termLoop_succ, ?_, ih.expressionLoop_succ⟩
    · rw [tracedTerm, parseTerm]
      exact .traced _ (.bind ih.factor ih.termLoop)
    · rw [tracedExpression, parseExpression]
      exact .traced _ (.bind ih.term ih.expressionLoop)

/-- Without its log, the traced evaluator is `evaluate`. -/
theorem erase_tracedEvaluate (strtod : Strtod α) (buf : CBuffer) :
    erase (tracedEvaluate strtod buf) = evaluate strtod buf := by
  have hprogram : Traces (tracedProgram strtod buf (3 * buf.text.length + 3))
      (evaluateProgram strtod buf (3 * buf.text.length + 3)) := by
    refine .bind (tracesAt _).expression fun value => .bind (traces_skipSpaces buf) fun _ =>
      .bind (.untraced _) fun c => .ite (.pure value) (.bind (.untraced _) fun c => ?_)
    exact .ite (.pure value) (.untraced _)
  exact hprogram _

end Erase

end UnixCalc
