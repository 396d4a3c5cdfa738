import Mathlib.Tactic.NormNum
import OsPrograms.Sockets.CalcService

/-!
# Rendered expressions are evaluated to their value

`CalcGrammar` describes the texts `unix_calc_server` accepts. Here the point of view is that of
somebody who has an expression and writes it down: an `ExprTree` over numeric literals, and the
texts that render it.

`Renders p e s` says that `s` is a rendering of `e` for a place that takes operators of
precedence `p` or more without parentheses. Left associativity is in the places of the two
operands of a binary operator: the left one takes the operator's own precedence, the right one
takes the next. Parentheses may stand around every subexpression, and white space between any two
tokens.

## Main results

- `Renders.derives`: a rendering is a phrase of the grammar, whatever delimiter comes after it.
- `renders_render`: the printer that writes the fewest parentheses writes a rendering.
- `evaluate_rendering`: `evaluate` returns the value of the tree on each of its renderings.
-/

namespace UnixCalc

/-- White space only. -/
def Spaces (w : List UInt8) : Prop :=
  ∀ c ∈ w, isspace c

/-- What may come after a literal: white space, an operator, `)`, or the end of the text. -/
def Delimited (r : List UInt8) : Prop :=
  ∀ c ∈ r.head?, isspace c ∨ c = '+'.toUInt8 ∨ c = '-'.toUInt8 ∨ c = '*'.toUInt8 ∨
    c = '/'.toUInt8 ∨ c = ')'.toUInt8

/-- A numeric literal: a C text that `strtod` converts completely wherever a literal may stand. -/
structure Literal {α : Type} (strtod : Strtod α) where
  /-- How the literal is written. -/
  text : List UInt8
  /-- The number it stands for. -/
  value : α
  nulFree : 0 ∉ text
  /-- It starts with neither `-` nor `(` nor white space. -/
  numberStart : NumberStart text
  converts : ∀ r, Delimited r → strtod.Converts (text ++ r) value r

/-- The binary operators. -/
inductive BinaryOp
  | add
  | sub
  | mul
  | div
  deriving DecidableEq, Repr

namespace BinaryOp

/-- The character an operator is written as. -/
def symbol : BinaryOp → UInt8
  | add => '+'.toUInt8
  | sub => '-'.toUInt8
  | mul => '*'.toUInt8
  | div => '/'.toUInt8

/-- The precedence of an operator; unary minus comes next, with precedence 3. -/
def precedence : BinaryOp → ℕ
  | add | sub => 1
  | mul | div => 2

/-- What an operator computes. -/
def apply {α : Type} [Add α] [Sub α] [Mul α] [Div α] : BinaryOp → α → α → α
  | add, v, w => v + w
  | sub, v, w => v - w
  | mul, v, w => v * w
  | div, v, w => v / w

end BinaryOp

section Rendering

variable {α : Type} (strtod : Strtod α)

/-- An arithmetic expression. -/
inductive ExprTree
  | literal (l : Literal strtod)
  | neg (e : ExprTree)
  | binary (op : BinaryOp) (a b : ExprTree)

variable {strtod}

/-- The value of an expression. -/
def ExprTree.value [Add α] [Sub α] [Mul α] [Div α] [Neg α] : ExprTree strtod → α
  | .literal l => l.value
  | .neg e => -e.value
  | .binary op a b => op.apply a.value b.value

/-- `Renders p e s`: the text `s`, which starts and ends with a token, is a rendering of `e` where
operators of precedence `p` or more need no parentheses. -/
inductive Renders : ℕ → ExprTree strtod → List UInt8 → Prop
  | literal (p : ℕ) (l : Literal strtod) : Renders p (.literal l) l.text
  | paren {e : ExprTree strtod} {s w w' : List UInt8} (p : ℕ) :
      Spaces w → Renders 1 e s → Spaces w' →
        Renders p e ('('.toUInt8 :: (w ++ (s ++ (w' ++ [')'.toUInt8]))))
  | neg {p : ℕ} {e : ExprTree strtod} {s w : List UInt8} :
      p ≤ 3 → Spaces w → Renders 3 e s → Renders p (.neg e) ('-'.toUInt8 :: (w ++ s))
  | binary {p : ℕ} {op : BinaryOp} {a b : ExprTree strtod} {s t w w' : List UInt8} :
      p ≤ op.precedence → Renders op.precedence a s → Spaces w → Spaces w' →
        Renders (op.precedence + 1) b t →
          Renders p (.binary op a b) (s ++ (w ++ op.symbol :: (w' ++ t)))

/-- A rendering of a whole expression, with white space at both ends. -/
def Rendering (e : ExprTree strtod) (text : List UInt8) : Prop :=
  ∃ w s w', Spaces w ∧ Renders 1 e s ∧ Spaces w' ∧ text = w ++ (s ++ w')

/-- The printer that writes parentheses where they are required, and no white space. -/
def ExprTree.render : ℕ → ExprTree strtod → List UInt8
  | _, .literal l => l.text
  | p, .neg e =>
    let s := '-'.toUInt8 :: e.render 3
    if p ≤ 3 then s else '('.toUInt8 :: (s ++ [')'.toUInt8])
  | p, .binary op a b =>
    let s := a.render op.precedence ++ op.symbol :: b.render (op.precedence + 1)
    if p ≤ op.precedence then s else '('.toUInt8 :: (s ++ [')'.toUInt8])

/-! ## The printer -/

theorem Spaces.nil : Spaces [] := by
  intro c hc
  cases hc

/-- Between parentheses an operator of any precedence may stand. -/
theorem BinaryOp.one_le_precedence (op : BinaryOp) : 1 ≤ op.precedence := by
  cases op <;> decide

/-- The printer writes a rendering: every expression has one, at every place. -/
theorem renders_render (p : ℕ) (e : ExprTree strtod) : Renders p e (e.render p) := by
  induction e generalizing p with
  | literal l => exact .literal p l
  | neg e ih =>
    rw [ExprTree.render]
    split_ifs with hp
    · exact .neg hp .nil (ih 3)
    · exact .paren p .nil (.neg (by omega) .nil (ih 3)) .nil
  | binary op a b iha ihb =>
    rw [ExprTree.render]
    split_ifs with hp
    · exact .binary hp (iha _) .nil .nil (ihb _)
    · exact .paren p .nil (.binary op.one_le_precedence (iha _) .nil .nil (ihb _)) .nil

/-! ## What follows a phrase -/

/-- `skip_spaces` goes over white space. -/
theorem Spaces.ws {w : List UInt8} (h : Spaces w) (t : List UInt8) : Ws (w ++ t) t :=
  ⟨w, h, rfl⟩

/-- A number ends where one of these characters follows. -/
theorem delimited_cons {c : UInt8} {r : List UInt8}
    (h : isspace c ∨ c = '+'.toUInt8 ∨ c = '-'.toUInt8 ∨ c = '*'.toUInt8 ∨
      c = '/'.toUInt8 ∨ c = ')'.toUInt8) : Delimited (c :: r) := by
  intro d hd
  rw [List.head?_cons, Option.mem_some_iff] at hd
  exact hd ▸ h

/-- White space does not change whether a text starts with a delimiter. -/
theorem Spaces.delimited {w r : List UInt8} (hw : Spaces w) (hr : Delimited r) :
    Delimited (w ++ r) := by
  cases w with
  | nil => exact hr
  | cons c w => exact delimited_cons (.inl (hw c (by simp)))

theorem BinaryOp.delimited (op : BinaryOp) (r : List UInt8) : Delimited (op.symbol :: r) := by
  cases op <;> exact delimited_cons (by decide)

theorem delimited_close (r : List UInt8) : Delimited (')'.toUInt8 :: r) :=
  delimited_cons (by decide)

theorem delimited_nil : Delimited [] := by
  intro c hc
  cases hc

/-- `strtod` does not convert the empty text, so no literal is written with it. -/
theorem Literal.text_ne_nil (l : Literal strtod) : l.text ≠ [] := by
  intro h
  -- a conversion that consumes nothing is the error that `parse_factor` tests first
  obtain ⟨hok, -, -⟩ := l.converts [] delimited_nil
  have hle := strtod.consumed_le (l.text ++ [])
  rw [h, List.append_nil, List.length_nil, Nat.le_zero] at hle
  refine hok (.inl ?_)
  rw [h, List.append_nil]
  exact hle

/-- Where a literal stands, no other kind of factor starts. -/
theorem Literal.numberStart_append (l : Literal strtod) (r : List UInt8) :
    NumberStart (l.text ++ r) := by
  obtain ⟨d, t, ht⟩ := List.exists_cons_of_ne_nil l.text_ne_nil
  have hstart := l.numberStart
  rw [ht] at hstart ⊢
  exact hstart

/-! ## Renderings as phrases of the grammar -/

/-- The nonterminal whose phrases stand at a place of precedence `p`. -/
def level : ℕ → Nonterminal
  | 0 | 1 => .expr
  | 2 => .term
  | _ + 3 => .factor

variable [Add α] [Sub α] [Mul α] [Div α] [Neg α]

/-- A phrase may stand where operators of a lower precedence may stand too. -/
theorem Derives.level_le {p q : ℕ} {s r : List UInt8} {v : α} (hpq : p ≤ q)
    (h : Derives strtod (level q) s v r) : Derives strtod (level p) s v r := by
  match p, q, hpq, h with
  | 0, 0, _, h | 0, 1, _, h | 1, 1, _, h | 2, 2, _, h | _ + 3, _ + 3, _, h => exact h
  | 0, 2, _, h | 1, 2, _, h => exact .term h
  | 2, _ + 3, _, h => exact .factor h
  | 0, _ + 3, _, h | 1, _ + 3, _, h => exact .term (.factor h)
  | 1, 0, hpq, _ | 2, 0, hpq, _ | 2, 1, hpq, _ => omega
  | _ + 3, 0, hpq, _ | _ + 3, 1, hpq, _ | _ + 3, 2, hpq, _ => omega

/-- A factor may stand everywhere. -/
theorem Derives.level_of_factor {s r : List UInt8} {v : α} (p : ℕ)
    (h : Derives strtod .factor s v r) : Derives strtod (level p) s v r :=
  Derives.level_le (q := p + 3) (by omega) h

/-- The grammar's rule for a binary operator, in terms of precedences. -/
theorem Derives.binary (op : BinaryOp) {s t u r : List UInt8} {v w : α}
    (hv : Derives strtod (level op.precedence) s v t) (ht : Ws t (op.symbol :: u))
    (hw : Derives strtod (level (op.precedence + 1)) u w r) :
    Derives strtod (level op.precedence) s (op.apply v w) r := by
  cases op with
  | add => exact .add hv ht hw
  | sub => exact .sub hv ht hw
  | mul => exact .mul hv ht hw
  | div => exact .div hv ht hw

/-- A rendering is a phrase of the grammar whose value is that of the tree, after any white space
and before any text that can follow a literal. -/
theorem Renders.derives {p : ℕ} {e : ExprTree strtod} {s : List UInt8} (h : Renders p e s) :
    ∀ w r, Spaces w → Delimited r → Derives strtod (level p) (w ++ (s ++ r)) e.value r := by
  induction h with
  | literal p l =>
    intro w r hw hr
    exact .level_of_factor p (.num (hw.ws _) (l.numberStart_append r) (l.converts r hr))
  | @paren e s w₁ w₂ p hw₁ _ hw₂ ih =>
    intro w r hw hr
    -- inside parentheses the place is that of a whole expression, whatever it was outside
    have hinner := ih w₁ (w₂ ++ ')'.toUInt8 :: r) hw₁ (hw₂.delimited (delimited_close r))
    have hfactor := Derives.paren (hw.ws _) hinner (hw₂.ws _)
    simpa using Derives.level_of_factor p hfactor
  | @neg p e s w₁ hp hw₁ _ ih =>
    intro w r hw hr
    have hfactor := Derives.neg (hw.ws _) (ih w₁ r hw₁ hr)
    simpa [ExprTree.value] using Derives.level_of_factor p hfactor
  | @binary p op a b s t w₁ w₂ hp _ hw₁ hw₂ _ iha ihb =>
    intro w r hw hr
    -- the left operand ends where the operator, or white space before it, starts
    have hleft := iha w (w₁ ++ op.symbol :: (w₂ ++ (t ++ r))) hw
      (hw₁.delimited (op.delimited _))
    have hright := ihb w₂ r hw₂ hr
    simpa [ExprTree.value] using Derives.level_le hp (Derives.binary op hleft (hw₁.ws _) hright)

/-- A rendering is a sentence of the grammar. -/
theorem Rendering.input {e : ExprTree strtod} {text : List UInt8} (h : Rendering e text) :
    Input strtod text e.value := by
  obtain ⟨w, s, w', hw, hs, hw', rfl⟩ := h
  have hend : Delimited w' := by simpa using hw'.delimited delimited_nil
  exact ⟨w', hs.derives w w' hw hend, w', hw', by simp⟩

omit [Add α] [Sub α] [Mul α] [Div α] [Neg α] in
theorem Spaces.nulFree {w : List UInt8} (h : Spaces w) : 0 ∉ w := by
  intro h0
  exact absurd (h 0 h0) (by decide)

omit [Add α] [Sub α] [Mul α] [Div α] [Neg α] in
theorem BinaryOp.symbol_ne_zero (op : BinaryOp) : (0 : UInt8) ≠ op.symbol := by
  cases op <;> decide

omit [Add α] [Sub α] [Mul α] [Div α] [Neg α] in
/-- No token contains a NUL, so a rendering is a C string. -/
theorem Renders.nulFree {p : ℕ} {e : ExprTree strtod} {s : List UInt8} (h : Renders p e s) :
    0 ∉ s := by
  induction h with
  | literal p l => exact l.nulFree
  | paren p hw _ hw' ih =>
    simp only [List.mem_cons, List.mem_append, List.not_mem_nil, or_false, not_or]
    exact ⟨by decide, hw.nulFree, ih, hw'.nulFree, by decide⟩
  | neg _ hw _ ih =>
    simp only [List.mem_cons, List.mem_append, not_or]
    exact ⟨by decide, hw.nulFree, ih⟩
  | @binary p op a b s t w w' _ _ hw hw' _ iha ihb =>
    simp only [List.mem_cons, List.mem_append, not_or]
    exact ⟨iha, hw.nulFree, op.symbol_ne_zero, hw'.nulFree, ihb⟩

omit [Add α] [Sub α] [Mul α] [Div α] [Neg α] in
/-- A rendered expression is a string. -/
theorem Rendering.nulFree {e : ExprTree strtod} {text : List UInt8} (h : Rendering e text) :
    0 ∉ text := by
  obtain ⟨w, s, w', hw, hs, hw', rfl⟩ := h
  simp only [List.mem_append, not_or]
  exact ⟨hw.nulFree, hs.nulFree, hw'.nulFree⟩

/-- `evaluate` returns the value of an expression on every rendering of it, wherever the rendering
is stored. -/
theorem evaluate_rendering (e : ExprTree strtod) (text : List UInt8) (h : Rendering e text)
    (junk : List UInt8) : Returns strtod (.store text junk) e.value := by
  apply returns_of_input
  rw [CBuffer.text_store h.nulFree]
  exact h.input

end Rendering

/-- The characters that `strtodDecimal` converts. -/
def isdigit (c : UInt8) : Bool :=
  '0'.toUInt8 ≤ c && c ≤ '9'.toUInt8

/-- The digits are a range of codes. -/
theorem isdigit_iff (c : UInt8) : isdigit c ↔ 48 ≤ c.toNat ∧ c.toNat ≤ 57 := by
  rw [isdigit, Bool.and_eq_true, decide_eq_true_iff, decide_eq_true_iff, UInt8.le_iff_toNat_le,
    UInt8.le_iff_toNat_le]
  rfl

/-- The white space characters are the blank and a range of codes. -/
theorem isspace_iff (c : UInt8) : isspace c ↔ c.toNat = 32 ∨ 9 ≤ c.toNat ∧ c.toNat ≤ 13 := by
  have hspace : ' '.toUInt8.toNat = 32 := rfl
  simp [isspace, UInt8.le_iff_toNat_le, ← UInt8.toNat_inj, hspace]

/-- A literal may not be followed by a digit. -/
theorem isdigit_eq_false_of_delimited {c : UInt8} {r : List UInt8} (h : Delimited (c :: r)) :
    isdigit c = false := by
  rcases h c rfl with hc | rfl | rfl | rfl | rfl | rfl
  · rw [isspace_iff] at hc
    rw [Bool.eq_false_iff, ne_eq, isdigit_iff]
    omega
  all_goals rfl

/-- A literal may start with a digit. -/
theorem numberStart_cons_of_isdigit {c : UInt8} {t : List UInt8} (h : isdigit c) :
    NumberStart (c :: t) := by
  intro d hd
  obtain rfl : c = d := by simpa using hd
  rw [isdigit_iff] at h
  refine ⟨?_, ?_, ?_⟩
  · rw [Bool.eq_false_iff, ne_eq, isspace_iff]
    omega
  all_goals
    rintro rfl
    exact absurd h (by decide)

/-- `strtodDecimal` converts the digits at the start of its argument. -/
theorem strtodDecimal_convert_append {digits r : List UInt8} (hdigits : ∀ c ∈ digits, isdigit c)
    (hr : Delimited r) :
    strtodDecimal.convert (digits ++ r) =
      { value := (digits.foldl (fun n c => 10 * n + (c.toNat - 48)) 0 : ℕ)
        consumed := digits.length
        erange := false } := by
  have htake : (digits ++ r).takeWhile isdigit = digits := by
    rw [List.takeWhile_append_of_pos hdigits]
    cases r with
    | nil => simp
    | cons c r => simp [isdigit_eq_false_of_delimited hr]
  conv_rhs => rw [← htake]
  rfl

/-- A text of decimal digits is a literal for `strtodDecimal`. -/
def decimalLiteral (c : UInt8) (t : List UInt8) (hdigits : (c :: t).all isdigit = true) :
    Literal strtodDecimal where
  text := c :: t
  value := ((c :: t).foldl (fun n d => 10 * n + (d.toNat - 48)) 0 : ℕ)
  nulFree := fun h0 => absurd (List.all_eq_true.mp hdigits 0 h0) (by decide)
  numberStart := numberStart_cons_of_isdigit (List.all_eq_true.mp hdigits c (by simp))
  converts := by
    intro r hr
    rw [Strtod.Converts, strtodDecimal_convert_append (List.all_eq_true.mp hdigits) hr]
    simp

/-- The tree of the expression in `run_demos.sh`. -/
def demo : ExprTree strtodDecimal :=
  .binary .sub
    (.binary .mul (.literal (decimalLiteral '1'.toUInt8 ['2'.toUInt8] (by decide)))
      (.binary .add (.literal (decimalLiteral '3'.toUInt8 [] (by decide)))
        (.literal (decimalLiteral '4'.toUInt8 [] (by decide)))))
    (.literal (decimalLiteral '5'.toUInt8 [] (by decide)))

/-- The expression of `run_demos.sh` renders its tree, and the server answers 79. -/
theorem evaluate_demo :
    Rendering demo ("12 * (3 + 4) - 5".toList.map Char.toUInt8) ∧
      Returns strtodDecimal (.ofString ("12 * (3 + 4) - 5".toList.map Char.toUInt8)) 79 := by
  have hspace : Spaces [' '.toUInt8] := List.forall_mem_singleton.mpr (by decide)
  have hdemo : Rendering demo ("12 * (3 + 4) - 5".toList.map Char.toUInt8) :=
    ⟨[], _, [], .nil, .binary (by decide)
      (.binary (by decide) (.literal 2 _) hspace hspace
        (.paren 3 .nil (.binary (by decide) (.literal 1 _) hspace hspace (.literal 2 _)) .nil))
      hspace hspace (.literal 2 _), .nil, by decide⟩
  have hvalue : demo.value = 79 := by
    change ((12 : ℕ) : ℚ) * ((3 : ℕ) + (4 : ℕ)) - (5 : ℕ) = 79
    norm_num
  exact ⟨hdemo, hvalue ▸ evaluate_rendering demo _ hdemo []⟩

end UnixCalc
