import OsPrograms.Sockets.CalcParser

/-!
# The grammar of calculator expressions

The language `unix_calc_server` evaluates, stated without reference to the parser:

```
input  ::= expr ws*
expr   ::= term (ws* ('+' | '-') term)*
term   ::= factor (ws* ('*' | '/') factor)*
factor ::= ws* '(' expr ws* ')' | ws* '-' factor | ws* num
```

`Derives strtod sym s v r` says that `s` starts with a phrase of the nonterminal `sym` whose
value is `v`, and that `r` is the text after it. The text after a phrase is part of the relation
because a `num` is whatever `strtod` converts, and `strtod` looks at all the text it is given.
The repetitions are written as left recursion, which is what folds their values left to right.
-/

namespace UnixCalc

/-- `s` is `t` after some white space. -/
def Ws (s t : List UInt8) : Prop :=
  ∃ w, (∀ c ∈ w, isspace c) ∧ s = w ++ t

/-- `s` without its leading white space. -/
def dropSpaces (s : List UInt8) : List UInt8 :=
  s.dropWhile isspace

/-- `strtod` converts a prefix of `t` to `v`, without `ERANGE`, and leaves `r`. -/
def Strtod.Converts {α : Type} (strtod : Strtod α) (t : List UInt8) (v : α) (r : List UInt8) :
    Prop :=
  ¬((strtod.convert t).consumed = 0 ∨ (strtod.convert t).erange) ∧
    (strtod.convert t).value = v ∧ t.drop (strtod.convert t).consumed = r

/-- `t` starts with neither `(` nor `-`, and all white space before it has been passed. -/
def NumberStart (t : List UInt8) : Prop :=
  ∀ c ∈ t.head?, isspace c = false ∧ c ≠ '('.toUInt8 ∧ c ≠ '-'.toUInt8

instance : ∀ t : List UInt8, Decidable (NumberStart t)
  | [] => isTrue nofun
  | c :: _ =>
    decidable_of_iff (isspace c = false ∧ c ≠ '('.toUInt8 ∧ c ≠ '-'.toUInt8)
      (by simp [NumberStart])

/-- The nonterminals below `input`. -/
inductive Nonterminal
  | factor
  | term
  | expr
  deriving DecidableEq, Repr

section Grammar

variable {α : Type} [Add α] [Sub α] [Mul α] [Div α] [Neg α] (strtod : Strtod α)

/-- `Derives strtod sym s v r`: a phrase of `sym` with value `v` leads from `s` to `r`. -/
inductive Derives : Nonterminal → List UInt8 → α → List UInt8 → Prop
  | paren {s t u r : List UInt8} {v : α} :
      Ws s ('('.toUInt8 :: t) → Derives .expr t v u → Ws u (')'.toUInt8 :: r) →
        Derives .factor s v r
  | neg {s t r : List UInt8} {v : α} :
      Ws s ('-'.toUInt8 :: t) → Derives .factor t v r → Derives .factor s (-v) r
  | num {s t r : List UInt8} {v : α} :
      Ws s t → NumberStart t → strtod.Converts t v r → Derives .factor s v r
  | factor {s r : List UInt8} {v : α} : Derives .factor s v r → Derives .term s v r
  | mul {s t u r : List UInt8} {v w : α} :
      Derives .term s v t → Ws t ('*'.toUInt8 :: u) → Derives .factor u w r →
        Derives .term s (v * w) r
  | div {s t u r : List UInt8} {v w : α} :
      Derives .term s v t → Ws t ('/'.toUInt8 :: u) → Derives .factor u w r →
        Derives .term s (v / w) r
  | term {s r : List UInt8} {v : α} : Derives .term s v r → Derives .expr s v r
  | add {s t u r : List UInt8} {v w : α} :
      Derives .expr s v t → Ws t ('+'.toUInt8 :: u) → Derives .term u w r →
        Derives .expr s (v + w) r
  | sub {s t u r : List UInt8} {v w : α} :
      Derives .expr s v t → Ws t ('-'.toUInt8 :: u) → Derives .term u w r →
        Derives .expr s (v - w) r

/-- `s` is a sentence of the grammar with value `v`. -/
def Input (s : List UInt8) (v : α) : Prop :=
  ∃ r, Derives strtod .expr s v r ∧ Ws r []

end Grammar

/-! ## White space -/

theorem Ws.refl (s : List UInt8) : Ws s s :=
  ⟨[], by simp, rfl⟩

/-- Dropping the leading white space passes white space only. -/
theorem ws_dropSpaces (s : List UInt8) : Ws s (dropSpaces s) :=
  ⟨s.takeWhile isspace, fun _ hc => List.mem_takeWhile_imp hc,
    List.takeWhile_append_dropWhile.symm⟩

theorem Ws.trans {s t u : List UInt8} (hst : Ws s t) (htu : Ws t u) : Ws s u := by
  obtain ⟨w, hw, rfl⟩ := hst
  obtain ⟨w', hw', rfl⟩ := htu
  refine ⟨w ++ w', ?_, by simp⟩
  intro c hc
  rcases List.mem_append.mp hc with hc | hc
  · exact hw c hc
  · exact hw' c hc

/-- Passing white space does not change what is left when all of it is dropped. -/
theorem Ws.dropSpaces_eq {s t : List UInt8} (h : Ws s t) : dropSpaces s = dropSpaces t := by
  obtain ⟨w, hw, rfl⟩ := h
  exact List.dropWhile_append_of_pos hw

/-- White space before a character that is none is all the leading white space. -/
theorem Ws.dropSpaces_eq_cons {s t : List UInt8} {c : UInt8} (h : Ws s (c :: t))
    (hc : isspace c = false) : dropSpaces s = c :: t := by
  rw [h.dropSpaces_eq, dropSpaces, List.dropWhile_cons_of_neg (by simp [hc])]

/-- The first character after the leading white space is no white space. -/
theorem isspace_of_dropSpaces_eq_cons {s t : List UInt8} {c : UInt8}
    (h : dropSpaces s = c :: t) : isspace c = false := by
  have hhead := List.head?_dropWhile_not isspace s
  rw [dropSpaces] at h
  simpa [h] using hhead

/-- A character taken after the leading white space leaves a shorter text. -/
theorem length_lt_of_dropSpaces_eq_cons {s t : List UInt8} {c : UInt8}
    (h : dropSpaces s = c :: t) : t.length < s.length := by
  have hle := (List.dropWhile_suffix isspace (l := s)).length_le
  rw [← dropSpaces, h, List.length_cons] at hle
  omega

/-- Dropping the leading white space twice drops nothing more. -/
@[simp]
theorem dropSpaces_dropSpaces (s : List UInt8) : dropSpaces (dropSpaces s) = dropSpaces s :=
  (ws_dropSpaces s).dropSpaces_eq.symm

/-- A text that starts a number has no leading white space. -/
theorem NumberStart.dropSpaces_eq {t : List UInt8} (h : NumberStart t) : dropSpaces t = t := by
  cases t with
  | nil => rfl
  | cons c t => exact List.dropWhile_cons_of_neg (by simp [(h c rfl).1])

end UnixCalc
