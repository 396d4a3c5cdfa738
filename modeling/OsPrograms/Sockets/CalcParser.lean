import Mathlib.Data.List.TakeWhile
import OsPrograms.Lib.StateError

/-!
# The expression evaluator of `unix_calc_server`

The recursive-descent evaluator of `Sockets/unix_calc_server.c`: `skip_spaces`, `parse_factor`,
`parse_term`, `parse_expression` and `evaluate`. The global cursor `expr` is an index into the
buffer that holds the input, and the functions are programs over that cursor that stop through
`die` or by reading outside the buffer.

`double` and its operations are an arbitrary type with the five operations the code uses, and
`strtod` is a parameter (`Strtod`). The unbounded loops and the recursion take fuel; the amount
`evaluate` hands out is always enough (`OsPrograms.Sockets.CalcCorrectness`).

Next to the cursor the state records what a run did: the indices read through `expr`, the number
of `parse_factor` calls that are active, and the largest that number has been.
-/

namespace UnixCalc

/-- A buffer that holds a NUL-terminated string. -/
structure CBuffer where
  /-- The bytes of the buffer. -/
  bytes : List UInt8
  /-- One of them is the terminator. -/
  terminated : 0 ∈ bytes

namespace CBuffer

/-- The buffer with `data` at its start, then a terminator, then whatever it held before. -/
def store (data junk : List UInt8) : CBuffer :=
  { bytes := data ++ 0 :: junk, terminated := by simp }

/-- The buffer that holds just `s` and its terminator. -/
def ofString (s : List UInt8) : CBuffer :=
  store s []

/-- The string in the buffer: the bytes before the first NUL. -/
def text (buf : CBuffer) : List UInt8 :=
  buf.bytes.takeWhile (· ≠ 0)

/-- What is left of the string from index `i` on. -/
def rest (buf : CBuffer) (i : ℕ) : List UInt8 :=
  buf.text.drop i

end CBuffer

/-- What `strtod` reports: the converted value, the number of bytes up to the end pointer, and
whether `errno` was set to `ERANGE`. -/
structure StrtodResult (α : Type) where
  /-- The returned value. -/
  value : α
  /-- `end - nptr`. -/
  consumed : ℕ
  /-- `errno == ERANGE` after the call. -/
  erange : Bool

/-- A `strtod`: a function of the text from the given pointer to the NUL, whose end pointer does
not pass that NUL. -/
structure Strtod (α : Type) where
  /-- The conversion. -/
  convert : List UInt8 → StrtodResult α
  /-- The end pointer stays inside the string. -/
  consumed_le : ∀ t, (convert t).consumed ≤ t.length

/-- The global cursor of the parser, and the record of its run. -/
structure ParserState where
  /-- The global `expr`, as an index into the input buffer. -/
  expr : ℕ
  /-- The indices read through `expr`, the latest first. -/
  reads : List ℕ
  /-- The number of active `parse_factor` calls. -/
  active : ℕ
  /-- The largest number of `parse_factor` calls that were active at once. -/
  deepest : ℕ
  deriving DecidableEq, Repr

/-- Why a parser function did not return. -/
inductive Halt
  /-- `die(message)`. -/
  | died (message : String)
  /-- A read outside the buffer. -/
  | outOfBounds
  /-- The model's fuel ran out. -/
  | outOfFuel
  deriving DecidableEq, Repr

/-- A parser function: it moves the cursor and returns a value, or halts. -/
abbrev Parse (α : Type) := EStateM Halt ParserState α

/-- `die` of `Common/common.c`. -/
def die {α : Type} (message : String) : Parse α :=
  throw (.died message)

/-- `*expr`. -/
def peek (buf : CBuffer) : Parse UInt8 := fun st =>
  match buf.bytes[st.expr]? with
  | some c => .ok c { st with reads := st.expr :: st.reads }
  | none => .error .outOfBounds st

/-- `expr += n`. -/
def advance (n : ℕ) : Parse Unit := fun st =>
  .ok () { st with expr := st.expr + n }

/-- A call of `parse_factor` starts. -/
def enterFactor : Parse Unit := fun st =>
  .ok () { st with active := st.active + 1, deepest := max st.deepest (st.active + 1) }

/-- A call of `parse_factor` returns. -/
def leaveFactor : Parse Unit := fun st =>
  .ok () { st with active := st.active - 1 }

/-- `isspace` in the C locale: space, `\t`, `\n`, `\v`, `\f`, `\r`. -/
def isspace (c : UInt8) : Bool :=
  c == ' '.toUInt8 || (0x09 ≤ c && c ≤ 0x0d)

/-- The loop of `skip_spaces`. -/
def skipSpacesLoop (buf : CBuffer) : ℕ → Parse Unit
  | 0 => throw .outOfFuel
  | fuel + 1 => do
    let c ← peek buf
    if isspace c then
      advance 1
      skipSpacesLoop buf fuel
    else
      pure ()

/-- `skip_spaces`. Its loop ends at the NUL at the latest. -/
def skipSpaces (buf : CBuffer) : Parse Unit :=
  skipSpacesLoop buf (buf.text.length + 1)

section Parser

variable {α : Type} [Add α] [Sub α] [Mul α] [Div α] [Neg α] (strtod : Strtod α) (buf : CBuffer)

/-- The last part of `parse_factor`: a numeric token. -/
def parseNumber : Parse α := fun st =>
  let r := strtod.convert (buf.rest st.expr)
  if r.consumed = 0 ∨ r.erange then
    (die "invalid numeric token" : Parse α).run st
  else
    (do advance r.consumed; pure r.value : Parse α).run st

mutual

/-- `parse_factor`. -/
def parseFactor : ℕ → Parse α
  | 0 => throw .outOfFuel
  | fuel + 1 => do
    enterFactor
    skipSpaces buf
    let c ← peek buf
    if c = '('.toUInt8 then
      advance 1
      let value ← parseExpression fuel
      skipSpaces buf
      -- `*expr++` moves the cursor also when the test fails, and then past the NUL
      let close ← peek buf
      advance 1
      if close ≠ ')'.toUInt8 then
        die "missing parenthesis"
      else
        leaveFactor
        pure value
    else
      -- the source tests `*expr` again, which is one more read
      let c ← peek buf
      if c = '-'.toUInt8 then
        advance 1
        let value ← parseFactor fuel
        leaveFactor
        pure (-value)
      else
        let value ← parseNumber strtod buf
        leaveFactor
        pure value

/-- `parse_term`. -/
def parseTerm : ℕ → Parse α
  | 0 => throw .outOfFuel
  | fuel + 1 => do
    let value ← parseFactor fuel
    termLoop fuel value

/-- The loop of `parse_term`, entered with the value so far. -/
def termLoop : ℕ → α → Parse α
  | 0, _ => throw .outOfFuel
  | fuel + 1, value => do
    skipSpaces buf
    let op ← peek buf
    -- the byte is read once into `op`, and both tests and the choice of the operation use it
    if op ≠ '*'.toUInt8 ∧ op ≠ '/'.toUInt8 then
      pure value
    else
      advance 1
      let rhs ← parseFactor fuel
      termLoop fuel (if op = '*'.toUInt8 then value * rhs else value / rhs)

/-- `parse_expression`. -/
def parseExpression : ℕ → Parse α
  | 0 => throw .outOfFuel
  | fuel + 1 => do
    let value ← parseTerm fuel
    expressionLoop fuel value

/-- The loop of `parse_expression`, entered with the value so far. -/
def expressionLoop : ℕ → α → Parse α
  | 0, _ => throw .outOfFuel
  | fuel + 1, value => do
    skipSpaces buf
    let op ← peek buf
    if op ≠ '+'.toUInt8 ∧ op ≠ '-'.toUInt8 then
      pure value
    else
      advance 1
      let rhs ← parseTerm fuel
      expressionLoop fuel (if op = '+'.toUInt8 then value + rhs else value - rhs)

end

/-- The body of `evaluate` after `expr = input`. -/
def evaluateProgram (fuel : ℕ) : Parse α := do
  let value ← parseExpression strtod buf fuel
  skipSpaces buf
  let c ← peek buf
  if c = 0 then
    pure value
  else
    let c ← peek buf
    if c = '\n'.toUInt8 then
      pure value
    else
      die "unexpected trailing token"

/-- The parser's state when `evaluate` has set `expr = input`. -/
def ParserState.start : ParserState :=
  { expr := 0, reads := [], active := 0, deepest := 0 }

/-- `evaluate`. -/
def evaluate : EStateM.Result Halt ParserState α :=
  (evaluateProgram strtod buf (3 * buf.text.length + 3)).run .start

/-- `evaluate` returns `value`. -/
def Returns (value : α) : Prop :=
  ∃ st, evaluate strtod buf = .ok value st

/-- `evaluate` ends in `die`. -/
def Dies : Prop :=
  ∃ message st, evaluate strtod buf = .error (.died message) st

end Parser

end UnixCalc
