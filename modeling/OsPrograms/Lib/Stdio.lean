import Mathlib.Tactic.TypeStar

/-!
# Buffered standard output

Standard output is shared by all processes, and each process has a buffer of its own in front of
it. `printf` of a line leaves the line in the buffer when the stream is fully buffered, and writes
the buffer out when it is line buffered. Buffers are taken to be large enough for all lines.
-/

/-- How a stream is buffered. -/
inductive Buffering
  | line
  | full
  deriving DecidableEq, Repr

namespace Stdio

/-- `printf` of one line with `buffer` in the buffer: what reaches the output, and the buffer
after it. -/
def printf {ℓ : Type*} (mode : Buffering) (buffer : List ℓ) (l : ℓ) : List ℓ × List ℓ :=
  match mode with
  | .line => (buffer ++ [l], [])
  | .full => ([], buffer ++ [l])

end Stdio
