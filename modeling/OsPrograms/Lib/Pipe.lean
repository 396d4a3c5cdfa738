import Mathlib.Data.Nat.Notation
import Mathlib.Tactic.TypeStar

/-!
# Pipes

The calls on a pipe, given by the bytes in it and by whether some process has the other end open.
A `write` here is one of at most `PIPE_BUF` bytes, which the kernel performs as a whole.

* A `read` blocks while the pipe is empty and has a writer; without a writer it returns 0.
* A `write` blocks while there is no room; without a reader it raises `SIGPIPE`.
-/

namespace Pipe

variable {α : Type*}

/-- What a `write` that does not block does. -/
inductive Written (α : Type*)
  /-- The writer gets `SIGPIPE`. -/
  | sigpipe
  /-- The pipe contains `bytes` now. -/
  | wrote (bytes : List α)

/-- `write(fd, data)`, `none` while it blocks. -/
def write (capacity : ℕ) (reader : Bool) (bytes data : List α) : Option (Written α) :=
  if reader then
    if bytes.length + data.length ≤ capacity then some (.wrote (bytes ++ data)) else none
  else some .sigpipe

/-- `poll` reports the read end: there is data, or a hang-up. -/
def ready (writer : Bool) (bytes : List α) : Bool :=
  !bytes.isEmpty || !writer

/-- `read(fd, buffer, size)`, `none` while it blocks: the data it returns, which is empty at end of
file, and what is left in the pipe. -/
def read (size : ℕ) (writer : Bool) (bytes : List α) : Option (List α × List α) :=
  if ready writer bytes then some (bytes.take size, bytes.drop size) else none

variable {capacity size : ℕ} {bytes data : List α}

/-- Data that fits is written at once, while there is a reader. -/
theorem write_of_le (h : bytes.length + data.length ≤ capacity) :
    write capacity true bytes data = some (.wrote (bytes ++ data)) :=
  if_pos h

/-- A pipe with data is ready, whoever has it open. -/
theorem ready_of_ne_nil (writer : Bool) (h : bytes ≠ []) : ready writer bytes = true := by
  simp [ready, h]

/-- A `read` that asks for enough takes all there is. -/
theorem read_of_length_le (writer : Bool) (h : bytes ≠ []) (hsize : bytes.length ≤ size) :
    read size writer bytes = some (bytes, []) := by
  rw [read, if_pos (ready_of_ne_nil writer h), List.take_of_length_le hsize,
    List.drop_eq_nil_of_le hsize]

end Pipe
