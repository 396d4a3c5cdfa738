import Mathlib.Tactic.Ring
import OsPrograms.Lib.Descriptors

/-!
# Control messages that pass descriptors

The control buffer of `sendmsg` and `recvmsg` is bytes: a header with the length, the level and the
type of the message, 16 bytes with 64-bit Linux, and then its data. A message of type `SCM_RIGHTS`
has descriptors as its data. The sender's descriptors are looked up when the message is sent, and
the receiver gets new ones for the same open files, each with the lowest number that is free.

Numbers are stored with the least significant byte first. One message in a buffer is enough here.

## Main results

- `decode_encode`: numbers can be read back.
- `parse_rights`: the kernel finds the descriptors that the sender has put into the message.
- `receive_one`: a single file, and what the receiver finds in its buffer.
-/

namespace ControlMessage

/-! ## Numbers -/

/-- `n` in `w` bytes. -/
def encode : ℕ → ℕ → List UInt8
  | 0, _ => []
  | w + 1, n => UInt8.ofNat (n % 256) :: encode w (n / 256)

/-- The number in some bytes. -/
def decode : List UInt8 → ℕ
  | [] => 0
  | b :: bs => b.toNat + 256 * decode bs

@[simp]
theorem length_encode (w n : ℕ) : (encode w n).length = w := by
  induction w generalizing n with
  | zero => rfl
  | succ w ih => rw [encode, List.length_cons, ih]

/-- A number that fits the field is read back. -/
theorem decode_encode {w n : ℕ} (h : n < 256 ^ w) : decode (encode w n) = n := by
  induction w generalizing n with
  | zero =>
    rw [pow_zero] at h
    show 0 = n
    omega
  | succ w ih =>
    have hquot : n / 256 < 256 ^ w := by
      rw [pow_succ] at h
      exact Nat.div_lt_of_lt_mul (by rwa [Nat.mul_comm])
    have hbyte : (UInt8.ofNat (n % 256)).toNat = n % 256 := by
      rw [UInt8.toNat_ofNat']
      omega
    rw [encode, decode, ih hquot, hbyte]
    omega

/-- The `int`s in some bytes. -/
def ints : List UInt8 → List ℕ
  | b₀ :: b₁ :: b₂ :: b₃ :: bs => decode [b₀, b₁, b₂, b₃] :: ints bs
  | _ => []

/-- The first four bytes are the first number. -/
theorem ints_encode_append {n : ℕ} (h : n < 256 ^ 4) (bs : List UInt8) :
    ints (encode 4 n ++ bs) = n :: ints bs := by
  show decode (encode 4 n) :: ints bs = n :: ints bs
  rw [decode_encode h]

/-- The numbers of an array are read back. -/
theorem ints_flatMap_encode {ns : List ℕ} (h : ∀ n ∈ ns, n < 256 ^ 4) :
    ints (ns.flatMap (encode 4)) = ns := by
  induction ns with
  | nil => rfl
  | cons n ns ih =>
    rw [List.forall_mem_cons] at h
    rw [List.flatMap_cons, ints_encode_append h.1, ih h.2]

theorem length_flatMap_encode (ns : List ℕ) : (ns.flatMap (encode 4)).length = 4 * ns.length := by
  induction ns with
  | nil => rfl
  | cons n ns ih =>
    rw [List.flatMap_cons, List.length_append, length_encode, ih, List.length_cons]
    ring

/-! ## Headers -/

/-- `sizeof(struct cmsghdr)` -/
def headerSize : ℕ := 16

/-- `CMSG_LEN(size)` -/
def cmsgLen (size : ℕ) : ℕ :=
  headerSize + size

/-- `CMSG_SPACE(size)`: the data is padded to a multiple of eight bytes. -/
def cmsgSpace (size : ℕ) : ℕ :=
  headerSize + (size + 7) / 8 * 8

/-- `SOL_SOCKET` -/
def solSocket : ℕ := 1

/-- `SCM_RIGHTS` -/
def scmRights : ℕ := 1

/-- `cmsg_len`, `cmsg_level` and `cmsg_type`. -/
def header (len level type : ℕ) : List UInt8 :=
  encode 8 len ++ (encode 4 level ++ encode 4 type)

@[simp]
theorem length_header (len level type : ℕ) : (header len level type).length = headerSize := by
  simp [header, headerSize]

/-- `cmsg_len` of the first message of a buffer. -/
def lenField (control : List UInt8) : ℕ :=
  decode (control.take 8)

/-- `cmsg_level` of the first message of a buffer. -/
def levelField (control : List UInt8) : ℕ :=
  decode ((control.drop 8).take 4)

/-- `cmsg_type` of the first message of a buffer. -/
def typeField (control : List UInt8) : ℕ :=
  decode ((control.drop 12).take 4)

section Header

variable {len level type : ℕ} (data : List UInt8)

/-- `cmsg_len` is what was written to it. -/
theorem lenField_header (h : len < 256 ^ 8) : lenField (header len level type ++ data) = len := by
  rw [lenField, header, List.append_assoc, List.take_left' (length_encode 8 len), decode_encode h]

/-- `cmsg_level` is what was written to it. -/
theorem levelField_header (h : level < 256 ^ 4) :
    levelField (header len level type ++ data) = level := by
  rw [levelField, header, List.append_assoc, List.append_assoc,
    List.drop_left' (length_encode 8 len), List.take_left' (length_encode 4 level), decode_encode h]

/-- `cmsg_type` is what was written to it. -/
theorem typeField_header (h : type < 256 ^ 4) :
    typeField (header len level type ++ data) = type := by
  have hlength : (encode 8 len ++ encode 4 level).length = 12 := by simp
  rw [typeField, header, ← List.append_assoc (encode 8 len), List.append_assoc,
    List.drop_left' hlength, List.take_left' (length_encode 4 type), decode_encode h]

end Header

/-! ## Passing descriptors -/

/-- A message of type `SCM_RIGHTS`. -/
def rights (fds : List ℕ) : List UInt8 :=
  header (cmsgLen (4 * fds.length)) solSocket scmRights ++ fds.flatMap (encode 4)

/-- The descriptors that `sendmsg` finds in the control buffer, `none` if it fails with `EINVAL`. -/
def parse (control : List UInt8) : Option (List ℕ) :=
  if control.length < headerSize then some []
  else if lenField control < headerSize ∨ control.length < lenField control then none
  else if levelField control = solSocket ∧ typeField control = scmRights then
    some (ints ((control.take (lenField control)).drop headerSize))
  else none

/-- The kernel reads the descriptors that were written. -/
theorem parse_rights {fds : List ℕ} (h : ∀ fd ∈ fds, fd < 256 ^ 4)
    (hlength : fds.length < 256 ^ 4) : parse (rights fds) = some fds := by
  have hlen : lenField (rights fds) = cmsgLen (4 * fds.length) := by
    refine lenField_header _ ?_
    simp only [cmsgLen, headerSize]
    omega
  have hall : (rights fds).length = cmsgLen (4 * fds.length) := by
    rw [rights, List.length_append, length_header, length_flatMap_encode, cmsgLen]
  have hdata : ((rights fds).take (cmsgLen (4 * fds.length))).drop headerSize =
      fds.flatMap (encode 4) := by
    rw [List.take_of_length_le hall.le, rights, List.drop_left' (length_header ..)]
  have hlevel : levelField (rights fds) = solSocket := levelField_header _ (by decide)
  have htype : typeField (rights fds) = scmRights := typeField_header _ (by decide)
  have hge : ¬cmsgLen (4 * fds.length) < headerSize := Nat.not_lt.2 (Nat.le_add_right _ _)
  have hvalid : ¬(cmsgLen (4 * fds.length) < headerSize ∨
      cmsgLen (4 * fds.length) < cmsgLen (4 * fds.length)) :=
    not_or.2 ⟨hge, lt_irrefl _⟩
  rw [parse, hlen, hall, hlevel, htype, hdata, ints_flatMap_encode h, if_neg hge, if_neg hvalid,
    if_pos ⟨rfl, rfl⟩]

section Tables

variable {φ : Type*}

/-- New descriptors for the files `fs`, and the table with them. -/
def install (t : Descriptors φ) : List φ → List ℕ × Descriptors φ
  | [] => ([], t)
  | f :: fs =>
    let (ks, t') := install (t.set t.lowestFree (some f)) fs
    (t.lowestFree :: ks, t')

/-- What `recvmsg` stores in a control buffer of `size` bytes when the files `fs` are passed,
without the padding behind it, and the table after it. Files for which there is no room are
closed. -/
def receive (size : ℕ) (t : Descriptors φ) (fs : List φ) : List UInt8 × Descriptors φ :=
  match install t (fs.take ((size - headerSize) / 4)) with
  | ([], t') => ([], t')
  | (ks, t') => (rights ks, t')

/-- The first `int` of `CMSG_DATA(CMSG_FIRSTHDR(msg))`, `none` if there is no message. -/
def firstInt (control : List UInt8) : Option ℕ :=
  if control.length < headerSize then none
  else some (decode ((control.drop headerSize).take 4))

/-- One file: the receiver finds the number of its new descriptor. -/
theorem receive_one {size : ℕ} (hsize : cmsgLen 4 ≤ size) {t : Descriptors φ} (f : φ)
    (hfree : t.lowestFree < 256 ^ 4) :
    (receive size t [f]).2 = t.set t.lowestFree (some f) ∧
      firstInt (receive size t [f]).1 = some t.lowestFree := by
  have htake : [f].take ((size - headerSize) / 4) = [f] := by
    refine List.take_of_length_le ?_
    simp only [cmsgLen, headerSize] at hsize ⊢
    show 1 ≤ _
    omega
  have hreceive : receive size t [f] = (rights [t.lowestFree], t.set t.lowestFree (some f)) := by
    rw [receive, htake]
    rfl
  have hlength : ¬(rights [t.lowestFree]).length < headerSize := by
    rw [rights, List.length_append, length_header]
    omega
  rw [hreceive]
  refine ⟨rfl, ?_⟩
  rw [firstInt, if_neg hlength, rights, List.drop_left' (length_header ..), List.flatMap_cons,
    List.take_left' (length_encode 4 _), decode_encode hfree]

end Tables

end ControlMessage
