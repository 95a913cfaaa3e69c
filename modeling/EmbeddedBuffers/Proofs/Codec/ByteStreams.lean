import EmbeddedBuffers.Proofs.Codec.Demands
import EmbeddedBuffers.Proofs.Codec.Untrusted

/-!
# Streams in memory

The streams as a machine holds them. A writer has bytes, the last of which may be in use in part,
and a reader has a place among the bits of its bytes. Numbers go through in pieces that do not cross
the border of a byte, moved to their places by shifts and cut out by masks, in words of 8, 16 and 64
bits.
Main statements: `ByteWriter.Holds.put`, by which the bytes hold what was put into them and zeros
behind it, and `ByteReader.agrees_take`, by which the pieces make up what a reader of bits takes.
-/

namespace EmbeddedBuffers.Codec

/-! ## Words -/

/-- The bits of a word from `shift` on, `count` of them. -/
def wordPiece (value : UInt64) (shift count : Nat) : UInt8 :=
  ((value >>> UInt64.ofNat shift) &&& ((1 <<< UInt64.ofNat count) - 1)).toUInt8

/-- The bits of a byte from `shift` on, `count` of them. -/
def bytePiece (byte : UInt8) (shift count : Nat) : UInt8 :=
  (byte >>> UInt8.ofNat shift) &&& ((1 <<< UInt16.ofNat count) - 1 : UInt16).toUInt8

/-- A word with another piece at its low end. -/
def wordWith (value : UInt64) (piece : UInt8) (count : Nat) : UInt64 :=
  (value <<< UInt64.ofNat count) ||| piece.toUInt64

theorem toNat_wordPiece (value : UInt64) {shift count : Nat} (hshift : shift < 64)
    (hcount : count ≤ 8) :
    (wordPiece value shift count).toNat = value.toNat / 2 ^ shift % 2 ^ count := by
  have hmask : ∀ count ≤ 8, ((1 <<< UInt64.ofNat count) - 1 : UInt64).toNat = 2 ^ count - 1 := by
    decide
  have hlt : value.toNat / 2 ^ shift % 2 ^ count < 2 ^ 8 :=
    Nat.lt_of_lt_of_le (Nat.mod_lt _ (Nat.two_pow_pos _)) (Nat.pow_le_pow_right (by decide) hcount)
  rw [wordPiece, UInt64.toNat_toUInt8, UInt64.toNat_and, UInt64.toNat_shiftRight,
    hmask count hcount, Nat.and_two_pow_sub_one_eq_mod, UInt64.toNat_ofNat',
    Nat.mod_eq_of_lt (show shift < 2 ^ 64 by omega), Nat.mod_eq_of_lt hshift,
    Nat.shiftRight_eq_div_pow, Nat.mod_eq_of_lt hlt]

theorem toNat_bytePiece (byte : UInt8) {shift count : Nat} (hshift : shift < 8)
    (hcount : count ≤ 8) :
    (bytePiece byte shift count).toNat = byte.toNat / 2 ^ shift % 2 ^ count := by
  have hmask : ∀ count ≤ 8,
      ((1 <<< UInt16.ofNat count) - 1 : UInt16).toUInt8.toNat = 2 ^ count - 1 := by decide
  rw [bytePiece, UInt8.toNat_and, UInt8.toNat_shiftRight, hmask count hcount,
    Nat.and_two_pow_sub_one_eq_mod, UInt8.toNat_ofNat',
    Nat.mod_eq_of_lt (show shift < 2 ^ 8 by omega), Nat.mod_eq_of_lt hshift,
    Nat.shiftRight_eq_div_pow]

theorem toNat_wordWith {value : UInt64} {piece : UInt8} {count : Nat} (hcount : count ≤ 8)
    (hpiece : piece.toNat < 2 ^ count) (hfits : (value.toNat + 1) * 2 ^ count ≤ 2 ^ 64) :
    (wordWith value piece count).toNat = value.toNat * 2 ^ count + piece.toNat := by
  have hlt : value.toNat * 2 ^ count < 2 ^ 64 := by
    have hpos := Nat.two_pow_pos count
    rw [Nat.add_mul, Nat.one_mul] at hfits
    omega
  rw [wordWith, UInt64.toNat_or, UInt64.toNat_shiftLeft, UInt64.toNat_ofNat',
    Nat.mod_eq_of_lt (show count < 2 ^ 64 by omega), Nat.mod_eq_of_lt (show count < 64 by omega),
    Nat.shiftLeft_eq, Nat.mod_eq_of_lt hlt, UInt8.toNat_toUInt64, Nat.mul_comm,
    Nat.two_pow_add_eq_or_of_lt hpiece]

/-! ## Bits of a byte -/

theorem bitsValue_append (a b : List Bool) :
    bitsValue (a ++ b) = bitsValue a * 2 ^ b.length + bitsValue b := by
  rw [← bitsFrom_eq]
  exact List.foldl_append

theorem bitsValue_replicate_false (n : Nat) : bitsValue (List.replicate n false) = 0 := by
  induction n with
  | zero => rfl
  | succ n ih => rw [List.replicate_succ, bitsValue_cons, ih, Bool.toNat_false, Nat.zero_mul]

/-- A piece is put into a byte behind the bits that are in use. -/
theorem byteBits_or {byte piece : UInt8} {head : List Bool} {free count : Nat}
    (hbyte : byteBits byte = head ++ List.replicate free false) (hpos : 0 < count)
    (hcount : count ≤ free) (hpiece : piece.toNat < 2 ^ count) :
    byteBits (byte ||| piece <<< UInt8.ofNat (free - count)) =
      head ++ field count piece.toNat ++ List.replicate (free - count) false := by
  have hlength := congrArg List.length hbyte
  rw [length_byteBits, List.length_append, List.length_replicate] at hlength
  have hvalue : byte.toNat = bitsValue head * 2 ^ free := by
    have hnumber := congrArg bitsValue hbyte
    rwa [byteBits, bitsValue_field_of_lt byte.toNat_lt, bitsValue_append, List.length_replicate,
      bitsValue_replicate_false, Nat.add_zero] at hnumber
  have hpow : 2 ^ free = 2 ^ count * 2 ^ (free - count) := by
    rw [← Nat.pow_add, Nat.add_sub_cancel' hcount]
  have hshifted : piece.toNat * 2 ^ (free - count) < 2 ^ free := by
    rw [hpow]
    exact Nat.mul_lt_mul_of_pos_right hpiece (Nat.two_pow_pos _)
  have hfree : 2 ^ free ≤ 2 ^ 8 := Nat.pow_le_pow_right (by decide) (by omega)
  have hpieceNat : (piece <<< UInt8.ofNat (free - count)).toNat =
      piece.toNat * 2 ^ (free - count) := by
    rw [UInt8.toNat_shiftLeft, UInt8.toNat_ofNat',
      Nat.mod_eq_of_lt (show free - count < 2 ^ 8 by omega),
      Nat.mod_eq_of_lt (show free - count < 8 by omega), Nat.shiftLeft_eq,
      Nat.mod_eq_of_lt (Nat.lt_of_lt_of_le hshifted hfree)]
  generalize hbits : head ++ field count piece.toNat ++ List.replicate (free - count) false = bits
  have hnumber : (byte ||| piece <<< UInt8.ofNat (free - count)).toNat = bitsValue bits := by
    rw [← hbits, UInt8.toNat_or, hvalue, hpieceNat, Nat.mul_comm (bitsValue head),
      ← Nat.two_pow_add_eq_or_of_lt hshifted, bitsValue_append, bitsValue_append, length_field,
      List.length_replicate, bitsValue_replicate_false, bitsValue_field_of_lt hpiece, Nat.add_zero,
      Nat.add_mul, hpow, Nat.mul_comm, Nat.mul_assoc]
  have hfull : bits.length = 8 := by
    rw [← hbits, List.length_append, List.length_append, length_field, List.length_replicate]
    omega
  rw [byteBits, hnumber, ← hfull, field_bitsValue]

/-! ## Writing -/

/-- A stream under construction in memory: its bytes, and how many bits of the last one are in use,
zero if all are. -/
structure ByteWriter where
  bytes : Array UInt8 := #[]
  used : Fin 8 := 0
deriving DecidableEq, Repr

namespace ByteWriter

def empty : ByteWriter := {}

/-- Bits that the last byte has room for, a new one if all of them are in use. -/
def free (w : ByteWriter) : Nat := 8 - w.used

/-- The bytes, the last of which has room. -/
def opened (w : ByteWriter) : Array UInt8 := if w.used = 0 then w.bytes.push 0 else w.bytes

/-- Puts a piece into the last byte, which has room for it. -/
def writePiece (w : ByteWriter) (piece : UInt8) (count : Nat) : ByteWriter where
  bytes :=
    match w.opened.back? with
    | some last => w.opened.pop.push (last ||| piece <<< UInt8.ofNat (w.free - count))
    | none => w.opened
  used := Fin.ofNat 8 (w.used + count)

/-- Writes the low `count` bits of a word, at every turn as many as the last byte has room for. -/
def write (w : ByteWriter) (value : UInt64) (count : Nat) : ByteWriter :=
  if 0 < count then
    let piece := min w.free count
    (w.writePiece (wordPiece value (count - piece) piece) piece).write value (count - piece)
  else w
termination_by count
decreasing_by
  have := w.used.isLt
  unfold free
  omega

/-- Writes whole bytes, at once where none is in use in part. -/
def writeBytes (w : ByteWriter) (data : List UInt8) : ByteWriter :=
  if w.used = 0 then { w with bytes := w.bytes ++ data }
  else data.foldl (fun w b => w.write b.toUInt64 8) w

/-- Number of bits written so far. -/
def bitLength (w : ByteWriter) : Nat :=
  if w.used = 0 then w.bytes.size * 8 else (w.bytes.size - 1) * 8 + w.used

/-- The bytes hold some bits and zeros behind them, and as many bits of the last byte are in use as
there are left over. -/
structure Holds (w : ByteWriter) (bits : List Bool) : Prop where
  used_eq : w.used.val = bits.length % 8
  bits_eq : bytesBits w.bytes.toList = bits ++ List.replicate (w.free % 8) false

variable {w : ByteWriter} {bits : List Bool}

theorem holds_empty : empty.Holds [] := ⟨rfl, rfl⟩

/-- The last byte with room holds the bits that are left over. -/
theorem Holds.exists_opened (h : w.Holds bits) : ∃ (front : Array UInt8) (last : UInt8)
    (head : List Bool), w.opened = front.push last ∧ bits = bytesBits front.toList ++ head ∧
      byteBits last = head ++ List.replicate w.free false := by
  have hbits := h.bits_eq
  by_cases hused : w.used = 0
  · have hfree : w.free = 8 := by rw [free, hused]; rfl
    refine ⟨w.bytes, 0, [], if_pos hused, ?_, by rw [hfree]; rfl⟩
    rw [hfree] at hbits
    rw [hbits, List.append_nil]
    exact (List.append_nil _).symm
  · have hpos : 0 < w.used.val := Nat.pos_of_ne_zero fun hzero => hused (Fin.ext hzero)
    have hfree : w.free % 8 = w.free := Nat.mod_eq_of_lt (by unfold free; omega)
    have hleft := h.used_eq
    have hsize : w.bytes.size ≠ 0 := by
      intro hzero
      have hlength := congrArg List.length hbits
      rw [length_bytesBits, Array.length_toList, hzero, List.length_append] at hlength
      omega
    obtain ⟨front, last, hbytes⟩ := Array.eq_push_of_size_ne_zero hsize
    rw [hbytes, Array.toList_push, bytesBits_append, hfree] at hbits
    have hlength := congrArg List.length hbits
    rw [List.length_append, List.length_append, length_bytesBits, length_bytesBits,
      List.length_replicate] at hlength
    rcases List.append_eq_append_iff.1 hbits with ⟨head, hhead, hlast⟩ | ⟨more, hfront, -⟩
    · refine ⟨front, last, head, (if_neg hused).trans hbytes, hhead, ?_⟩
      rw [← hlast, bytesBits, List.flatMap_singleton]
    · have hshort := congrArg List.length hfront
      rw [length_bytesBits, List.length_append] at hshort
      simp only [List.length_singleton] at hlength
      unfold free at hlength
      omega

/-- A piece is written behind the bits that there are. -/
theorem Holds.writePiece (h : w.Holds bits) {piece : UInt8} {count : Nat} (hpos : 0 < count)
    (hcount : count ≤ w.free) (hpiece : piece.toNat < 2 ^ count) :
    (w.writePiece piece count).Holds (bits ++ field count piece.toNat) := by
  obtain ⟨front, last, head, hopened, hbits, hlast⟩ := h.exists_opened
  have hbytes : (w.writePiece piece count).bytes =
      front.push (last ||| piece <<< UInt8.ofNat (w.free - count)) := by
    unfold ByteWriter.writePiece
    rw [hopened]
    simp only [Array.back?_push, Array.pop_push]
  have hused : (w.writePiece piece count).used.val = (w.used + count) % 8 := rfl
  have hleft := h.used_eq
  constructor
  · rw [hused, List.length_append, length_field]
    omega
  · have hfree : (w.writePiece piece count).free % 8 = w.free - count := by
      unfold free at hcount ⊢
      rw [hused]
      omega
    rw [hbytes, Array.toList_push, bytesBits_append, hfree, hbits]
    show _ ++ (byteBits _ ++ []) = _
    rw [byteBits_or hlast hpos hcount hpiece, List.append_nil]
    simp only [List.append_assoc]

/-- **A number that is written piece by piece is appended as its bits.** -/
theorem Holds.write (h : w.Holds bits) (value : UInt64) {count : Nat} (hcount : count ≤ 64) :
    (w.write value count).Holds (bits ++ field count value.toNat) := by
  -- A turn writes the bits up to the end of a byte, and the rest of the number is its low end.
  induction hn : count using Nat.strongRecOn generalizing w bits count with
  | ind n ih =>
      subst hn
      unfold ByteWriter.write
      split
      · next hpos =>
        have hfree : 0 < w.free ∧ w.free ≤ 8 := by
          have := w.used.isLt
          unfold free
          omega
        dsimp only
        generalize hpiece : min w.free count = piece
        have hvalue := toNat_wordPiece value (show count - piece < 64 by omega)
          (show piece ≤ 8 by omega)
        have hlt : (wordPiece value (count - piece) piece).toNat < 2 ^ piece := by
          rw [hvalue]
          exact Nat.mod_lt _ (Nat.two_pow_pos _)
        have hwritten := h.writePiece (by omega) (by omega) hlt
        have hsplit : field count value.toNat =
            field piece (wordPiece value (count - piece) piece).toNat ++
              field (count - piece) value.toNat := by
          have hlow := Guarded.drop_field count piece value.toNat
          have hhigh := Guarded.take_field (show piece ≤ count by omega) value.toNat
          rw [hvalue, field_mod (Nat.le_refl _), ← hhigh, ← hlow, List.take_append_drop]
        rw [hsplit, ← List.append_assoc]
        exact ih (count - piece) (by omega) hwritten (by omega) rfl
      · next hzero =>
        rw [Nat.eq_zero_of_not_pos hzero]
        exact (List.append_nil bits).symm ▸ h

theorem Holds.foldl_write (h : w.Holds bits) (data : List UInt8) :
    (data.foldl (fun w b => w.write b.toUInt64 8) w).Holds (bits ++ bytesBits data) := by
  induction data generalizing w bits with
  | nil => exact (List.append_nil bits).symm ▸ h
  | cons b data ih =>
      have hwritten := h.write b.toUInt64 (show 8 ≤ 64 by decide)
      rw [UInt8.toNat_toUInt64] at hwritten
      have hrest := ih hwritten
      rwa [List.append_assoc] at hrest

theorem Holds.writeBytes (h : w.Holds bits) (data : List UInt8) :
    (w.writeBytes data).Holds (bits ++ bytesBits data) := by
  unfold ByteWriter.writeBytes
  split
  · next hused =>
    have hbits := h.bits_eq
    have hleft := h.used_eq
    have hfree : w.free % 8 = 0 := by rw [free, hused]; rfl
    rw [hfree, List.replicate_zero, List.append_nil] at hbits
    constructor
    · rw [List.length_append, length_bytesBits]
      show w.used.val = _
      omega
    · show bytesBits (w.bytes ++ data).toList = _ ++ List.replicate (w.free % 8) false
      rw [hfree, List.replicate_zero, List.append_nil, Array.toList_appendList, bytesBits_append,
        hbits]
  · exact h.foldl_write data

/-- The bits are counted from the bytes and the place in the last one. -/
theorem Holds.bitLength_eq (h : w.Holds bits) : w.bitLength = bits.length := by
  have hlength := congrArg List.length h.bits_eq
  have hleft := h.used_eq
  rw [length_bytesBits, Array.length_toList, List.length_append, List.length_replicate] at hlength
  unfold bitLength
  unfold free at hlength
  split
  · next hused =>
    rw [hused] at hlength
    simp only [Fin.val_zero, Nat.sub_zero] at hlength
    omega
  · next hused =>
    have hpos : 0 < w.used.val := Nat.pos_of_ne_zero fun hzero => hused (Fin.ext hzero)
    omega

/-- Puts an item into the stream. -/
def put (w : ByteWriter) : Item → ByteWriter
  | .number value count => w.write (UInt64.ofNat value) count
  | .bit b => w.write (UInt64.ofNat b.toNat) 1
  | .bytes data => w.writeBytes data

/-- **What is put into the bytes, they hold**, behind what they held before. -/
theorem Holds.put (h : w.Holds bits) {i : Item} (hi : i.Narrow) :
    (w.put i).Holds (bits ++ i.bits) := by
  cases i with
  | number value count =>
      have hwritten := h.write (UInt64.ofNat value) hi
      rwa [UInt64.toNat_ofNat', field_mod hi] at hwritten
  | bit b =>
      have hwritten := h.write (UInt64.ofNat b.toNat) (show 1 ≤ 64 by decide)
      cases b <;> exact hwritten
  | bytes data => exact h.writeBytes data

end ByteWriter

/-! ## Reading -/

/-- A stream that is read in memory: its bytes, and the number of bits behind. -/
structure ByteReader where
  data : Array UInt8
  place : Nat
deriving DecidableEq, Repr

namespace ByteReader

/-- Number of bits ahead. -/
def remaining (r : ByteReader) : Nat := r.data.size * 8 - r.place

/-- Takes `count` more bits into a word, at every turn as many as there are left of a byte. -/
def readOnto (r : ByteReader) (value : UInt64) (count : Nat) : UInt64 × ByteReader :=
  if 0 < count then
    let byte := r.data.getD (r.place / 8) 0
    let available := 8 - r.place % 8
    let piece := min available count
    readOnto { r with place := r.place + piece }
      (wordWith value (bytePiece byte (available - piece) piece) piece) (count - piece)
  else (value, r)
termination_by count
decreasing_by omega

/-- Takes `count` bits as a number, if there are as many. -/
def read (r : ByteReader) (count : Nat) : Except Fault UInt64 × ByteReader :=
  if r.remaining < count then (.error (.missingBits count r.place r.remaining), r)
  else
    let (value, r) := r.readOnto 0 count
    (.ok value, r)

/-- Takes `count` bytes one after the other. -/
def readEach (r : ByteReader) : (count : Nat) → Except Fault (List UInt8) × ByteReader
  | 0 => (.ok [], r)
  | count + 1 =>
    match r.read 8 with
    | (.error f, r) => (.error f, r)
    | (.ok n, r) =>
      let (rest, r) := r.readEach count
      (rest.map (n.toUInt8 :: ·), r)

/-- Takes `count` whole bytes, at once where the reader stands between two bytes. -/
def readBytes (r : ByteReader) (count : Nat) : Except Fault (List UInt8) × ByteReader :=
  if r.place % 8 = 0 then
    let start := r.place / 8
    let stop := start + count
    if stop ≤ r.data.size then
      (.ok (r.data.extract start stop).toList, { r with place := stop * 8 })
    else (.error (.missingBytes count), r)
  else r.readEach count

/-- Meets a demand. -/
def take (r : ByteReader) : Demand → Except Fault Item × ByteReader
  | .number count =>
    let (n, r) := r.read count
    (n.map fun n => .number n.toNat count, r)
  | .bit =>
    let (n, r) := r.read 1
    (n.map fun n => .bit (n == 1), r)
  | .bytes count =>
    let (data, r) := r.readBytes count
    (data.map .bytes, r)

/-- The bits that are ahead. -/
def view (r : ByteReader) : BitReader := Guarded.readerAt r.data r.place

/-- The place is among the bits, or behind the last. -/
def Inside (r : ByteReader) : Prop := r.place ≤ 8 * r.data.size

variable {r : ByteReader} {count : Nat}

theorem remaining_view (r : ByteReader) : r.view.remaining = r.remaining := by
  rw [view, Guarded.remaining_readerAt, remaining, Nat.mul_comm]

theorem view_advance (r : ByteReader) (count : Nat) :
    r.view.advance count = view { r with place := r.place + count } := by
  unfold view Guarded.readerAt BitReader.advance
  rw [List.drop_drop]

/-- The word that is read is the number that the bits denote behind those in it already. -/
theorem readOnto_eq {value : UInt64} (hinside : r.place + count ≤ 8 * r.data.size)
    (hfits : (value.toNat + 1) * 2 ^ count ≤ 2 ^ 64) :
    (r.readOnto value count).1.toNat = bitsFrom value.toNat (r.view.ahead.take count) ∧
      (r.readOnto value count).2 = { r with place := r.place + count } := by
  induction hn : count using Nat.strongRecOn generalizing r value count with
  | ind n ih =>
      subst hn
      unfold readOnto
      split
      · next hpos =>
        have hbyte : r.place / 8 < r.data.size := by omega
        have hmod := Nat.mod_lt r.place (show 0 < 8 by decide)
        rw [Array.getD_eq_getD_getElem?, Array.getElem?_eq_getElem hbyte, Option.getD_some]
        dsimp only
        generalize htake : min (8 - r.place % 8) count = take
        have hpiece := toNat_bytePiece r.data[r.place / 8]
          (show 8 - r.place % 8 - take < 8 by omega) (show take ≤ 8 by omega)
        generalize hcut : bytePiece r.data[r.place / 8] (8 - r.place % 8 - take) take = piece
        rw [hcut] at hpiece
        have hlt : piece.toNat < 2 ^ take := hpiece ▸ Nat.mod_lt _ (Nat.two_pow_pos take)
        have hroom := Guarded.fits_piece hlt (show take ≤ count by omega) hfits
        have hword := toNat_wordWith (show take ≤ 8 by omega) hlt
          (Nat.le_trans (Nat.mul_le_mul_left _ (Nat.pow_le_pow_right (by decide) (by omega))) hfits)
        have hrest : ((wordWith value piece take).toNat + 1) * 2 ^ (count - take) ≤ 2 ^ 64 := by
          rwa [hword]
        obtain ⟨hnumber, hreader⟩ := ih (count - take) (by omega)
          (r := { r with place := r.place + take })
          (show r.place + take + (count - take) ≤ 8 * r.data.size by omega) hrest rfl
        have hbits := Guarded.take_drop_bytesBits
          (show r.place / 8 < r.data.toList.length by simpa using hbyte)
          (show take ≤ 8 - r.place % 8 by omega) (show take ≤ count by omega)
        rw [Array.getElem_toList] at hbits
        rw [hreader, hnumber, hword, hpiece]
        constructor
        · show bitsFrom _ (((bytesBits r.data.toList).drop (r.place + take)).take (count - take)) =
            bitsFrom _ (((bytesBits r.data.toList).drop r.place).take count)
          rw [hbits, bitsFrom, bitsFrom, List.foldl_append]
          show _ = bitsFrom (bitsFrom value.toNat (field take _)) _
          rw [bitsFrom_eq value.toNat, length_field, bitsValue_field]
          rfl
        · show ByteReader.mk _ (r.place + take + (count - take)) = _
          rw [Nat.add_assoc, Nat.add_sub_cancel' (show take ≤ count by omega)]
      · next hzero =>
        rw [Nat.eq_zero_of_not_pos hzero]
        exact ⟨rfl, rfl⟩

/-- An answer in memory and one of a reader of bits: the same value or fault, and the same bits
ahead behind it. -/
structure Agrees {α : Type} (x : Except Fault α × ByteReader) (y : Except Fault α × BitReader) :
    Prop where
  value_eq : x.1 = y.1
  view_eq : x.2.view = y.2
  inside : x.2.Inside

theorem inside_of_le (h : count ≤ r.remaining) (hinside : r.Inside) :
    r.place + count ≤ 8 * r.data.size := by
  unfold remaining at h
  unfold Inside at hinside
  omega

/-- A number that there are enough bits for is read as the one that they denote. -/
theorem read_of_le (hinside : r.Inside) (hcount : count ≤ 64) (h : count ≤ r.remaining) :
    ∃ n, r.read count = (.ok n, { r with place := r.place + count }) ∧
      r.view.read count = .ok (n.toNat, view { r with place := r.place + count }) := by
  have hfits : ((0 : UInt64).toNat + 1) * 2 ^ count ≤ 2 ^ 64 := by
    rw [UInt64.toNat_zero, Nat.zero_add, Nat.one_mul]
    exact Nat.pow_le_pow_right (by decide) hcount
  obtain ⟨hnumber, hreader⟩ := readOnto_eq (inside_of_le h hinside) hfits
  have hvalue : bitsValue (r.view.ahead.take count) = (r.readOnto 0 count).1.toNat := hnumber.symm
  refine ⟨(r.readOnto 0 count).1, ?_, ?_⟩
  · rw [read, if_neg (Nat.not_lt.2 h), ← hreader]
  · rw [BitReader.read_of_le (by rwa [remaining_view]), hvalue, view_advance,
      Nat.mod_eq_of_lt (UInt64.toNat_lt _)]

theorem read_of_lt (h : r.remaining < count) :
    r.read count = (.error (.missingBits count r.place r.remaining), r) ∧
      r.view.read count = .error (.missingBits count r.place r.remaining) := by
  refine ⟨if_pos h, ?_⟩
  rw [← remaining_view] at h ⊢
  exact BitReader.read_of_lt h

theorem agrees_read {α : Type} (hinside : r.Inside) (hcount : count ≤ 64) (f : Nat → α) :
    Agrees ((r.read count).1.map fun n => f n.toNat, (r.read count).2)
      (r.view.orStay f (r.view.read count)) := by
  by_cases h : count ≤ r.remaining
  · obtain ⟨n, hread, hview⟩ := read_of_le hinside hcount h
    rw [hread, hview]
    exact ⟨rfl, rfl, inside_of_le h hinside⟩
  · obtain ⟨hread, hview⟩ := read_of_lt (Nat.lt_of_not_le h)
    rw [hread, hview]
    exact ⟨rfl, rfl, hinside⟩

theorem agrees_readEach (hinside : r.Inside) (count : Nat) :
    Agrees (r.readEach count) (r.view.readEach count) := by
  induction count generalizing r with
  | zero => exact ⟨rfl, rfl, hinside⟩
  | succ count ih =>
      unfold readEach BitReader.readEach
      by_cases h : 8 ≤ r.remaining
      · obtain ⟨n, hread, hview⟩ := read_of_le hinside (by decide) h
        have hrest := ih (r := { r with place := r.place + 8 }) (inside_of_le h hinside)
        rw [hread, hview]
        refine ⟨?_, hrest.view_eq, hrest.inside⟩
        have hbyte : n.toUInt8 = UInt8.ofNat n.toNat := by
          rw [← UInt64.toUInt8_ofNat', UInt64.ofNat_toNat]
        show Except.map _ _ = Except.map _ _
        rw [hrest.value_eq, hbyte]
      · obtain ⟨hread, hview⟩ := read_of_lt (Nat.lt_of_not_le h)
        rw [hread, hview]
        exact ⟨rfl, rfl, hinside⟩

theorem agrees_readBytes (hinside : r.Inside) (count : Nat) :
    Agrees (r.readBytes count) (r.view.readBytes count) := by
  by_cases haligned : r.place % 8 = 0
  · have hbits : r.view.ahead = bytesBits (r.data.toList.drop (r.place / 8)) :=
      Guarded.drop_bytesBits_of_aligned haligned (by rwa [Array.length_toList])
    have hremaining : r.view.remaining = 8 * r.data.size - r.place := by
      rw [remaining_view, remaining, Nat.mul_comm]
    unfold Inside at hinside
    rw [readBytes, if_pos haligned]
    dsimp only
    split
    · next hlong =>
      rw [BitReader.readBytes_of_le (by omega), hbits, BitReader.toBytes_take_bytesBits,
        view_advance]
      have hplace : (r.place / 8 + count) * 8 = r.place + 8 * count := by omega
      rw [hplace, Array.toList_extract, List.extract_eq_take_drop, Nat.add_sub_cancel_left]
      exact ⟨rfl, rfl, by show r.place + 8 * count ≤ 8 * r.data.size; omega⟩
    · next hshort =>
      rw [BitReader.readBytes, if_pos (show r.view.position % 8 = 0 from haligned),
        BitReader.splitAt?_eq_none (by rw [← BitReader.remaining]; omega)]
      exact ⟨rfl, rfl, hinside⟩
  · rw [readBytes, if_neg haligned, BitReader.readBytes,
      if_neg (show ¬ r.view.position % 8 = 0 from haligned)]
    exact agrees_readEach hinside count

/-- **A demand is met in memory as it is on the bits.** A number of at most a word, a bit and bytes
are taken alike, with the same faults, and the same bits are ahead behind them. -/
theorem agrees_take (hinside : r.Inside) {d : Demand} (hd : d.Narrow) :
    Agrees (r.take d) (r.view.take d) := by
  cases d with
  | number count => exact agrees_read hinside hd (Item.number · count)
  | bit =>
      have hbit : r.view.take .bit = r.view.orStay (fun n => .bit (n == 1)) (r.view.read 1) := by
        rw [BitReader.take, BitReader.readBit]
        cases r.view.read 1 <;> rfl
      have hword : ∀ n : UInt64, (n == 1) = (n.toNat == 1) := fun n => by
        rw [Bool.eq_iff_iff, beq_iff_eq, beq_iff_eq, ← UInt64.toNat_inj]
        rfl
      rw [hbit, take]
      dsimp only
      simp only [hword]
      exact agrees_read hinside (by decide) fun n => Item.bit (n == 1)
  | bytes count =>
      have hbytes := agrees_readBytes hinside count
      exact ⟨congrArg (Except.map Item.bytes) hbytes.value_eq, hbytes.view_eq, hbytes.inside⟩

end ByteReader

end EmbeddedBuffers.Codec
