import EmbeddedBuffers.Proofs.Codec.RleRoundTrip
import EmbeddedBuffers.Proofs.Codec.Sizes

/-!
# Containers read back

A container of stored bytes and one of LZSS are decoded to their data, whatever these are, and one
of run lengths unless the values are exhausted. Main statement: `decodeContainer_container`.
-/

namespace EmbeddedBuffers.Codec

namespace BitReader

theorem toBytes_byteBits (b : UInt8) (rest : List Bool) :
    toBytes (byteBits b ++ rest) = b :: toBytes rest := by
  have hb : byteBits b = [b.toNat.testBit 7, b.toNat.testBit 6, b.toNat.testBit 5,
      b.toNat.testBit 4, b.toNat.testBit 3, b.toNat.testBit 2, b.toNat.testBit 1,
      b.toNat.testBit 0] := rfl
  have hvalue : bitsValue (byteBits b) = b.toNat := bitsValue_field_of_lt b.toNat_lt
  rw [hb] at hvalue
  rw [hb]
  show UInt8.ofNat (bitsValue _) :: toBytes rest = _
  rw [hvalue, UInt8.ofNat_toNat]

theorem toBytes_bytesBits (data : List UInt8) : toBytes (bytesBits data) = data := by
  induction data with
  | nil => rfl
  | cons b data ih =>
      rw [bytesBits, List.flatMap_cons, toBytes_byteBits]
      exact congrArg (b :: ·) ih

theorem toBytes_take_bytesBits (data : List UInt8) (count : Nat) :
    toBytes ((bytesBits data).take (8 * count)) = data.take count := by
  rcases Nat.le_total count data.length with h | h
  · have hfront : (bytesBits (data.take count)).length = 8 * count := by
      rw [length_bytesBits, List.length_take_of_le h]
    conv_lhs => rw [← List.take_append_drop count data, bytesBits_append]
    rw [List.take_left' hfront, toBytes_bytesBits]
  · rw [List.take_of_length_le (by rw [length_bytesBits]; omega), List.take_of_length_le h,
      toBytes_bytesBits]

theorem readBytes_bytesBits {position : Nat} (h : position % 8 = 0) (data : List UInt8)
    (rest : List Bool) : (readBytes ⟨position, bytesBits data ++ rest⟩ data.length).1 = .ok data := by
  have hs := splitAt?_append (bytesBits data) rest
  rw [length_bytesBits] at hs
  rw [readBytes, if_pos h]
  dsimp only
  rw [hs]
  exact congrArg Except.ok (toBytes_bytesBits data)

end BitReader

/-- What a scheme needs to give back its data. -/
def Scheme.Faithful (data : List UInt8) : Scheme → Prop
  | .stored => True
  | .lzss p => p.Admissible
  | .rle p => p.Admissible ∧ ¬ p.Exhausts data

/-- **A container is decoded to its scheme and its data.** -/
theorem decodeContainer_container {s : Scheme} {data bytes : List UInt8} (hs : s.Faithful data)
    (h : container s data = .ok bytes) : decodeContainer bytes = .ok (s, data) := by
  unfold container at h
  split at h
  · cases h
  · next hsize =>
    have hsize : data.length < 2 ^ 32 := Nat.not_le.1 hsize
    have htag : ∀ tag, (BitWriter.empty.write tag 8).WellFormed :=
      fun tag => BitWriter.wellFormed_write BitWriter.wellFormed_empty tag 8
    have hempty : BitWriter.empty.bits = [] := rfl
    cases h
    cases s with
    | stored =>
        have hsizes := BitWriter.wellFormed_write (htag 16) data.length 32
        obtain ⟨hw, hbits⟩ := BitWriter.bits_writeBytes hsizes data
        rw [BitWriter.bits_write (htag 16), BitWriter.bits_write BitWriter.wellFormed_empty] at hbits
        have hfinish := BitWriter.bytesBits_finish hw
        rw [hbits, hempty, List.nil_append, List.append_assoc, List.append_assoc] at hfinish
        refine (decodeContainer_of_bits (by decide : 0 < 16) hfinish).trans ?_
        rw [decodeBehind, BitReader.read_field hsize (by decide)]
        show (BitReader.readBytes _ data.length).1.map _ = _
        rw [BitReader.readBytes_bytesBits (by rfl)]
        rfl
    | lzss p =>
        obtain ⟨hw, hbits⟩ := p.bits_encodeInto (htag 17) data
        rw [BitWriter.bits_write BitWriter.wellFormed_empty] at hbits
        have hfinish := BitWriter.bytesBits_finish hw
        rw [hbits, hempty, List.nil_append, List.append_assoc] at hfinish
        refine (decodeContainer_of_bits (by decide : 1 < 16) hfinish).trans ?_
        rw [decodeBehind, Lzss.decodeFrom_stream hs hsize]
        rfl
    | rle p =>
        obtain ⟨rest, hrest, hdecode⟩ := decodeContainer_rle p data
        obtain ⟨r, hr⟩ := (Rle.decodeFrom_stream_iff hs.1 hsize 8 hrest).2 hs.2
        rw [hdecode, hr]
        rfl

/-- A scheme that gives back its data passes the check of the encoder. -/
theorem encodeWith_eq_ok {s : Scheme} {data bytes : List UInt8} (hs : s.Faithful data)
    (h : container s data = .ok bytes) (name : String) (stride : Nat) :
    encodeWith name data stride s = .ok ⟨s, bytes, data.length, stride⟩ := by
  have hfits : s.fitsWord = true := by
    cases s with
    | stored => rfl
    | lzss p =>
        have hw := hs.window
        have hl := hs.length
        have hm := hs.shortest
        simp only [Scheme.fitsWord, Lzss.fitsWord, Bool.and_eq_true, decide_eq_true_eq]
        omega
    | rle p =>
        show (decide (0 < p.width) && decide (p.width ≤ 8)) = true
        rcases hs.1 with h | h | h | h <;> rw [h] <;> rfl
  rw [encodeWith, hfits, h]
  dsimp only
  rw [if_neg (by decide), defect?_eq_none_iff.2 (decodeContainer_container hs h)]

/-- A buffer that was encoded under given parameters has their container, and that reads back. -/
theorem container_of_encodeWith {name : String} {data : List UInt8} {stride : Nat} {s : Scheme}
    {e : Encoded} (h : encodeWith name data stride s = .ok e) :
    e.scheme = s ∧ container s data = .ok e.bytes ∧ decodeContainer e.bytes = .ok (s, data) := by
  unfold encodeWith at h
  split at h
  · cases h
  · split at h
    · cases h
    · next bytes hbytes =>
      split at h
      · cases h
      · next hdefect =>
        cases h
        exact ⟨rfl, hbytes, defect?_eq_none_iff.1 hdefect⟩

/-- A buffer that was encoded has the container of its scheme, and that reads back. -/
theorem container_of_encode {name : String} {data : List UInt8} {stride threads : Nat} {r : Request}
    {e : Encoded} (h : encode name data stride threads r = .ok e) :
    r.scheme name data stride threads = .ok e.scheme ∧ container e.scheme data = .ok e.bytes ∧
      decodeContainer e.bytes = .ok (e.scheme, data) := by
  unfold encode at h
  split at h
  · cases h
  · next s hs =>
    obtain ⟨rfl, hbytes, hback⟩ := container_of_encodeWith h
    exact ⟨hs, hbytes, hback⟩

end EmbeddedBuffers.Codec
