import EmbeddedBuffers.Codec.Container
import EmbeddedBuffers.Proofs.Codec.LzssRoundTrip
import EmbeddedBuffers.Proofs.Codec.RleStream

/-!
# Sizes of containers

A size is found by counting, without writing anything, and it is the size of what is written: the
count of bits under each scheme is that of its stream, and a container is a byte and that stream
filled up to whole bytes. Main statements: `Scheme.bits_encodeInto` and `length_container`.
-/

namespace EmbeddedBuffers.Codec

namespace BitWriter

/-- Whole bytes are appended as their bits, wherever the stream stands. -/
theorem bits_writeBytes {w : BitWriter} (h : w.WellFormed) (data : List UInt8) :
    (w.writeBytes data).WellFormed ∧ (w.writeBytes data).bits = w.bits ++ bytesBits data := by
  unfold writeBytes
  split
  · next hp =>
    refine ⟨h, ?_⟩
    simp only [List.isEmpty_iff] at hp
    simp [bits, hp, bytesBits_append]
  · exact foldl_append byteBits data h

theorem length_finish {w : BitWriter} (h : w.WellFormed) :
    w.finish.length = (w.bits.length + 7) / 8 := by
  have hfinish := congrArg List.length (bytesBits_finish h)
  rw [length_bytesBits, List.length_append, List.length_replicate] at hfinish
  have hpad := w.padding_lt
  omega

end BitWriter

/-- Costs that are summed up are the bits of all that they are the cost of. -/
theorem foldl_cost_eq {α : Type} {cost : α → Nat} {bits : α → List Bool}
    (h : ∀ x, (bits x).length = cost x) (xs : List α) (start : Nat) :
    xs.foldl (fun n x => n + cost x) start = start + (xs.flatMap bits).length := by
  induction xs generalizing start with
  | nil => rfl
  | cons x xs ih =>
      rw [List.foldl_cons, ih, List.flatMap_cons, List.length_append, h]
      omega

theorem Lzss.estimateBits_eq (p : Lzss) (data : List UInt8) :
    p.estimateBits data = (p.stream data).length := by
  rw [estimateBits, foldl_cost_eq (Token.length_bits p), stream, List.length_append]
  simp [header, headerBits]

theorem Rle.estimateBits_eq (p : Rle) (data : List UInt8) :
    p.estimateBits data = (p.stream data).length := by
  unfold estimateBits
  dsimp only
  rw [foldl_cost_eq (Token.length_bits p (p.sentinelOf data)), stream, List.length_append]
  simp only [header, headerBits, tokensOf, sentinelOf, List.length_append, length_field]

/-- **The bits of a stream are as many as are counted without writing it.** -/
theorem Scheme.bits_encodeInto (s : Scheme) {w : BitWriter} (h : w.WellFormed)
    (data : List UInt8) : (s.encodeInto w data).WellFormed ∧
      (s.encodeInto w data).bits.length = w.bits.length + s.estimateBits data := by
  cases s with
  | stored =>
      obtain ⟨hw, hb⟩ :=
        BitWriter.bits_writeBytes (BitWriter.wellFormed_write h data.length 32) data
      refine ⟨hw, ?_⟩
      rw [encodeInto, hb, BitWriter.bits_write h, estimateBits]
      simp only [List.length_append, length_field, length_bytesBits]
      omega
  | lzss p =>
      obtain ⟨hw, hb⟩ := p.bits_encodeInto h data
      refine ⟨hw, ?_⟩
      rw [encodeInto, hb, List.length_append, estimateBits, Lzss.estimateBits_eq]
  | rle p =>
      obtain ⟨hw, hb⟩ := p.bits_encodeInto h data
      refine ⟨hw, ?_⟩
      rw [encodeInto, hb, List.length_append, estimateBits, Rle.estimateBits_eq]

/-- **A container is as long as was estimated.** -/
theorem length_container {s : Scheme} {data bytes : List UInt8}
    (h : container s data = .ok bytes) : bytes.length = s.estimateSize data := by
  unfold container at h
  split at h
  · cases h
  · cases h
    obtain ⟨hw, hb⟩ := s.bits_encodeInto
      (BitWriter.wellFormed_write BitWriter.wellFormed_empty (formatVersion * 16 + s.id) 8) data
    rw [BitWriter.length_finish hw, hb, BitWriter.bits_write BitWriter.wellFormed_empty,
      Scheme.estimateSize]
    have hempty : BitWriter.empty.bits = [] := rfl
    simp only [hempty, List.length_append, List.length_nil, length_field]
    omega

theorem exists_container (s : Scheme) {data : List UInt8} (h : data.length < 2 ^ 32) :
    ∃ bytes, container s data = .ok bytes :=
  ⟨_, if_neg (Nat.not_le.2 h)⟩

end EmbeddedBuffers.Codec
