import EmbeddedBuffers.Codec.Container
import EmbeddedBuffers.Proofs.Codec.BitStream
import EmbeddedBuffers.Proofs.Results

/-!
# Containers by their first byte

The first byte of a container is its version and the number of its scheme, and what stands behind it
is decoded as that number says. Main statements: `decodeContainer_of_bits` and
`exists_of_decodeContainer`.
-/

namespace EmbeddedBuffers.Codec

/-- Decodes what stands behind the first byte of a container of the scheme with the number `id`. -/
def decodeBehind (id : Nat) (r : BitReader) : Except Fault (Scheme × List UInt8) :=
  match id with
  | 0 => r.read 32 >>= fun (size, r) => (r.readBytes size).1.map fun data => (.stored, data)
  | 1 => (Lzss.decodeFrom r).map fun (p, data, _) => (.lzss p, data)
  | 2 => (Rle.decodeFrom r).map fun (p, data, _) => (.rle p, data)
  | id => .error (.unknownScheme id)

variable {bytes data : List UInt8} {s : Scheme} {id : Nat} {ahead : List Bool}

theorem decodeContainer_of_bits (hid : id < 16)
    (hbits : bytesBits bytes = field 8 (16 + id) ++ ahead) :
    decodeContainer bytes = decodeBehind id ⟨8, ahead⟩ := by
  have hversion : ¬(16 + id) / 16 ≠ formatVersion := by
    unfold formatVersion
    omega
  unfold decodeContainer BitReader.ofBytes
  rw [hbits, BitReader.read_field (by omega) (by decide)]
  dsimp only
  rw [if_neg hversion, show (16 + id) % 16 = id by omega]
  obtain _ | _ | _ | id := id
  · refine bind_congr fun ⟨size, r⟩ => ?_
    show ((r.readBytes size).1 >>= _) = (r.readBytes size).1.map _
    cases (r.readBytes size).1 <;> rfl
  · show (Lzss.decodeFrom _ >>= _) = (Lzss.decodeFrom _).map _
    cases Lzss.decodeFrom _ <;> rfl
  · show (Rle.decodeFrom _ >>= _) = (Rle.decodeFrom _).map _
    cases Rle.decodeFrom _ <;> rfl
  · rfl

/-- What is decoded starts with the version and the number of a scheme. -/
theorem exists_of_decodeContainer (h : decodeContainer bytes = .ok (s, data)) :
    ∃ id ahead, id < 16 ∧ bytesBits bytes = field 8 (16 + id) ++ ahead ∧
      decodeBehind id ⟨8, ahead⟩ = .ok (s, data) := by
  have hdecoded := h
  unfold decodeContainer at h
  split at h
  · cases h
  · next tag r htag =>
    obtain ⟨hbits, -, -⟩ := BitReader.eq_field_of_read (by decide) htag
    split at h
    · cases h
    · next hversion =>
      have hid : tag % 16 < 16 := Nat.mod_lt _ (by decide)
      have hsplit : 16 + tag % 16 = tag := by
        unfold formatVersion at hversion
        omega
      have hbits : bytesBits bytes = field 8 (16 + tag % 16) ++ r.ahead := by
        rw [hsplit]
        exact hbits
      exact ⟨tag % 16, r.ahead, hid, hbits, (decodeContainer_of_bits hid hbits).symm.trans hdecoded⟩

end EmbeddedBuffers.Codec
