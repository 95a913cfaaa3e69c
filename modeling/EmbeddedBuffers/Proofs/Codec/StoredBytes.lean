import EmbeddedBuffers.Proofs.Codec.Containers

/-!
# Containers of stored bytes

A container that decodes to stored bytes starts with these bytes behind five others. Main statement:
`prefix_of_decode_stored`.
-/

namespace EmbeddedBuffers.Codec

namespace BitReader

theorem read_byte (b : UInt8) (bytes : List UInt8) :
    (ofBytes (b :: bytes)).read 8 = .ok (b.toNat, ⟨8, bytesBits bytes⟩) :=
  read_field b.toNat_lt (by decide) 0 (bytesBits bytes)

theorem toBytes_bytesBits_append (data : List UInt8) (rest : List Bool) :
    toBytes (bytesBits data ++ rest) = data ++ toBytes rest := by
  induction data with
  | nil => rfl
  | cons b data ih =>
      rw [bytesBits, List.flatMap_cons, List.append_assoc, toBytes_byteBits]
      exact congrArg (b :: ·) ih

/-- Whole bytes hold their bits. -/
theorem bytesBits_toBytes {count : Nat} {bits : List Bool} (h : bits.length = 8 * count) :
    bytesBits (toBytes bits) = bits ∧ (toBytes bits).length = count := by
  induction count generalizing bits with
  | zero =>
      rw [List.eq_nil_of_length_eq_zero h]
      exact ⟨rfl, rfl⟩
  | succ count ih =>
      have hbyte : (bits.take 8).length = 8 := by
        rw [List.length_take]
        omega
      obtain ⟨hbits, hcount⟩ := @ih (bits.drop 8) (by rw [List.length_drop]; omega)
      have hsplit : bits = byteBits (UInt8.ofNat (bitsValue (bits.take 8))) ++ bits.drop 8 := by
        rw [byteBits_ofNat_bitsValue hbyte, List.take_append_drop]
      have hcons : toBytes bits =
          UInt8.ofNat (bitsValue (bits.take 8)) :: toBytes (bits.drop 8) := by
        conv_lhs => rw [hsplit]
        exact toBytes_byteBits _ _
      rw [hcons, bytesBits, List.flatMap_cons, ← bytesBits, hbits, List.length_cons, hcount]
      exact ⟨hsplit.symm, rfl⟩

end BitReader

/-- Whole bytes that are read where a byte starts stand at the front. -/
theorem BitReader.eq_bytesBits_of_readBytes {r : BitReader} {size : Nat} {data : List UInt8}
    (hstart : r.position % 8 = 0) (h : (r.readBytes size).1 = .ok data) :
    data.length = size ∧ ∃ rest, r.ahead = bytesBits data ++ rest := by
  unfold readBytes at h
  rw [if_pos hstart] at h
  split at h
  · next bits ahead hs =>
    cases h
    obtain ⟨hahead, hlength⟩ := splitAt?_eq hs
    obtain ⟨hbits, hcount⟩ := bytesBits_toBytes hlength
    exact ⟨hcount, ahead, by rw [hbits, hahead]⟩
  · cases h

/-- The bits of a container that decodes to stored bytes. -/
theorem bits_of_decode_stored {bytes data : List UInt8}
    (h : decodeContainer bytes = .ok (.stored, data)) : data.length < 2 ^ 32 ∧
    ∃ rest, bytesBits bytes = (field 8 16 ++ field 32 data.length ++ bytesBits data) ++ rest := by
  obtain ⟨id, ahead, -, hbits, h⟩ := exists_of_decodeContainer h
  obtain _ | _ | _ | id := id
  · obtain ⟨⟨size, r⟩, hread, h⟩ := exists_of_bind_eq_ok h
    obtain ⟨held, hheld, heq⟩ := map_eq_ok.1 h
    cases heq
    obtain ⟨hsized, hsize, hposition⟩ := BitReader.eq_field_of_read (by decide) hread
    have hplace : r.position = 8 + 32 := hposition
    have haligned : r.position % 8 = 0 := by omega
    obtain ⟨rfl, rest, hrest⟩ := BitReader.eq_bytesBits_of_readBytes haligned hheld
    have hahead : ahead = _ := hsized
    refine ⟨hsize, rest, ?_⟩
    rw [hbits, hahead, hrest]
    simp only [List.append_assoc]
  · obtain ⟨_, -, heq⟩ := map_eq_ok.1 h
    cases heq
  · obtain ⟨_, -, heq⟩ := map_eq_ok.1 h
    cases heq
  · cases h

/-- What decodes like a container of stored bytes starts with that container. -/
theorem prefix_of_decode_stored {bytes bytes' data : List UInt8}
    (hbytes : container .stored data = .ok bytes)
    (h : decodeContainer bytes = .ok (.stored, data))
    (h' : decodeContainer bytes' = .ok (.stored, data)) : ∃ more, bytes' = bytes ++ more := by
  obtain ⟨-, rest, hrest⟩ := bits_of_decode_stored h
  obtain ⟨-, rest', hrest'⟩ := bits_of_decode_stored h'
  have hlength := length_container hbytes
  have hsize : Scheme.stored.estimateSize data = 5 + data.length := by
    show 1 + (32 + data.length * 8 + 7) / 8 = _
    omega
  have hnil : rest = [] := by
    have hcount := congrArg List.length hrest
    simp only [List.length_append, length_field, length_bytesBits] at hcount
    exact List.eq_nil_of_length_eq_zero (by omega)
  rw [hnil, List.append_nil] at hrest
  refine ⟨BitReader.toBytes rest', ?_⟩
  rw [← BitReader.toBytes_bytesBits_append, hrest, ← hrest', BitReader.toBytes_bytesBits]

end EmbeddedBuffers.Codec
