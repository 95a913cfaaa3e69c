import EmbeddedBuffers.Proofs.Codec.Accepted
import EmbeddedBuffers.Proofs.Codec.Appended

/-!
# Containers delimit themselves

What follows a container is not looked at, and a container that an encoder made leaves less than a
byte over: the zeros that fill up its last byte. A piece in front of it that decoded would leave
all the bytes it lacks, so no such piece decodes. Main statement: `encodeWith_selfDelimiting`.
-/

namespace EmbeddedBuffers.Codec

/-! ## What is left over -/

/-- Bytes behind a container are left over with what it leaves itself. -/
theorem Decodes.append {bytes data : List UInt8} {s : Scheme} {left : List Bool}
    (h : Decodes bytes s data left) (more : List UInt8) :
    Decodes (bytes ++ more) s data (left ++ bytesBits more) := by
  cases h with
  | stored hsize hbits =>
      refine .stored hsize ?_
      rw [bytesBits_append, hbits, List.append_assoc]
  | lzss hbits hstream =>
      have hmore := Lzss.decodeFrom_followedBy hstream (bytesBits more)
      refine .lzss ?_ hmore
      rw [bytesBits_append, hbits, List.append_assoc]
  | rle hbits hstream =>
      have hmore := Rle.decodeFrom_followedBy hstream (bytesBits more)
      refine .rle ?_ hmore
      rw [bytesBits_append, hbits, List.append_assoc]

/-- What is left over is a matter of the bytes alone. -/
theorem Decodes.left_eq {bytes data : List UInt8} {s : Scheme} {left left' : List Bool}
    (h : Decodes bytes s data left) (h' : Decodes bytes s data left') : left = left' := by
  cases h with
  | stored _ hbits =>
      cases h' with
      | stored _ hbits' => exact List.append_cancel_left (hbits.symm.trans hbits')
  | lzss hbits hstream =>
      cases h' with
      | lzss hbits' hstream' =>
          cases List.append_cancel_left (hbits.symm.trans hbits')
          cases hstream.symm.trans hstream'
          rfl
  | rle hbits hstream =>
      cases h' with
      | rle hbits' hstream' =>
          cases List.append_cancel_left (hbits.symm.trans hbits')
          cases hstream.symm.trans hstream'
          rfl

/-! ## What an encoder leaves over -/

/-- The bits of the stream of some data. -/
def Scheme.stream (s : Scheme) (data : List UInt8) : List Bool :=
  match s with
  | .stored => field 32 data.length ++ bytesBits data
  | .lzss p => p.stream data
  | .rle p => p.stream data

theorem Scheme.bits_encodeInto_eq (s : Scheme) {w : BitWriter} (h : w.WellFormed)
    (data : List UInt8) : (s.encodeInto w data).WellFormed ∧
      (s.encodeInto w data).bits = w.bits ++ s.stream data := by
  cases s with
  | stored =>
      obtain ⟨hw, hbits⟩ :=
        BitWriter.bits_writeBytes (BitWriter.wellFormed_write h data.length 32) data
      rw [BitWriter.bits_write h, List.append_assoc] at hbits
      exact ⟨hw, hbits⟩
  | lzss p => exact p.bits_encodeInto h data
  | rle p => exact p.bits_encodeInto h data

/-- The bits of a container are those of its stream behind its first byte, filled up. -/
theorem bits_container {s : Scheme} {data bytes : List UInt8} (h : container s data = .ok bytes) :
    data.length < 2 ^ 32 ∧ ∃ padding < 8, bytesBits bytes =
      field 8 (16 + s.id) ++ s.stream data ++ List.replicate padding false := by
  unfold container at h
  split at h
  · cases h
  · next hsize =>
    cases h
    obtain ⟨hw, hbits⟩ := s.bits_encodeInto_eq
      (BitWriter.wellFormed_write BitWriter.wellFormed_empty (formatVersion * 16 + s.id) 8) data
    rw [BitWriter.bits_write BitWriter.wellFormed_empty] at hbits
    have hfinish := BitWriter.bytesBits_finish hw
    rw [hbits] at hfinish
    exact ⟨Nat.not_le.1 hsize, _, BitWriter.padding_lt _, hfinish⟩

/-- A container that reads back leaves less than a byte over. -/
theorem decodes_container {s : Scheme} {data bytes : List UInt8}
    (h : container s data = .ok bytes) (hback : decodeContainer bytes = .ok (s, data)) :
    ∃ left, left.length < 8 ∧ Decodes bytes s data left := by
  obtain ⟨hadmissible, -, -⟩ := accepted_of_decodeContainer hback
  obtain ⟨hsize, padding, hpadding, hbits⟩ := bits_container h
  refine ⟨List.replicate padding false, by rwa [List.length_replicate], ?_⟩
  cases s with
  | stored =>
      rw [Scheme.stream, ← List.append_assoc] at hbits
      exact .stored hsize hbits
  | lzss p =>
      rw [List.append_assoc] at hbits
      exact .lzss hbits (Lzss.decodeFrom_stream hadmissible hsize 8 _)
  | rle p =>
      rw [List.append_assoc] at hbits
      have hshort : (List.replicate padding false).length < 8 := by rwa [List.length_replicate]
      have hkept : ¬ p.Exhausts data := by
        rw [← Rle.decodeFrom_stream_iff hadmissible hsize 8 hshort]
        obtain ⟨left, hdecodes⟩ := exists_decodes hback
        cases hdecodes with
        | rle hbits' hstream =>
            cases List.append_cancel_left (hbits.symm.trans hbits')
            exact ⟨_, hstream⟩
      have hread := Rle.readable_of_not_exhausts hadmissible hsize hkept
      obtain ⟨place, hstream⟩ := Rle.decodeFrom_stream_of_readable hadmissible hsize hread 8 _
      exact .rle hbits hstream

/-- Bytes that decode and start a container of an encoder are that container. -/
theorem eq_of_prefix_of_decodes {name : String} {data : List UInt8} {stride : Nat} {s : Scheme}
    {e : Encoded} (h : encodeWith name data stride s = .ok e) {front : List UInt8}
    (hfront : front <+: e.bytes) {found : Scheme × List UInt8}
    (hok : decodeContainer front = .ok found) : front = e.bytes := by
  obtain ⟨-, hcontainer, hback⟩ := container_of_encodeWith h
  obtain ⟨more, hmore⟩ := hfront
  -- What follows the piece does not matter, so it decodes to the same.
  have hsame := decodeContainer_append hok more
  rw [hmore, hback] at hsame
  cases hsame
  obtain ⟨left, hleft⟩ := exists_decodes hok
  have hall := hleft.append more
  rw [hmore] at hall
  obtain ⟨rest, hrest, hown⟩ := decodes_container hcontainer hback
  have hlength := congrArg List.length (hall.left_eq hown)
  rw [List.length_append, length_bytesBits] at hlength
  have hnil : more = [] := List.eq_nil_of_length_eq_zero (by omega)
  rw [← hmore, hnil, List.append_nil]

/-- **Containers delimit themselves.** A container that an encoder hands out decodes to its
parameters and its data whatever follows it, no shorter piece at its front decodes at all, and so
no container is the front of another one. -/
theorem encodeWith_selfDelimiting {name : String} {data : List UInt8} {stride : Nat} {s : Scheme}
    {e : Encoded} (h : encodeWith name data stride s = .ok e) :
    decodeContainer e.bytes = .ok (s, data) ∧
      (∀ more, decodeContainer (e.bytes ++ more) = decodeContainer e.bytes) ∧
      (∀ front, front <+: e.bytes → front ≠ e.bytes → ∃ f, decodeContainer front = .error f) ∧
      ∀ {name' data' stride' s' e'}, encodeWith name' data' stride' s' = .ok e' →
        e'.bytes <+: e.bytes → e'.bytes = e.bytes := by
  obtain ⟨-, -, hback⟩ := container_of_encodeWith h
  refine ⟨hback, ?_, ?_, ?_⟩
  · intro more
    rw [hback, decodeContainer_append hback]
  · intro front hfront hne
    cases hok : decodeContainer front with
    | error f => exact ⟨f, rfl⟩
    | ok found => exact absurd (eq_of_prefix_of_decodes h hfront hok) hne
  · intro name' data' stride' s' e' h' hprefix
    obtain ⟨-, -, hback'⟩ := container_of_encodeWith h'
    exact eq_of_prefix_of_decodes h hprefix hback'

/-- A run of four elements and half an element: the last byte is zero, and still the decoder needs
bits of it, so that without it nothing is decoded. -/
theorem encodeWith_selfDelimiting_run :
    let e : Encoded :=
      ⟨.rle ⟨2⟩, [18, 16, 0, 0, 0, 144, 0, 0, 0, 0, 112, 112, 0, 48, 144, 0], 9, 2⟩
    encodeWith "run" [7, 7, 7, 7, 7, 7, 7, 7, 9] 2 (.rle ⟨2⟩) = .ok e ∧
      decodeContainer (e.bytes ++ [255]) = decodeContainer e.bytes ∧
      ∃ f, decodeContainer e.bytes.dropLast = .error f := by
  intro e
  have h : encodeWith "run" [7, 7, 7, 7, 7, 7, 7, 7, 9] 2 (.rle ⟨2⟩) = .ok e := by decide +kernel
  obtain ⟨-, hmore, hfront, -⟩ := encodeWith_selfDelimiting h
  exact ⟨h, hmore [255], hfront e.bytes.dropLast (List.dropLast_prefix _) (by decide)⟩

end EmbeddedBuffers.Codec
