import EmbeddedBuffers.Proofs.Codec.StoredBytes
import EmbeddedBuffers.Proofs.Results

/-!
# What a decoder accepts

Nothing is known about the bytes that a decoder is given. If it accepts them, their head holds
parameters that a scheme may have and the length of the data, and the tokens behind it fill up
just that length: a token goes no further than the length that is declared, and the loop does not
end before it. Main statement: `accepted_of_decodeContainer`.
-/

namespace EmbeddedBuffers.Codec

/-! ## LZSS -/

namespace Lzss

variable {p : Lzss} {r r' : BitReader}

theorem ofBits_eq_ok {windowBits lengthBits : Nat} (h : ofBits windowBits lengthBits = .ok p) :
    (1 ≤ windowBits ∧ windowBits ≤ 24) ∧ (1 ≤ lengthBits ∧ lengthBits ≤ 16) ∧
      p.windowBits = windowBits ∧ p.lengthBits = lengthBits := by
  unfold ofBits at h
  split at h
  · cases h
  · next hw =>
    split at h
    · cases h
    · next hl =>
      cases h
      exact ⟨Decidable.not_not.1 hw, Decidable.not_not.1 hl, rfl, rfl⟩

theorem size_copyBack (out : Array UInt8) (start length : Nat) :
    (copyBack out start length).size = out.size + length := by
  induction length generalizing out start with
  | zero => rfl
  | succ n ih =>
      rw [copyBack, ih, Array.size_push]
      omega

/-- A token stays inside the declared length. -/
theorem size_readToken {declared : Nat} {out out' : Array UInt8} (hless : out.size < declared)
    (h : readToken p declared out r = .ok (out', r')) : out'.size ≤ declared := by
  unfold readToken at h
  split at h
  · cases h
  · obtain ⟨b, r₂, -, h⟩ := BitReader.read_ok_bind h
    cases h
    rw [Array.size_push]
    exact hless
  · obtain ⟨distance, r₂, -, h⟩ := BitReader.read_ok_bind h
    obtain ⟨length, r₃, -, h⟩ := BitReader.read_ok_bind h
    simp only [pure, Except.pure, bind, Except.bind] at h
    split at h
    · cases h
    · split at h
      · cases h
      · next hfit =>
        cases h
        rw [size_copyBack]
        exact Nat.not_lt.1 hfit

/-- The tokens that are read fill up the declared length. -/
theorem size_readTokens {declared : Nat} {out out' : Array UInt8} (hle : out.size ≤ declared)
    (h : readTokens p declared out r = .ok (out', r')) : out'.size = declared := by
  -- The loop has no counter: it ends because every token takes bits.
  induction hn : r.remaining using Nat.strongRecOn generalizing out r with
  | ind n ih =>
      unfold readTokens at h
      split at h
      · next hless =>
        split at h
        · cases h
        · next htoken =>
          exact ih _ (hn ▸ remaining_readToken htoken) (size_readToken hless htoken) h rfl
      · next hfull =>
        cases h
        exact Nat.le_antisymm hle (Nat.not_lt.1 hfull)

/-- A stream that is accepted starts with the head of its parameters and of its data. -/
theorem accepted_of_decodeFrom {data : List UInt8} (h : decodeFrom r = .ok (p, data, r')) :
    p.Admissible ∧ data.length < 2 ^ 32 ∧ ∃ rest, r.ahead = p.header data.length ++ rest := by
  unfold decodeFrom at h
  obtain ⟨w, r₁, h₁, h⟩ := BitReader.read_ok_bind h
  obtain ⟨l, r₂, h₂, h⟩ := BitReader.read_ok_bind h
  obtain ⟨m, r₃, h₃, h⟩ := BitReader.read_ok_bind h
  obtain ⟨declared, r₄, h₄, h⟩ := BitReader.read_ok_bind h
  obtain ⟨a₁, -, -⟩ := BitReader.eq_field_of_read (by decide) h₁
  obtain ⟨a₂, -, -⟩ := BitReader.eq_field_of_read (by decide) h₂
  obtain ⟨a₃, hm, -⟩ := BitReader.eq_field_of_read (by decide) h₃
  obtain ⟨a₄, hdeclared, -⟩ := BitReader.eq_field_of_read (by decide) h₄
  obtain ⟨q, hq, h⟩ := exists_of_bind_eq_ok h
  obtain ⟨⟨out, r₅⟩, htokens, h⟩ := exists_of_bind_eq_ok h
  cases h
  have hsize : out.toList.length = declared := size_readTokens (Nat.zero_le _) htokens
  obtain ⟨hw, hl, hqw, hql⟩ := ofBits_eq_ok hq
  have hshortest : 1 ≤ m + 1 ∧ m + 1 ≤ 8 := by omega
  refine ⟨⟨by rwa [hqw], by rwa [hql], hshortest⟩, by rwa [hsize], r₄.ahead, ?_⟩
  rw [a₁, a₂, a₃, a₄, header, hqw, hql, hsize]
  simp only [List.append_assoc, Nat.add_sub_cancel]

end Lzss

/-! ## Run lengths -/

namespace Rle

variable {p : Rle} {r r' : BitReader}

theorem ofWidth_eq_ok {width : Nat} (h : ofWidth width = .ok p) :
    p.Admissible ∧ p.width = width := by
  unfold ofWidth at h
  split at h
  · next hw =>
    cases h
    exact ⟨hw, rfl⟩
  · cases h

/-- The elements that hold some bytes are not too many for a field of 32 bits. -/
theorem Admissible.total_lt (hp : p.Admissible) {declared : Nat} (h : declared < 2 ^ 32) :
    (declared + p.width - 1) / p.width < 2 ^ 32 ∧
      declared ≤ (declared + p.width - 1) / p.width * p.width := by
  rcases hp with hw | hw | hw | hw <;> rw [hw] <;> omega

/-- A stream that is accepted starts with the head of its parameters and of its data. -/
theorem accepted_of_decodeFrom {data : List UInt8} (h : decodeFrom r = .ok (p, data, r')) :
    p.Admissible ∧ data.length < 2 ^ 32 ∧
      ∃ rest, r.ahead = field 4 (p.width - 1) ++ field 32 data.length ++ rest := by
  unfold decodeFrom at h
  obtain ⟨short, r₁, h₁, h⟩ := BitReader.read_ok_bind h
  obtain ⟨a₁, -, -⟩ := BitReader.eq_field_of_read (by decide) h₁
  obtain ⟨q, hq, h⟩ := exists_of_bind_eq_ok h
  obtain ⟨hadmissible, hwidth⟩ := ofWidth_eq_ok hq
  obtain ⟨declared, r₂, h₂, h⟩ := BitReader.read_ok_bind h
  obtain ⟨a₂, hdeclared, -⟩ := BitReader.eq_field_of_read (by decide) h₂
  obtain ⟨sentinel, r₃, -, h⟩ := BitReader.read_ok_bind h
  obtain ⟨⟨out, r₄⟩, htokens, h⟩ := exists_of_bind_eq_ok h
  cases h
  obtain ⟨htotal, hfit⟩ := hadmissible.total_lt hdeclared
  obtain ⟨-, -, -, -, hsize⟩ :=
    exists_tokens_of_readTokens hadmissible htotal (Nat.zero_le _) htokens
  have hlength : ((out.toList.flatMap (Elements.toBytes p.width)).take declared).length =
      declared := by
    rw [List.length_take, Elements.length_flatMap_toBytes, Array.length_toList, hsize]
    exact Nat.min_eq_left hfit
  refine ⟨hadmissible, by rwa [hlength], r₂.ahead, ?_⟩
  rw [hlength, a₁, a₂, hwidth, Nat.add_sub_cancel, List.append_assoc]

end Rle

/-! ## Containers -/

/-- The bytes are decoded to a scheme and some data, and the bits of `left` are not looked at. -/
inductive Decodes (bytes : List UInt8) : Scheme → List UInt8 → List Bool → Prop
  | stored {data : List UInt8} {left : List Bool} (hsize : data.length < 2 ^ 32)
      (hbits : bytesBits bytes = field 8 16 ++ field 32 data.length ++ bytesBits data ++ left) :
      Decodes bytes .stored data left
  | lzss {p : Lzss} {data : List UInt8} {ahead : List Bool} {r : BitReader}
      (hbits : bytesBits bytes = field 8 17 ++ ahead)
      (hstream : Lzss.decodeFrom ⟨8, ahead⟩ = .ok (p, data, r)) :
      Decodes bytes (.lzss p) data r.ahead
  | rle {p : Rle} {data : List UInt8} {ahead : List Bool} {r : BitReader}
      (hbits : bytesBits bytes = field 8 18 ++ ahead)
      (hstream : Rle.decodeFrom ⟨8, ahead⟩ = .ok (p, data, r)) :
      Decodes bytes (.rle p) data r.ahead

/-- The steps of a decoder. -/
theorem decodeContainer_eq (bytes : List UInt8) : decodeContainer bytes =
    (((BitReader.ofBytes bytes).read 8).mapError (fun _ => .emptyContainer) >>= fun (tag, r) =>
      if tag / 16 ≠ formatVersion then .error (.unknownVersion (tag / 16))
      else
        match tag % 16 with
        | 0 => r.read 32 >>= fun (size, r) =>
          (r.readBytes size).1 >>= fun held => .ok (.stored, held)
        | 1 => Lzss.decodeFrom r >>= fun (p, held, _) => .ok (.lzss p, held)
        | 2 => Rle.decodeFrom r >>= fun (p, held, _) => .ok (.rle p, held)
        | id => .error (.unknownScheme id)) := by
  unfold decodeContainer
  cases (BitReader.ofBytes bytes).read 8 <;> rfl

theorem exists_decodes {bytes data : List UInt8} {s : Scheme}
    (h : decodeContainer bytes = .ok (s, data)) : ∃ left, Decodes bytes s data left := by
  obtain ⟨id, ahead, -, hbits, hbehind⟩ := exists_of_decodeContainer h
  obtain _ | _ | _ | id := id
  · obtain ⟨⟨size, r⟩, -, hbehind⟩ := exists_of_bind_eq_ok hbehind
    obtain ⟨held, -, heq⟩ := map_eq_ok.1 hbehind
    cases heq
    obtain ⟨hsize, left, hleft⟩ := bits_of_decode_stored h
    exact ⟨left, .stored hsize hleft⟩
  · obtain ⟨⟨p, held, r⟩, hfound, heq⟩ := map_eq_ok.1 hbehind
    cases heq
    exact ⟨_, .lzss hbits hfound⟩
  · obtain ⟨⟨p, held, r⟩, hfound, heq⟩ := map_eq_ok.1 hbehind
    cases heq
    exact ⟨_, .rle hbits hfound⟩
  · cases hbehind

/-- The parameters that a scheme may have. -/
def Scheme.Admissible : Scheme → Prop
  | .stored => True
  | .lzss p => p.Admissible
  | .rle p => p.Admissible

/-- The first bits of a container, up to the length that it declares. -/
def Scheme.head (s : Scheme) (length : Nat) : List Bool :=
  field 8 (formatVersion * 16 + s.id) ++
    match s with
    | .stored => field 32 length
    | .lzss p => p.header length
    | .rle p => field 4 (p.width - 1) ++ field 32 length

/-- **Bytes that are accepted are headed by what they decode to**: by parameters that their scheme
may have and by the length of the data. -/
theorem accepted_of_decodeContainer {bytes data : List UInt8} {s : Scheme}
    (h : decodeContainer bytes = .ok (s, data)) :
    s.Admissible ∧ data.length < 2 ^ 32 ∧
      ∃ rest, bytesBits bytes = s.head data.length ++ rest := by
  obtain ⟨left, hdecodes⟩ := exists_decodes h
  cases hdecodes with
  | stored hsize hbits =>
      refine ⟨trivial, hsize, bytesBits data ++ left, ?_⟩
      rw [hbits, List.append_assoc]
      rfl
  | lzss hbits hstream =>
      obtain ⟨hp, hsize, rest, hrest⟩ := Lzss.accepted_of_decodeFrom hstream
      dsimp only at hrest
      refine ⟨hp, hsize, rest, ?_⟩
      rw [hbits, hrest, Scheme.head, List.append_assoc]
      rfl
  | rle hbits hstream =>
      obtain ⟨hp, hsize, rest, hrest⟩ := Rle.accepted_of_decodeFrom hstream
      dsimp only at hrest
      refine ⟨hp, hsize, rest, ?_⟩
      rw [hbits, hrest, Scheme.head]
      simp only [List.append_assoc]
      rfl

end EmbeddedBuffers.Codec
