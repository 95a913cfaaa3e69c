import EmbeddedBuffers.Codec.Lzss
import EmbeddedBuffers.Proofs.Codec.BitStream
import EmbeddedBuffers.Proofs.Codec.Matches

/-!
# LZSS loses nothing

Between parse and decoder stands `Codes`: which tokens stand for the data from a position
on. The parse only makes such tokens, whatever matches it takes or passes over, and the
decoder rebuilds the data from any of them. Main statement: `decodeFrom_encodeInto`.
-/

namespace EmbeddedBuffers.Codec.Lzss

/-- The parameters that a stream can record. -/
structure Admissible (p : Lzss) : Prop where
  window : 1 ≤ p.windowBits ∧ p.windowBits ≤ 24
  length : 1 ≤ p.lengthBits ∧ p.lengthBits ≤ 16
  shortest : 1 ≤ p.minMatch ∧ p.minMatch ≤ 8

/-- A reference at `pos` that its fields can hold and that repeats the bytes there. -/
structure Refers (p : Lzss) (data : Array UInt8) (pos distance length : Nat) : Prop where
  distance_pos : 1 ≤ distance
  distance_le_window : distance ≤ p.window
  distance_le : distance ≤ pos
  minMatch_le : p.minMatch ≤ length
  length_pos : 0 < length
  length_le : length ≤ p.maxMatch
  inside : pos + length ≤ data.size
  repeats : ∀ i < length, data.getD (pos - distance + i) 0 = data.getD (pos + i) 0

/-- The tokens stand for the data from a position on. -/
inductive Codes (p : Lzss) (data : Array UInt8) : Nat → List Token → Prop
  | done : Codes p data data.size []
  | literal {pos : Nat} {ts : List Token} : pos < data.size → Codes p data (pos + 1) ts →
      Codes p data pos (.literal (data.getD pos 0) :: ts)
  | reference {pos distance length : Nat} {ts : List Token} :
      Refers p data pos distance length → Codes p data (pos + length) ts →
      Codes p data pos (.reference distance length :: ts)

/-! ## The parse -/

/-- A match as the parse of a position may have it. -/
def Usable (p : Lzss) (data : Array UInt8) (pos : Nat) (m : Match) : Prop :=
  m.Sound data pos p.window (min p.maxMatch (data.size - pos))

theorem usable_matchAt {p : Lzss} {finder : MatchFinder} {pos : Nat} (hf : finder.Below pos)
    (data : Array UInt8) : Usable p data pos (p.matchAt data finder pos) := by
  unfold matchAt
  split
  · exact MatchFinder.sound_longest hf data p.window p.maxMatch
  · exact Or.inl rfl

theorem Usable.refers {p : Lzss} {data : Array UInt8} {pos : Nat} {m : Match}
    (hm : Usable p data pos m) (hpos : pos < data.size)
    (hlen : 0 < m.length ∧ p.minMatch ≤ m.length) :
    Refers p data pos m.distance m.length := by
  rcases hm with h0 | ⟨h1, hw, hd, hl, hrep⟩
  · omega
  · exact ⟨h1, hw, hd, hlen.2, hlen.1, by omega, by omega, hrep⟩

/-- A parse adds tokens that stand for the rest of the data. -/
theorem codes_parseFrom {p : Lzss} {data : Array UInt8} {finder : MatchFinder} {pos : Nat}
    {current : Match} (tokens : List Token) (hf : finder.Below pos) (hpos : pos ≤ data.size)
    (hm : Usable p data pos current) :
    ∃ ts, p.parseFrom data finder pos current tokens = tokens.reverse ++ ts ∧
      Codes p data pos ts := by
  fun_induction parseFrom p data finder pos current tokens with
  | case1 finder pos current tokens hlt finder' hlen next hnext ih =>
      -- The match gives way to the longer one behind it.
      have hf' := hf.insert data
      have hsound : Usable p data (pos + 1) next := by
        simp only [next]
        split
        · exact usable_matchAt hf' data
        · exact Or.inl rfl
      obtain ⟨ts, hts, hcodes⟩ := ih hf' hlt hsound
      exact ⟨_ :: ts, by simpa using hts, .literal hlt hcodes⟩
  | case2 finder pos current tokens hlt finder' hlen next hnext finder'' after found ih =>
      have href := hm.refers hlt hlen
      have hf' := (hf.insert data).insertMany data (current.length - 1)
      rw [show pos + 1 + (current.length - 1) = pos + current.length by omega] at hf'
      obtain ⟨ts, hts, hcodes⟩ := ih hf' href.inside (usable_matchAt hf' data)
      exact ⟨_ :: ts, by simpa using hts, .reference href hcodes⟩
  | case3 finder pos current tokens hlt finder' hlen found ih =>
      have hf' := hf.insert data
      obtain ⟨ts, hts, hcodes⟩ := ih hf' hlt (usable_matchAt hf' data)
      exact ⟨_ :: ts, by simpa using hts, .literal hlt hcodes⟩
  | case4 finder pos current tokens hge =>
      have heq : pos = data.size := by omega
      subst heq
      exact ⟨[], by simp, .done⟩

/-- The tokens of a parse stand for the data. -/
theorem codes_parse (p : Lzss) (data : Array UInt8) : Codes p data 0 (p.parse data) := by
  have hf := MatchFinder.below_empty data.size p.window p.minMatch 0
  obtain ⟨ts, hts, hcodes⟩ := codes_parseFrom [] hf (Nat.zero_le _)
    (usable_matchAt hf data)
  rw [parse, hts]
  exact hcodes

/-- Every reference among such tokens refers to where the tokens before it end. -/
theorem Codes.refers {p : Lzss} {data : Array UInt8} {pos : Nat} {before after : List Token}
    {distance length : Nat}
    (h : Codes p data pos (before ++ .reference distance length :: after)) :
    Refers p data (pos + (before.map Token.size).sum) distance length := by
  induction before generalizing pos with
  | nil =>
      cases h with
      | reference href _ => simpa using href
  | cons t before ih =>
      cases h with
      | literal _ hrest =>
          have hb := ih hrest
          rwa [Nat.add_assoc] at hb
      | reference _ hrest =>
          have hb := ih hrest
          rwa [Nat.add_assoc] at hb

/-! ## The decoder -/

/-- What is decoded so far is a piece at the front of the data. -/
def Begins (out data : Array UInt8) : Prop :=
  out.size ≤ data.size ∧ ∀ i < out.size, out.getD i 0 = data.getD i 0

theorem Begins.push {out data : Array UInt8} (h : Begins out data) (hlt : out.size < data.size) :
    Begins (out.push (data.getD out.size 0)) data := by
  refine ⟨by rw [Array.size_push]; exact hlt, ?_⟩
  intro i hi
  rw [Array.size_push] at hi
  by_cases heq : i = out.size
  · subst heq
    simp [Array.getD_eq_getD_getElem?]
  · rw [← h.2 i (by omega)]
    simp [Array.getD_eq_getD_getElem?, Array.getElem?_push, heq]

theorem Begins.eq {out data : Array UInt8} (h : Begins out data) (hs : out.size = data.size) :
    out = data := by
  refine Array.ext hs ?_
  intro i hi hi'
  have hget := h.2 i hi
  simpa [Array.getD, hi, hi'] using hget

/-- Copying back goes on with the data where they repeat themselves, also when the copy
reaches into what it appends. -/
theorem begins_copyBack {out data : Array UInt8} {start length : Nat} (h : Begins out data)
    (hstart : start < out.size) (hlen : out.size + length ≤ data.size)
    (hrep : ∀ i < length, data.getD (start + i) 0 = data.getD (out.size + i) 0) :
    Begins (copyBack out start length) data ∧
      (copyBack out start length).size = out.size + length := by
  induction length generalizing out start with
  | zero => exact ⟨h, rfl⟩
  | succ n ih =>
      have hbyte : out.getD start 0 = data.getD out.size 0 := by
        rw [h.2 start hstart]
        exact hrep 0 (Nat.succ_pos n)
      rw [copyBack, hbyte]
      have hnext := @ih _ (start + 1) (h.push (by omega))
        (by rw [Array.size_push]; omega) (by rw [Array.size_push]; omega) (by
          intro i hi
          rw [Array.size_push, Nat.add_assoc, Nat.add_assoc, Nat.add_comm 1]
          exact hrep (i + 1) (by omega))
      rw [Array.size_push] at hnext
      exact ⟨hnext.1, by omega⟩

theorem readToken_literal (p : Lzss) (declared : Nat) (out : Array UInt8) (b : UInt8)
    (position : Nat) (rest : List Bool) :
    readToken p declared out ⟨position, (Token.literal b).bits p ++ rest⟩ =
      .ok (out.push b, ⟨position + 9, rest⟩) := by
  have hb : b.toNat < 2 ^ 8 := b.toNat_lt
  have hfirst : (Token.literal b).bits p ++ rest = false :: (field 8 b.toNat ++ rest) := by
    show b.toNat.testBit 8 :: _ = _
    rw [Nat.testBit_lt_two_pow hb]
    rfl
  rw [hfirst]
  show (BitReader.read ⟨position + 1, field 8 b.toNat ++ rest⟩ 8 >>= _) = _
  rw [BitReader.read_field hb (by decide)]
  simp [bind, Except.bind, pure, Except.pure]

theorem readToken_reference {p : Lzss} (hp : p.Admissible) {data out : Array UInt8}
    {distance length : Nat} (href : Refers p data out.size distance length)
    (position : Nat) (rest : List Bool) :
    readToken p data.size out ⟨position, (Token.reference distance length).bits p ++ rest⟩ =
      .ok (copyBack out (out.size - distance) length,
        ⟨position + p.referenceBits, rest⟩) := by
  obtain ⟨hd1, hdw, hd, hlm, hl0, hlM, hin, -⟩ := href
  obtain ⟨⟨-, hw⟩, ⟨-, hl⟩, hs⟩ := hp
  have hdistance : distance - 1 < 2 ^ p.windowBits := by
    unfold window at hdw
    omega
  have hlength : length - p.minMatch < 2 ^ p.lengthBits := by
    unfold maxMatch at hlM
    have := Nat.two_pow_pos p.lengthBits
    omega
  simp only [Token.bits, List.cons_append, List.append_assoc]
  show (BitReader.read ⟨position + 1, _⟩ p.windowBits >>= _) = _
  rw [BitReader.read_field hdistance (by omega)]
  show (BitReader.read ⟨position + 1 + p.windowBits, _⟩ p.lengthBits >>= _) = _
  rw [BitReader.read_field hlength (by omega)]
  simp only [bind, Except.bind]
  rw [Nat.sub_add_cancel hd1, Nat.sub_add_cancel hlm, if_neg (by omega), if_neg (by omega)]
  simp [pure, Except.pure, referenceBits, Nat.add_assoc]

/-- **Decoding any tokens that stand for the rest of the data gives the data.** -/
theorem readTokens_codes {p : Lzss} (hp : p.Admissible) {data out : Array UInt8} {pos : Nat}
    {ts : List Token} (hcodes : Codes p data pos ts) (hout : out.size = pos)
    (h : Begins out data) (position : Nat) (rest : List Bool) :
    readTokens p data.size out ⟨position, ts.flatMap (Token.bits p) ++ rest⟩ =
      .ok (data, ⟨position + (ts.flatMap (Token.bits p)).length, rest⟩) := by
  induction hcodes generalizing out position with
  | done =>
      rw [readTokens, if_neg (by omega), h.eq hout]
      rfl
  | literal hlt _ ih =>
      subst hout
      have hnext := h.push hlt
      rw [List.flatMap_cons, List.append_assoc, List.length_append, ← Nat.add_assoc, readTokens,
        if_pos hlt, readToken_literal]
      dsimp only
      rw [ih (Array.size_push _) hnext]
      rfl
  | @reference _ distance length _ href _ ih =>
      subst hout
      have hd := href.distance_le
      have hd1 := href.distance_pos
      have hl0 := href.length_pos
      have hin := href.inside
      obtain ⟨hnext, hsize⟩ := begins_copyBack h
        (show out.size - distance < out.size by omega) hin href.repeats
      rw [List.flatMap_cons, List.append_assoc, List.length_append, ← Nat.add_assoc, readTokens,
        if_pos (by omega), readToken_reference hp href]
      dsimp only
      rw [ih hsize hnext, Token.length_bits]
      rfl

/-! ## Streams -/

/-- The bits of the stream of some data. -/
def stream (p : Lzss) (data : List UInt8) : List Bool :=
  p.header data.length ++ (p.parse data.toArray).flatMap (Token.bits p)

theorem bits_encodeInto (p : Lzss) {w : BitWriter} (h : w.WellFormed) (data : List UInt8) :
    (p.encodeInto w data).WellFormed ∧ (p.encodeInto w data).bits = w.bits ++ p.stream data := by
  obtain ⟨hw, hb⟩ := BitWriter.foldl_append (Token.bits p) (p.parse data.toArray)
    (BitWriter.wellFormed_append h (p.header data.length))
  refine ⟨hw, ?_⟩
  rw [encodeInto, hb, BitWriter.bits_append h, stream, List.append_assoc]

theorem ofBits_of_admissible {p : Lzss} (hp : p.Admissible) :
    ∃ q, ofBits p.windowBits p.lengthBits = .ok q ∧ { q with minMatch := p.minMatch } = p := by
  unfold ofBits
  rw [if_neg (by simpa using hp.window), if_neg (by simpa using hp.length)]
  exact ⟨_, rfl, rfl⟩

/-- A stream reads back as its parameters and its data, whatever follows it. -/
theorem decodeFrom_stream {p : Lzss} (hp : p.Admissible) {data : List UInt8}
    (hsize : data.length < 2 ^ 32) (position : Nat) (rest : List Bool) :
    decodeFrom ⟨position, p.stream data ++ rest⟩ =
      .ok (p, data, ⟨position + (p.stream data).length, rest⟩) := by
  obtain ⟨q, hq, hqp⟩ := ofBits_of_admissible hp
  have hw : p.windowBits < 2 ^ 5 := by have := hp.window.2; omega
  have hl : p.lengthBits < 2 ^ 5 := by have := hp.length.2; omega
  have hm : p.minMatch - 1 < 2 ^ 3 := by have := hp.shortest.2; omega
  have htokens := readTokens_codes hp (codes_parse p data.toArray) rfl
    (show Begins #[] data.toArray from ⟨Nat.zero_le _, by simp⟩)
  simp only [List.size_toArray] at htokens
  unfold decodeFrom stream header
  simp only [List.append_assoc, bind, Except.bind]
  rw [BitReader.read_field hw (by decide)]
  dsimp only
  rw [BitReader.read_field hl (by decide)]
  dsimp only
  rw [BitReader.read_field hm (by decide)]
  dsimp only
  rw [BitReader.read_field hsize (by decide)]
  dsimp only
  rw [hq, Nat.sub_add_cancel hp.shortest.1]
  dsimp only
  rw [hqp, htokens]
  simp only [pure, Except.pure, List.length_append, length_field]
  rw [show ∀ n, position + 5 + 5 + 3 + 32 + n = position + (5 + (5 + (3 + (32 + n)))) by omega]

/-- **LZSS is lossless.** Behind any fields already written, the stream of some data is
read back as its parameters and the data, and exactly its bits are used up. Every
reference that the parse makes stays inside the window, inside what is coded before it, and
inside the lengths that its field can hold. -/
theorem decodeFrom_encodeInto {p : Lzss} (hp : p.Admissible) {data : List UInt8}
    (hsize : data.length < 2 ^ 32) (fields : List (Nat × Nat)) :
    let before := BitWriter.empty.writeAll fields
    let after := p.encodeInto before data
    decodeFrom (.afterBits after.finish before.bitLength) =
        .ok (p, data, .afterBits after.finish after.bitLength) ∧
      ∀ (earlier later : List Token) (distance length : Nat),
        p.parse data.toArray = earlier ++ .reference distance length :: later →
        (1 ≤ distance ∧ distance ≤ 2 ^ p.windowBits) ∧
          distance ≤ (earlier.map Token.size).sum ∧
          p.minMatch ≤ length ∧ length ≤ p.minMatch + 2 ^ p.lengthBits - 1 := by
  intro before after
  have hbefore : before.WellFormed :=
    BitWriter.wellFormed_writeAll BitWriter.wellFormed_empty fields
  obtain ⟨hafter, hbits⟩ := bits_encodeInto p hbefore data
  constructor
  · unfold BitReader.afterBits
    rw [BitWriter.bytesBits_finish hafter, BitWriter.bitLength_eq, BitWriter.bitLength_eq, hbits,
      List.append_assoc, List.drop_left, decodeFrom_stream hp hsize, ← List.length_append,
      ← List.append_assoc, List.drop_left]
  · intro earlier later distance length heq
    have href := (heq ▸ codes_parse p data.toArray).refers
    rw [Nat.zero_add] at href
    exact ⟨⟨href.distance_pos, href.distance_le_window⟩, href.distance_le, href.minMatch_le,
      href.length_le⟩

/-- A run of one byte behind three other bits: the reference overlaps what it makes. -/
theorem decodeFrom_encodeInto_overlap :
    let p : Lzss := ⟨1, 2, 1⟩
    let data : List UInt8 := [7, 7, 7, 7, 7, 7, 9]
    let before := BitWriter.empty.writeAll [(5, 3)]
    let after := p.encodeInto before data
    p.Admissible ∧ data.length < 2 ^ 32 ∧
      decodeFrom (.afterBits after.finish before.bitLength) =
        .ok (p, data, .afterBits after.finish after.bitLength) :=
  have hp : (⟨1, 2, 1⟩ : Lzss).Admissible := ⟨by decide, by decide, by decide⟩
  ⟨hp, by decide, (decodeFrom_encodeInto hp (by decide) [(5, 3)]).1⟩

end EmbeddedBuffers.Codec.Lzss
