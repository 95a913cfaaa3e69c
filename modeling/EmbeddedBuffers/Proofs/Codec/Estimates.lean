import EmbeddedBuffers.Proofs.Codec.Accepted
import EmbeddedBuffers.Proofs.Codec.Sizes

/-!
# Estimates

What a scheme would cost is counted along the same parse that writes its stream, with a price for
each token. The count is exact, wherever the stream is appended, and it is small: every token stands
for at least one byte or one element, so that a machine word holds the sum of all prices. Main
statement: `estimates_exact`.
-/

namespace EmbeddedBuffers.Codec

/-! ## LZSS -/

namespace Lzss

/-- The greatest price of a token: that of a reference with the widest fields. -/
theorem Admissible.cost_le {p : Lzss} (hp : p.Admissible) (t : Token) : t.cost p ≤ 41 := by
  obtain ⟨⟨-, hw⟩, ⟨-, hl⟩, -⟩ := hp
  cases t with
  | literal b =>
      show 9 ≤ 41
      decide
  | reference distance length =>
      rw [Token.cost, referenceBits]
      omega

/-- Tokens that stand for the data from a position on cost no more than that many literals of the
greatest price. -/
theorem Codes.sum_cost_le {p : Lzss} (hp : p.Admissible) {data : Array UInt8} {pos : Nat}
    {ts : List Token} (h : Codes p data pos ts) :
    (ts.map (Token.cost p)).sum ≤ 41 * (data.size - pos) := by
  induction h with
  | done => exact Nat.zero_le _
  | @literal pos ts hpos _ ih =>
      have hcost := hp.cost_le (.literal (data.getD pos 0))
      rw [List.map_cons, List.sum_cons]
      omega
  | @reference pos distance length ts href _ ih =>
      have hcost := hp.cost_le (.reference distance length)
      have hpos := href.length_pos
      have hinside := href.inside
      rw [List.map_cons, List.sum_cons]
      omega

theorem estimateBits_le {p : Lzss} (hp : p.Admissible) (data : List UInt8) :
    p.estimateBits data ≤ headerBits + 41 * data.length := by
  have hsum := (codes_parse p data.toArray).sum_cost_le hp
  rw [estimateBits, foldl_cost_eq (Token.length_bits p), List.length_flatMap]
  simp only [Token.length_bits]
  simpa using hsum

end Lzss

/-! ## Run lengths -/

namespace Rle

/-- A token costs no more than a run of one for each element that it stands for. -/
theorem sum_cost_le (p : Rle) {ts : List Token} (h : ∀ t ∈ ts, 1 ≤ t.count) :
    (ts.map (Token.cost p)).sum ≤ 3 * p.bits * (ts.flatMap Token.expand).length := by
  induction ts with
  | nil => exact Nat.zero_le _
  | cons t ts ih =>
      obtain ⟨ht, hts⟩ := List.forall_mem_cons.1 h
      have hcost : t.cost p ≤ 3 * p.bits * t.count := by
        have hone : 3 * p.bits ≤ 3 * p.bits * t.count := Nat.le_mul_of_pos_right _ ht
        cases t <;> simp only [Token.cost] at * <;> omega
      rw [List.map_cons, List.sum_cons, List.flatMap_cons, List.length_append, Nat.mul_add,
        Token.expand_length]
      exact Nat.add_le_add hcost (ih hts)

theorem estimateBits_le {p : Rle} (hp : p.Admissible) (data : List UInt8) :
    p.estimateBits data ≤ headerBits + p.bits + 3 * p.bits * data.length := by
  have hread : ∀ t ∈ p.tokens (p.sentinelOf data) (Elements.ofBytes p.width data),
      t.Readable p (p.sentinelOf data) :=
    readable_tokens (hp.lt_of_mem_ofBytes data) fun _ _ hs => Or.inr hs
  have hsum := p.sum_cost_le fun t ht => (hread t ht).count_pos
  rw [expand_tokens] at hsum
  have hcount : (Elements.ofBytes p.width data).length ≤ data.length := by
    rw [Elements.length_ofBytes hp.width_pos]
    rcases hp with h | h | h | h <;> rw [h] <;> omega
  have hbound := Nat.mul_le_mul_left (3 * p.bits) hcount
  unfold estimateBits
  dsimp only
  rw [foldl_cost_eq (Token.length_bits p (p.sentinelOf data)), List.length_flatMap]
  simp only [Token.length_bits]
  exact Nat.add_le_add_left (Nat.le_trans hsum hbound) _

end Rle

/-- A stream of less than 2 ^ 32 bytes has far fewer bits than a machine word counts. -/
theorem Scheme.estimateBits_lt {s : Scheme} (hs : s.Admissible) {data : List UInt8}
    (hsize : data.length < 2 ^ 32) : s.estimateBits data < 2 ^ 40 := by
  cases s with
  | stored =>
      rw [estimateBits]
      omega
  | lzss p =>
      have hle := Lzss.estimateBits_le hs data
      rw [estimateBits]
      rw [Lzss.headerBits] at hle
      omega
  | rle p =>
      have hle := Rle.estimateBits_le hs data
      have hbits := Nat.mul_le_mul_right data.length (Nat.mul_le_mul_left 3 hs.bits_le)
      have hbits' := hs.bits_le
      rw [estimateBits]
      rw [Rle.headerBits] at hle
      omega

/-- **Sizes are known without writing anything.** Under every scheme with parameters that it may
have, the container of less than 2 ^ 32 bytes of data is as long as was estimated, its stream adds
to any stream under construction as many bits as were counted, and the count fits a machine word. -/
theorem estimates_exact {s : Scheme} (hs : s.Admissible) {data : List UInt8}
    (hsize : data.length < 2 ^ 32) :
    (∃ bytes, container s data = .ok bytes ∧ bytes.length = s.estimateSize data) ∧
      (∀ w : BitWriter, w.WellFormed →
        (s.encodeInto w data).bitLength = w.bitLength + s.estimateBits data) ∧
      s.estimateBits data < 2 ^ 40 := by
  refine ⟨?_, ?_, s.estimateBits_lt hs hsize⟩
  · obtain ⟨bytes, hbytes⟩ := exists_container s hsize
    exact ⟨bytes, hbytes, length_container hbytes⟩
  · intro w hw
    rw [BitWriter.bitLength_eq, BitWriter.bitLength_eq]
    exact (s.bits_encodeInto hw data).2

/-- Two elements and half an element, behind three other bits. -/
theorem estimates_exact_halfElement :
    let s : Scheme := .rle ⟨2⟩
    let data : List UInt8 := [7, 7, 7, 7, 9]
    let w := BitWriter.empty.writeAll [(5, 3)]
    s.Admissible ∧ data.length < 2 ^ 32 ∧ w.WellFormed ∧
      (∃ bytes, container s data = .ok bytes ∧ bytes.length = s.estimateSize data) ∧
      (s.encodeInto w data).bitLength = w.bitLength + s.estimateBits data := by
  intro s data w
  have hs : s.Admissible := Or.inr (Or.inl rfl)
  have hsize : data.length < 2 ^ 32 := by decide
  have hw : w.WellFormed := BitWriter.wellFormed_writeAll BitWriter.wellFormed_empty _
  obtain ⟨hcontainer, hbits, -⟩ := estimates_exact hs hsize
  exact ⟨hs, hsize, hw, hcontainer, hbits w hw⟩

end EmbeddedBuffers.Codec
