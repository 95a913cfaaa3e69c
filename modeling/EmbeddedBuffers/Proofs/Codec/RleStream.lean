import EmbeddedBuffers.Proofs.Codec.BitStream
import EmbeddedBuffers.Proofs.Codec.ElementBytes
import EmbeddedBuffers.Proofs.Codec.RleTokens

/-!
# Run-length tokens as a stream of bits

The decoder reads tokens off the front as long as elements are missing. Main statements:
bits that readable tokens stand for are read as these tokens (`readTokens_flatMap`), and
whatever the decoder accepts are the bits of readable tokens (`exists_tokens_of_readTokens`).
The sentinel of the decoder is the one of the encoder as far as an element holds it
(`decodeFrom_stream`).
-/

namespace EmbeddedBuffers.Codec.Rle

/-- The element widths that a stream can record. -/
def Admissible (p : Rle) : Prop := p.width = 1 ∨ p.width = 2 ∨ p.width = 4 ∨ p.width = 8

theorem Admissible.width_pos {p : Rle} (hp : p.Admissible) : 0 < p.width := by
  rcases hp with h | h | h | h <;> omega

theorem Admissible.bits_le {p : Rle} (hp : p.Admissible) : p.bits ≤ 64 := by
  unfold bits
  rcases hp with h | h | h | h <;> omega

theorem Admissible.bits_pos {p : Rle} (hp : p.Admissible) : 0 < p.bits :=
  Nat.mul_pos hp.width_pos (by decide)

/-- One token counts any run that an encoder would not rather write out. -/
theorem Admissible.minRun_le_maxCount {p : Rle} (hp : p.Admissible) : minRun ≤ p.maxCount := by
  unfold minRun maxCount
  split
  · decide
  · have hpow : 2 ^ 8 ≤ 2 ^ p.bits :=
      Nat.pow_le_pow_right (by decide) (Nat.le_mul_of_pos_left 8 hp.width_pos)
    omega

theorem ofWidth_of_admissible {p : Rle} (hp : p.Admissible) : ofWidth p.width = .ok p := by
  unfold Admissible at hp
  rw [ofWidth, if_pos hp]

theorem two_pow_bits (p : Rle) : 2 ^ p.bits = 256 ^ p.width := by
  rw [bits, Nat.mul_comm]
  exact Nat.pow_mul 2 8 p.width

theorem Admissible.lt_of_mem_ofBytes {p : Rle} (hp : p.Admissible) (data : List UInt8) :
    ∀ v ∈ Elements.ofBytes p.width data, v < 2 ^ p.bits := by
  intro v hv
  rw [two_pow_bits]
  exact Elements.lt_of_mem_ofBytes hp.width_pos hv

/-! ## One token -/

/-- Of the sentinel a token has the bits that an element holds. -/
theorem Token.bits_mod (p : Rle) (sentinel : Nat) (t : Token) :
    t.bits p (sentinel % 2 ^ p.bits) = t.bits p sentinel := by
  cases t with
  | element v => rfl
  | run v n => rw [Token.bits, Token.bits, field_mod (Nat.le_refl _)]

theorem pushMany_eq (out : Array Nat) (value count : Nat) :
    pushMany out value count = out ++ (List.replicate count value).toArray := by
  induction count generalizing out with
  | zero => simp [pushMany]
  | succ n ih =>
      rw [pushMany, ih, List.replicate_succ, ← List.singleton_append, ← List.append_toArray,
        ← Array.append_assoc]
      rfl

variable {p : Rle} {sentinel declared total : Nat} {out out' : Array Nat} {r r' : BitReader}

/-- A readable token is read off the front. -/
theorem readToken_bits (hp : p.Admissible) (hs : sentinel < 2 ^ p.bits) {t : Token}
    (ht : t.Readable p sentinel) (htotal : total < 2 ^ 32)
    (hfit : out.size + t.count ≤ total) (position : Nat) (rest : List Bool) :
    readToken p sentinel declared total out ⟨position, t.bits p sentinel ++ rest⟩ =
      .ok (out ++ t.expand.toArray, ⟨position + t.cost p, rest⟩) := by
  have hbits := hp.bits_le
  obtain ⟨hv, hc1, hc, hne⟩ := ht
  cases t with
  | element v =>
      simp only [Token.value] at hv
      show (BitReader.read ⟨position, field p.bits v ++ rest⟩ p.bits >>= _) = _
      rw [BitReader.read_field hv hbits]
      simp only [bind, Except.bind, if_pos (hne v rfl), pure, Except.pure, Token.cost]
      simp [Token.expand, Token.count, Token.value]
  | run v n =>
      simp only [Token.value, Token.count] at hv hc1 hc hfit
      simp only [Token.bits, List.append_assoc]
      show (BitReader.read ⟨position, field p.bits sentinel ++ _⟩ p.bits >>= _) = _
      rw [BitReader.read_field hs hbits]
      simp only [bind, Except.bind, ne_eq, not_true_eq_false, if_false]
      rw [BitReader.read_field hv hbits]
      dsimp only
      rw [BitReader.read_field (show n - 1 < 2 ^ p.bits by omega) hbits]
      have hcount : min (n - 1 + 1) (2 ^ 64 - 1) = n := by omega
      dsimp only
      rw [hcount, if_neg (by omega), pushMany_eq]
      simp only [pure, Except.pure, Token.cost, Token.expand, Token.count, Token.value]
      rw [show position + p.bits + p.bits + p.bits = position + 3 * p.bits by omega]

/-- What is read as a token are the bits of a readable one. -/
theorem exists_token_of_readToken (hp : p.Admissible) (htotal : total < 2 ^ 32)
    (hless : out.size < total)
    (h : readToken p sentinel declared total out r = .ok (out', r')) :
    ∃ t : Token, t.Readable p sentinel ∧ r.ahead = t.bits p sentinel ++ r'.ahead ∧
      out' = out ++ t.expand.toArray ∧ out'.size ≤ total := by
  have hbits := hp.bits_le
  unfold readToken at h
  obtain ⟨v, r₁, h₁, h⟩ := BitReader.read_ok_bind h
  obtain ⟨ha₁, hv₁, -⟩ := BitReader.eq_field_of_read hbits h₁
  dsimp only at h
  by_cases hvs : v = sentinel
  · subst hvs
    rw [if_neg (by simp)] at h
    obtain ⟨w, r₂, h₂, h⟩ := BitReader.read_ok_bind h
    obtain ⟨ha₂, hv₂, -⟩ := BitReader.eq_field_of_read hbits h₂
    obtain ⟨short, r₃, h₃, h⟩ := BitReader.read_ok_bind h
    obtain ⟨ha₃, hv₃, -⟩ := BitReader.eq_field_of_read hbits h₃
    split at h
    · simp [throw, throwThe, MonadExceptOf.throw, bind, Except.bind] at h
    · next hfit =>
      simp only [pure, Except.pure, Except.ok.injEq, Prod.mk.injEq] at h
      obtain ⟨rfl, rfl⟩ := h
      -- A run that fits what is missing is far shorter than a machine word counts.
      have hcount : min (short + 1) (2 ^ 64 - 1) = short + 1 := by omega
      rw [hcount] at hfit ⊢
      refine ⟨.run w (short + 1), ⟨hv₂, Nat.succ_pos _, hv₃, fun v h => by cases h⟩, ?_, ?_, ?_⟩
      · rw [ha₁, ha₂, ha₃]
        simp [Token.bits]
      · rw [pushMany_eq]
        rfl
      · rw [pushMany_eq]
        simp only [Array.size_append, List.size_toArray, List.length_replicate]
        omega
  · rw [if_pos hvs] at h
    simp only [pure, Except.pure, Except.ok.injEq, Prod.mk.injEq] at h
    obtain ⟨rfl, rfl⟩ := h
    refine ⟨.element v, ⟨hv₁, Nat.le_refl 1, Nat.two_pow_pos _, ?_⟩, ha₁, ?_, ?_⟩
    · rintro w hw
      cases hw
      exact hvs
    · simp [Token.expand, Token.count, Token.value]
    · rw [Array.size_push]
      exact hless

/-! ## All tokens -/

theorem Token.expand_length (t : Token) : t.expand.length = t.count := List.length_replicate

/-- Readable tokens are read off the front one after the other. -/
theorem readTokens_flatMap (hp : p.Admissible) (hs : sentinel < 2 ^ p.bits) {ts : List Token}
    (hts : ∀ t ∈ ts, t.Readable p sentinel) (htotal : total < 2 ^ 32)
    (hfit : out.size + (ts.flatMap Token.expand).length ≤ total) {left : Nat}
    (hleft : ts.length ≤ left) (position : Nat) (rest : List Bool) :
    readTokens p sentinel declared total left out
        ⟨position, ts.flatMap (Token.bits p sentinel) ++ rest⟩ =
      readTokens p sentinel declared total (left - ts.length)
        (out ++ (ts.flatMap Token.expand).toArray)
        ⟨position + (ts.flatMap (Token.bits p sentinel)).length, rest⟩ := by
  induction ts generalizing out left position with
  | nil => simp
  | cons t ts ih =>
      rw [List.forall_mem_cons] at hts
      rw [List.flatMap_cons, List.length_append, Token.expand_length] at hfit
      obtain ⟨left, rfl⟩ : ∃ n, left = n + 1 := ⟨left - 1, by rw [List.length_cons] at hleft; omega⟩
      have hc := hts.1.count_pos
      rw [readTokens, if_pos (by omega), List.flatMap_cons, List.append_assoc,
        readToken_bits hp hs hts.1 htotal (by omega)]
      dsimp only
      rw [ih hts.2 (by simpa [Token.expand_length, Nat.add_assoc] using hfit)
        (by simpa using hleft), List.length_cons, Nat.add_sub_add_right, List.flatMap_cons,
        List.length_append, Token.length_bits, ← Nat.add_assoc, Array.append_assoc,
        ← List.append_toArray]

/-- Nothing is read once all elements are there. -/
theorem readTokens_of_full (hfull : total ≤ out.size) (left : Nat) :
    readTokens p sentinel declared total left out r = .ok (out, r) := by
  have hge : ¬ out.size < total := Nat.not_lt.2 hfull
  cases left with
  | zero => rw [readTokens, if_neg hge]
  | succ n => rw [readTokens, if_neg hge]

/-- What is read to the end are the bits of readable tokens, and they stand for as many
elements as were missing. -/
theorem exists_tokens_of_readTokens (hp : p.Admissible) (htotal : total < 2 ^ 32)
    (hsize : out.size ≤ total) {left : Nat}
    (h : readTokens p sentinel declared total left out r = .ok (out', r')) :
    ∃ ts : List Token, (∀ t ∈ ts, t.Readable p sentinel) ∧
      r.ahead = ts.flatMap (Token.bits p sentinel) ++ r'.ahead ∧
      out' = out ++ (ts.flatMap Token.expand).toArray ∧ out'.size = total := by
  induction left generalizing out r with
  | zero =>
      unfold readTokens at h
      split at h
      · cases h
      · next hge =>
        cases h
        exact ⟨[], by simp, by simp, by simp, by omega⟩
  | succ left ih =>
      unfold readTokens at h
      split at h
      · next hless =>
        split at h
        · cases h
        · next out₁ r₁ h₁ =>
          obtain ⟨t, ht, hbits, rfl, hle⟩ := exists_token_of_readToken hp htotal hless h₁
          obtain ⟨ts, hts, hrest, rfl, heq⟩ := ih hle h
          refine ⟨t :: ts, List.forall_mem_cons.2 ⟨ht, hts⟩, ?_, ?_, heq⟩
          · rw [hbits, hrest, List.flatMap_cons, List.append_assoc]
          · simp
      · next hge =>
        cases h
        exact ⟨[], by simp, by simp, by simp, by omega⟩

/-! ## Streams -/

/-- The tokens of some data. -/
def tokensOf (p : Rle) (data : List UInt8) : List Token :=
  let values := Elements.ofBytes p.width data
  p.tokens (p.sentinel values) values

/-- The sentinel of some data. -/
def sentinelOf (p : Rle) (data : List UInt8) : Nat :=
  p.sentinel (Elements.ofBytes p.width data)

/-- The bits of the stream of some data. -/
def stream (p : Rle) (data : List UInt8) : List Bool :=
  p.header data.length (p.sentinelOf data) ++
    (p.tokensOf data).flatMap (Token.bits p (p.sentinelOf data))

theorem bits_encodeInto (p : Rle) {w : BitWriter} (h : w.WellFormed) (data : List UInt8) :
    (p.encodeInto w data).WellFormed ∧ (p.encodeInto w data).bits = w.bits ++ p.stream data := by
  obtain ⟨hw, hb⟩ := BitWriter.foldl_append (Token.bits p (p.sentinelOf data)) (p.tokensOf data)
    (BitWriter.wellFormed_append h (p.header data.length (p.sentinelOf data)))
  refine ⟨hw, ?_⟩
  rw [BitWriter.bits_append h, List.append_assoc] at hb
  exact hb

/-- The decoder goes through the tokens of a stream with what it has of the sentinel. -/
theorem decodeFrom_stream (hp : p.Admissible) {data : List UInt8}
    (hsize : data.length < 2 ^ 32) (position : Nat) (rest : List Bool) :
    ∃ at₀, decodeFrom ⟨position, p.stream data ++ rest⟩ =
      (readTokens p (p.sentinelOf data % 2 ^ p.bits) data.length
        (Elements.ofBytes p.width data).length
        ((p.tokensOf data).flatMap (Token.bits p (p.sentinelOf data)) ++ rest).length #[]
        ⟨at₀, (p.tokensOf data).flatMap (Token.bits p (p.sentinelOf data)) ++ rest⟩).map
      fun (out, r) =>
        (p, (out.toList.flatMap (Elements.toBytes p.width)).take data.length, r) := by
  have hwidth : p.width - 1 < 2 ^ 4 := by
    rcases hp with h | h | h | h <;> rw [h] <;> decide
  have hmod : p.sentinelOf data % 2 ^ p.bits < 2 ^ p.bits := Nat.mod_lt _ (Nat.two_pow_pos _)
  refine ⟨position + 4 + 32 + p.bits, ?_⟩
  unfold decodeFrom stream header
  rw [← field_mod (Nat.le_refl p.bits) (p.sentinelOf data)]
  simp only [List.append_assoc, bind, Except.bind]
  rw [BitReader.read_field hwidth (by decide)]
  dsimp only
  rw [Nat.sub_add_cancel hp.width_pos, ofWidth_of_admissible hp]
  dsimp only
  rw [BitReader.read_field hsize (by decide)]
  dsimp only
  rw [BitReader.read_field hmod hp.bits_le, ← Elements.length_ofBytes hp.width_pos]
  dsimp only [BitReader.remaining]
  cases readTokens p (p.sentinelOf data % 2 ^ p.bits) data.length
    (Elements.ofBytes p.width data).length _ #[] _ with
  | error f => rfl
  | ok found => rfl

end EmbeddedBuffers.Codec.Rle
