import EmbeddedBuffers.Proofs.Codec.Decoding

/-!
# What follows a stream

A reader that succeeds does the same where more bits follow: none of them looks further than it
reads. Main statement: `decodeContainer_append`.
-/

namespace EmbeddedBuffers.Codec

namespace BitReader

/-- A reader with more bits at the end. -/
def followedBy (r : BitReader) (tail : List Bool) : BitReader := ⟨r.position, r.ahead ++ tail⟩

variable {r r' : BitReader} {tail : List Bool}

theorem remaining_followedBy (r : BitReader) (tail : List Bool) :
    (r.followedBy tail).remaining = r.remaining + tail.length := List.length_append

theorem splitAt?_append_right {α : Type} {count : Nat} {xs a b : List α}
    (h : splitAt? count xs = some (a, b)) (ys : List α) :
    splitAt? count (xs ++ ys) = some (a, b ++ ys) := by
  induction count generalizing xs a b with
  | zero =>
      cases h
      rfl
  | succ n ih =>
      cases xs with
      | nil => cases h
      | cons x xs =>
          obtain ⟨⟨c, d⟩, hc, heq⟩ := Option.map_eq_some_iff.1 h
          cases heq
          rw [List.cons_append, splitAt?, ih hc]
          rfl

theorem read_followedBy {count n : Nat} (h : r.read count = .ok (n, r')) (tail : List Bool) :
    (r.followedBy tail).read count = .ok (n, r'.followedBy tail) := by
  unfold read at h
  split at h
  · next hs =>
    cases h
    unfold read followedBy
    rw [splitAt?_append_right hs]
  · cases h

theorem readEach_followedBy {count : Nat} {data : List UInt8}
    (h : (r.readEach count).1 = .ok data) (tail : List Bool) :
    ((r.followedBy tail).readEach count).1 = .ok data := by
  induction count generalizing r data with
  | zero => exact h
  | succ count ih =>
      unfold readEach at h ⊢
      cases hr : r.read 8 with
      | error f =>
          rw [hr] at h
          cases h
      | ok a =>
          obtain ⟨n, r'⟩ := a
          rw [hr] at h
          rw [read_followedBy hr]
          dsimp only at h ⊢
          cases hrest : (r'.readEach count).1 with
          | error f =>
              rw [hrest] at h
              cases h
          | ok rest =>
              rw [hrest] at h
              rw [ih hrest]
              exact h

theorem readBytes_followedBy {count : Nat} {data : List UInt8}
    (h : (r.readBytes count).1 = .ok data) (tail : List Bool) :
    ((r.followedBy tail).readBytes count).1 = .ok data := by
  unfold readBytes at h
  split at h
  · next haligned =>
    split at h
    · next hs =>
      have hs' : splitAt? (8 * count) (r.followedBy tail).ahead = _ :=
        splitAt?_append_right hs tail
      unfold readBytes
      rw [if_pos (show (r.followedBy tail).position % 8 = 0 from haligned), hs']
      exact h
    · cases h
  · next haligned =>
    unfold readBytes
    rw [if_neg (show ¬ (r.followedBy tail).position % 8 = 0 from haligned)]
    exact readEach_followedBy h tail

end BitReader

open BitReader

/-! ## LZSS -/

namespace Lzss

variable {p : Lzss} {r r' : BitReader}

theorem readToken_followedBy {declared : Nat} {out out' : Array UInt8}
    (h : readToken p declared out r = .ok (out', r')) (tail : List Bool) :
    readToken p declared out (r.followedBy tail) = .ok (out', r'.followedBy tail) := by
  unfold readToken at h
  split at h
  · cases h
  · next r₁ h₁ =>
    obtain ⟨n, r₂, h₂, h⟩ := read_ok_bind h
    unfold readToken
    rw [read_followedBy h₁]
    show ((r₁.followedBy tail).read 8 >>= _) = _
    rw [read_followedBy h₂]
    cases h
    rfl
  · next n r₁ hn h₁ =>
    obtain ⟨d, r₂, h₂, h⟩ := read_ok_bind h
    obtain ⟨l, r₃, h₃, h⟩ := read_ok_bind h
    unfold readToken
    rw [read_followedBy h₁]
    cases n with
    | zero => exact absurd rfl hn
    | succ n =>
        show ((r₁.followedBy tail).read p.windowBits >>= _) = _
        rw [read_followedBy h₂]
        show ((r₂.followedBy tail).read p.lengthBits >>= _) = _
        rw [read_followedBy h₃]
        simp only [pure, Except.pure, bind, Except.bind] at h ⊢
        split at h
        · cases h
        · next hfar =>
          split at h
          · cases h
          · next hover =>
            cases h
            rw [if_neg hfar, if_neg hover]

theorem readTokens_followedBy {declared : Nat} {out out' : Array UInt8}
    (h : readTokens p declared out r = .ok (out', r')) (tail : List Bool) :
    readTokens p declared out (r.followedBy tail) = .ok (out', r'.followedBy tail) := by
  induction hn : r.remaining using Nat.strongRecOn generalizing out r with
  | ind n ih =>
      unfold readTokens at h
      split at h
      · next hsmall =>
        split at h
        · cases h
        · next out₁ r₁ htoken =>
          have hless := hn ▸ remaining_readToken htoken
          unfold readTokens
          rw [if_pos hsmall]
          split
          · next f hf =>
            rw [readToken_followedBy htoken] at hf
            cases hf
          · next out₂ r₂ h₂ =>
            rw [readToken_followedBy htoken] at h₂
            cases h₂
            exact ih _ hless h rfl
      · next hlarge =>
        cases h
        unfold readTokens
        rw [if_neg hlarge]

theorem decodeFrom_followedBy {data : List UInt8} (h : decodeFrom r = .ok (p, data, r'))
    (tail : List Bool) : decodeFrom (r.followedBy tail) = .ok (p, data, r'.followedBy tail) := by
  unfold decodeFrom at h ⊢
  obtain ⟨w, r₁, h₁, h⟩ := read_ok_bind h
  rw [read_followedBy h₁]
  obtain ⟨l, r₂, h₂, h⟩ := read_ok_bind h
  show ((r₁.followedBy tail).read 5 >>= _) = _
  rw [read_followedBy h₂]
  obtain ⟨m, r₃, h₃, h⟩ := read_ok_bind h
  show ((r₂.followedBy tail).read 3 >>= _) = _
  rw [read_followedBy h₃]
  obtain ⟨declared, r₄, h₄, h⟩ := read_ok_bind h
  show ((r₃.followedBy tail).read 32 >>= _) = _
  rw [read_followedBy h₄]
  simp only [pure, Except.pure, bind, Except.bind] at h ⊢
  cases hp : ofBits w l with
  | error f =>
      rw [hp] at h
      cases h
  | ok q =>
      rw [hp] at h
      dsimp only at h ⊢
      split at h
      · cases h
      · next v hv =>
        obtain ⟨out, r₅⟩ := v
        cases h
        rw [readTokens_followedBy hv]

end Lzss

/-! ## Run lengths -/

namespace Rle

variable {p : Rle} {r r' : BitReader}

theorem readToken_followedBy {sentinel declared total : Nat} {out out' : Array Nat}
    (h : readToken p sentinel declared total out r = .ok (out', r')) (tail : List Bool) :
    readToken p sentinel declared total out (r.followedBy tail) =
      .ok (out', r'.followedBy tail) := by
  unfold readToken at h ⊢
  obtain ⟨v, r₁, h₁, h⟩ := read_ok_bind h
  rw [read_followedBy h₁]
  simp only [pure, Except.pure, bind, Except.bind] at h ⊢
  split at h
  · next hne =>
    cases h
    rw [if_pos hne]
  · next heq =>
    rw [if_neg heq]
    split at h
    · cases h
    · next a ha =>
      rw [read_followedBy ha]
      dsimp only
      split at h
      · cases h
      · next b hb =>
        rw [read_followedBy hb]
        dsimp only
        split at h
        · cases h
        · next hover =>
          cases h
          rw [if_neg hover]

/-- More bits ahead are more tokens that may be read, and these are not needed. -/
theorem readTokens_followedBy {sentinel declared total left left' : Nat} (hleft : left ≤ left')
    {out out' : Array Nat}
    (h : readTokens p sentinel declared total left out r = .ok (out', r')) (tail : List Bool) :
    readTokens p sentinel declared total left' out (r.followedBy tail) =
      .ok (out', r'.followedBy tail) := by
  have hdone : ∀ {left'}, ¬ out.size < total →
      readTokens p sentinel declared total left' out (r.followedBy tail) =
        .ok (out, r.followedBy tail) := by
    intro left' hfull
    cases left' <;> rw [readTokens, if_neg hfull]
  induction left generalizing left' out r with
  | zero =>
      unfold readTokens at h
      split at h
      · cases h
      · next hfull =>
        cases h
        exact hdone hfull
  | succ left ih =>
      unfold readTokens at h
      split at h
      · next hsmall =>
        obtain ⟨left', rfl⟩ := Nat.exists_eq_add_of_le' (Nat.le_trans (Nat.succ_pos left) hleft)
        split at h
        · cases h
        · next out₁ r₁ htoken =>
          rw [readTokens, if_pos hsmall, readToken_followedBy htoken]
          refine ih (Nat.le_of_succ_le_succ hleft) h ?_
          intro left' hfull
          cases left' <;> rw [readTokens, if_neg hfull]
      · next hfull =>
        cases h
        exact hdone hfull

theorem decodeFrom_followedBy {data : List UInt8} (h : decodeFrom r = .ok (p, data, r'))
    (tail : List Bool) : decodeFrom (r.followedBy tail) = .ok (p, data, r'.followedBy tail) := by
  unfold decodeFrom at h ⊢
  obtain ⟨short, r₁, h₁, h⟩ := read_ok_bind h
  rw [read_followedBy h₁]
  simp only [pure, Except.pure, bind, Except.bind] at h ⊢
  cases hp : ofWidth (short + 1) with
  | error f =>
      rw [hp] at h
      cases h
  | ok q =>
      rw [hp] at h
      dsimp only at h ⊢
      split at h
      · cases h
      · next a ha =>
        rw [read_followedBy ha]
        dsimp only
        split at h
        · cases h
        · next b hb =>
          rw [read_followedBy hb]
          dsimp only
          split at h
          · cases h
          · next c hc =>
            obtain ⟨out, r₅⟩ := c
            cases h
            rw [readTokens_followedBy (by rw [remaining_followedBy]; omega) hc]

end Rle

/-! ## Containers -/

theorem decodeBehind_followedBy {id : Nat} {s : Scheme} {data : List UInt8}
    (h : decodeBehind id r = .ok (s, data)) (tail : List Bool) :
    decodeBehind id (r.followedBy tail) = .ok (s, data) := by
  obtain _ | _ | _ | id := id
  · obtain ⟨⟨size, r'⟩, hsize, h⟩ := exists_of_bind_eq_ok h
    obtain ⟨held, hheld, heq⟩ := map_eq_ok.1 h
    cases heq
    rw [decodeBehind, read_followedBy hsize]
    exact map_eq_ok.2 ⟨_, readBytes_followedBy hheld tail, rfl⟩
  · obtain ⟨⟨p, held, r'⟩, hfound, heq⟩ := map_eq_ok.1 h
    cases heq
    rw [decodeBehind, Lzss.decodeFrom_followedBy hfound]
    rfl
  · obtain ⟨⟨p, held, r'⟩, hfound, heq⟩ := map_eq_ok.1 h
    cases heq
    rw [decodeBehind, Rle.decodeFrom_followedBy hfound]
    rfl
  · cases h

/-- **What follows a container does not change what it decodes to.** -/
theorem decodeContainer_append {bytes : List UInt8} {s : Scheme} {data : List UInt8}
    (h : decodeContainer bytes = .ok (s, data)) (more : List UInt8) :
    decodeContainer (bytes ++ more) = .ok (s, data) := by
  obtain ⟨id, ahead, hid, hbits, hbehind⟩ := exists_of_decodeContainer h
  have hmore : bytesBits (bytes ++ more) = field 8 (16 + id) ++ (ahead ++ bytesBits more) := by
    rw [bytesBits, List.flatMap_append, ← bytesBits, hbits, List.append_assoc]
    rfl
  rw [decodeContainer_of_bits hid hmore]
  exact decodeBehind_followedBy hbehind _

end EmbeddedBuffers.Codec
