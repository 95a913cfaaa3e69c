import EmbeddedBuffers.Proofs.Codec.StoredBytes

/-!
# What a reader is asked for

A reader is asked for a number, a bit or bytes. It answers exactly if there are as many bits ahead
as it is asked for, and then moves by just these. Where there are fewer it stays where it was, but
for one case: bytes that do not start at a byte of the data are taken one after the other, and those
that there still are stay taken. Main statement: `take_leaves`.
-/

namespace EmbeddedBuffers.Codec

/-- What one operation puts into a stream, or takes from it. -/
inductive Item
  | number (value count : Nat)
  | bit (b : Bool)
  | bytes (data : List UInt8)
deriving DecidableEq, Repr

namespace Item

/-- Number of bits. -/
def width : Item → Nat
  | .number _ count => count
  | .bit _ => 1
  | .bytes data => 8 * data.length

def bits : Item → List Bool
  | .number value count => field count value
  | .bit b => [b]
  | .bytes data => bytesBits data

/-- A number is no wider than a word. -/
def Narrow : Item → Prop
  | .number _ count => count ≤ 64
  | _ => True

/-- The item as its bits hold it: a number without the bits above its width. -/
def held : Item → Item
  | .number value count => .number (value % 2 ^ count) count
  | i => i

end Item

/-- What one operation asks a reader for. -/
inductive Demand
  | number (count : Nat)
  | bit
  | bytes (count : Nat)
deriving DecidableEq, Repr

namespace Demand

/-- Number of bits that are asked for. -/
def width : Demand → Nat
  | .number count => count
  | .bit => 1
  | .bytes count => 8 * count

/-- A number that is asked for is no wider than a word. -/
def Narrow : Demand → Prop
  | .number count => count ≤ 64
  | _ => True

end Demand

namespace BitReader

/-- A value and the reader behind it, or a fault and the reader as it was. -/
def orStay {α β : Type} (r : BitReader) (f : α → β) :
    Except Fault (α × BitReader) → Except Fault β × BitReader
  | .ok (a, r') => (.ok (f a), r')
  | .error e => (.error e, r)

/-- Meets a demand, and gives the reader that is left, also after a fault. -/
def take (r : BitReader) : Demand → Except Fault Item × BitReader
  | .number count => r.orStay (Item.number · count) (r.read count)
  | .bit => r.orStay Item.bit r.readBit
  | .bytes count => ((r.readBytes count).1.map Item.bytes, (r.readBytes count).2)

/-- Whether a demand is met byte by byte. -/
def InPieces (r : BitReader) : Demand → Prop
  | .bytes _ => r.position % 8 ≠ 0
  | _ => False

/-- The reader `count` bits further on. -/
def advance (r : BitReader) (count : Nat) : BitReader := ⟨r.position + count, r.ahead.drop count⟩

variable {r : BitReader} {count : Nat}

@[simp] theorem position_advance (r : BitReader) (count : Nat) :
    (r.advance count).position = r.position + count := rfl

@[simp] theorem remaining_advance (r : BitReader) (count : Nat) :
    (r.advance count).remaining = r.remaining - count := List.length_drop

theorem advance_advance (r : BitReader) (m n : Nat) :
    (r.advance m).advance n = r.advance (m + n) := by
  unfold advance
  rw [List.drop_drop, Nat.add_assoc]

theorem advance_eq_self : r.advance count = r ↔ count = 0 := by
  constructor
  · intro h
    have hposition := congrArg position h
    rw [position_advance] at hposition
    omega
  · rintro rfl
    rfl

/-! ## Numbers and bits -/

theorem splitAt?_eq_take_drop {α : Type} {xs : List α} (h : count ≤ xs.length) :
    splitAt? count xs = some (xs.take count, xs.drop count) := by
  have hsplit := splitAt?_append (xs.take count) (xs.drop count)
  rwa [List.take_append_drop, List.length_take_of_le h] at hsplit

theorem read_of_le (h : count ≤ r.remaining) :
    r.read count = .ok (bitsValue (r.ahead.take count) % 2 ^ 64, r.advance count) := by
  unfold read
  rw [splitAt?_eq_take_drop h]
  rfl

theorem read_of_lt (h : r.remaining < count) :
    r.read count = .error (.missingBits count r.position r.remaining) := by
  unfold read
  rw [splitAt?_eq_none h]

theorem readBit_of_le (h : 1 ≤ r.remaining) :
    r.readBit = .ok (bitsValue (r.ahead.take 1) % 2 ^ 64 == 1, r.advance 1) := by
  unfold readBit
  rw [read_of_le h]
  rfl

theorem readBit_of_lt (h : r.remaining < 1) :
    r.readBit = .error (.missingBits 1 r.position r.remaining) := by
  unfold readBit
  rw [read_of_lt h]
  rfl

/-! ## Bytes -/

/-- The byte at the front, and those behind it. -/
theorem toBytes_take (bits : List Bool) (hlength : 8 * (count + 1) ≤ bits.length) :
    toBytes (bits.take (8 * (count + 1))) =
      UInt8.ofNat (bitsValue (bits.take 8)) :: toBytes ((bits.drop 8).take (8 * count)) := by
  have hbyte : (bits.take 8).length = 8 := by
    rw [List.length_take]
    omega
  have hsplit : bits.take (8 * (count + 1)) =
      byteBits (UInt8.ofNat (bitsValue (bits.take 8))) ++ (bits.drop 8).take (8 * count) := by
    rw [byteBits_ofNat_bitsValue hbyte, ← List.take_add, Nat.mul_succ, Nat.add_comm]
  rw [hsplit]
  exact toBytes_byteBits _ _

theorem readEach_of_le (h : 8 * count ≤ r.remaining) :
    r.readEach count = (.ok (toBytes (r.ahead.take (8 * count))), r.advance (8 * count)) := by
  induction count generalizing r with
  | zero => rfl
  | succ count ih =>
      have hbyte : bitsValue (r.ahead.take 8) % 2 ^ 64 = bitsValue (r.ahead.take 8) := by
        refine Nat.mod_eq_of_lt (Nat.lt_of_lt_of_le (bitsValue_lt _) ?_)
        exact Nat.pow_le_pow_right (by decide) (Nat.le_trans (List.length_take_le _ _) (by decide))
      unfold readEach
      rw [read_of_le (by omega), hbyte]
      dsimp only
      rw [ih (by rw [remaining_advance]; omega), advance_advance, toBytes_take r.ahead h,
        Nat.mul_succ, Nat.add_comm 8]
      rfl

/-- Bytes that there are not enough of are taken as far as there are. -/
theorem readEach_of_lt (h : r.remaining < 8 * count) :
    r.readEach count = (.error (.missingBits 8 (r.position + 8 * (r.remaining / 8))
      (r.remaining % 8)), r.advance (8 * (r.remaining / 8))) := by
  induction count generalizing r with
  | zero => exact absurd h (Nat.not_lt_zero _)
  | succ count ih =>
      unfold readEach
      by_cases hbyte : 8 ≤ r.remaining
      · have hrest : (r.advance 8).remaining = r.remaining - 8 := remaining_advance r 8
        have hcount : 8 + 8 * ((r.remaining - 8) / 8) = 8 * (r.remaining / 8) := by omega
        rw [read_of_le hbyte]
        dsimp only
        rw [ih (by omega), advance_advance, position_advance, hrest, Nat.add_assoc, hcount,
          show (r.remaining - 8) % 8 = r.remaining % 8 by omega]
        rfl
      · rw [read_of_lt (by omega), Nat.div_eq_of_lt (by omega), Nat.mod_eq_of_lt (by omega)]
        rfl

theorem readBytes_of_le (h : 8 * count ≤ r.remaining) :
    r.readBytes count = (.ok (toBytes (r.ahead.take (8 * count))), r.advance (8 * count)) := by
  unfold readBytes
  split
  · rw [splitAt?_eq_take_drop h]
    rfl
  · exact readEach_of_le h

/-! ## Demands -/

/-- A demand that there are enough bits for. -/
theorem take_of_le {d : Demand} (h : d.width ≤ r.remaining) :
    ∃ i, r.take d = (.ok i, r.advance d.width) := by
  cases d with
  | number count =>
      have h : count ≤ r.remaining := h
      rw [take, read_of_le h]
      exact ⟨_, rfl⟩
  | bit =>
      rw [take, readBit_of_le h]
      exact ⟨_, rfl⟩
  | bytes count =>
      have h : 8 * count ≤ r.remaining := h
      rw [take, readBytes_of_le h]
      exact ⟨_, rfl⟩

/-- A demand that there are too few bits for, and what is left then. -/
theorem take_of_lt {d : Demand} (h : r.remaining < d.width) :
    (∃ f, (r.take d).1 = .error f) ∧ (r.InPieces d →
      (r.take d).2 = r.advance (8 * (r.remaining / 8))) ∧ (¬ r.InPieces d → (r.take d).2 = r) := by
  cases d with
  | number count =>
      have h : r.remaining < count := h
      rw [take, read_of_lt h]
      exact ⟨⟨_, rfl⟩, fun hp => hp.elim, fun _ => rfl⟩
  | bit =>
      rw [take, readBit_of_lt h]
      exact ⟨⟨_, rfl⟩, fun hp => hp.elim, fun _ => rfl⟩
  | bytes count =>
      have h : r.remaining < 8 * count := h
      rw [take, readBytes]
      split
      · next haligned =>
        rw [splitAt?_eq_none h]
        exact ⟨⟨_, rfl⟩, fun hp => absurd haligned hp, fun _ => rfl⟩
      · next hunaligned =>
        rw [readEach_of_lt h]
        exact ⟨⟨_, rfl⟩, fun _ => rfl, fun hp => absurd hunaligned hp⟩

/-- **What is left of a reader.** A demand is met exactly if there are as many bits ahead as it asks
for, and the reader then moves by these. If there are fewer, the reader does not move, unless it
takes bytes one after the other: then it moves by the whole bytes that there are, and stays only if
there is none. -/
theorem take_leaves (r : BitReader) (d : Demand) :
    ((∃ i, (r.take d).1 = .ok i) ↔ d.width ≤ r.remaining) ∧
    (d.width ≤ r.remaining → (r.take d).2.position = r.position + d.width ∧
      (r.take d).2.remaining = r.remaining - d.width) ∧
    (r.remaining < d.width → ¬ r.InPieces d → (r.take d).2 = r) ∧
    (r.remaining < d.width → r.InPieces d →
      (r.take d).2.position = r.position + 8 * (r.remaining / 8) ∧
      (r.take d).2.remaining = r.remaining % 8) ∧
    (r.remaining < d.width → ((r.take d).2 = r ↔ r.InPieces d → r.remaining < 8)) := by
  refine ⟨⟨?_, ?_⟩, ?_, ?_, ?_, ?_⟩
  · rintro ⟨i, hi⟩
    by_contra hfew
    obtain ⟨⟨f, hf⟩, -⟩ := take_of_lt (Nat.lt_of_not_le hfew)
    rw [hi] at hf
    cases hf
  · intro henough
    obtain ⟨i, hi⟩ := take_of_le henough
    exact ⟨i, congrArg Prod.fst hi⟩
  · intro henough
    obtain ⟨i, hi⟩ := take_of_le henough
    rw [hi]
    exact ⟨rfl, remaining_advance r d.width⟩
  · exact fun hfew => (take_of_lt hfew).2.2
  · intro hfew hpieces
    rw [(take_of_lt hfew).2.1 hpieces, remaining_advance]
    exact ⟨rfl, by omega⟩
  · intro hfew
    by_cases hpieces : r.InPieces d
    · rw [(take_of_lt hfew).2.1 hpieces, advance_eq_self]
      constructor
      · intro hzero _
        omega
      · intro hless
        have := hless hpieces
        omega
    · exact iff_of_true ((take_of_lt hfew).2.2 hpieces) fun hp => absurd hp hpieces

/-- Two bytes asked for in the middle of a byte, of which there is one: it stays taken. -/
theorem take_leaves_unaligned :
    (take ⟨4, List.replicate 12 true⟩ (.bytes 2)).1 = .error (.missingBits 8 12 4) ∧
    (take ⟨4, List.replicate 12 true⟩ (.bytes 2)).2.position = 12 ∧
    (take ⟨4, List.replicate 12 true⟩ (.bytes 2)).2.remaining = 4 :=
  ⟨by decide, (take_leaves ⟨4, List.replicate 12 true⟩ (.bytes 2)).2.2.2.1 (by decide)
    (show 4 % 8 ≠ 0 by decide)⟩

end BitReader

end EmbeddedBuffers.Codec
