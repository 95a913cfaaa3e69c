import EmbeddedBuffers.Codec.Bits

/-!
# Bit streams as lists of bits

A writer and a reader meet in the list of bits between them. Here every operation is said
on that list alone: a write appends the bits of its field, finishing adds zeros, and a read
takes the bits of a field off the front. Round trips of whole streams need nothing else
about bytes.
-/

namespace EmbeddedBuffers.Codec

/-! ## Fields and numbers -/

/-- The bits before a list weigh what its length shifts them by. -/
theorem bitsFrom_eq (high : Nat) (bits : List Bool) :
    bitsFrom high bits = high * 2 ^ bits.length + bitsValue bits := by
  unfold bitsValue
  suffices h : ∀ low, bitsFrom (high + low) bits = high * 2 ^ bits.length + bitsFrom low bits by
    simpa using h 0
  induction bits generalizing high with
  | nil =>
      intro low
      simp [bitsFrom]
  | cons b bits ih =>
      intro low
      have hsplit : 2 * (high + low) + b.toNat = 2 * high + (2 * low + b.toNat) := by omega
      show bitsFrom (2 * (high + low) + b.toNat) bits =
        _ + bitsFrom (2 * low + b.toNat) bits
      rw [hsplit, ih, List.length_cons, Nat.pow_succ]
      congr 1
      rw [Nat.mul_comm 2 high, Nat.mul_assoc, Nat.mul_comm 2]

theorem bitsValue_cons (b : Bool) (bits : List Bool) :
    bitsValue (b :: bits) = b.toNat * 2 ^ bits.length + bitsValue bits := by
  rw [← bitsFrom_eq]
  simp [bitsValue, bitsFrom]

theorem bitsValue_lt (bits : List Bool) : bitsValue bits < 2 ^ bits.length := by
  induction bits with
  | nil => decide
  | cons b bits ih =>
      have hb : b.toNat * 2 ^ bits.length ≤ 2 ^ bits.length := by
        cases b <;> simp
      rw [bitsValue_cons, List.length_cons, Nat.pow_succ]
      omega

/-- A field reads back as its value modulo the power of two of its width. -/
theorem bitsValue_field (count value : Nat) :
    bitsValue (field count value) = value % 2 ^ count := by
  induction count with
  | zero => simp [field, bitsValue, bitsFrom, Nat.mod_one]
  | succ n ih =>
      rw [field, bitsValue_cons, ih, length_field, Nat.toNat_testBit, Nat.pow_succ,
        Nat.mod_mul, Nat.mul_comm, Nat.add_comm]

theorem bitsValue_field_of_lt {count value : Nat} (h : value < 2 ^ count) :
    bitsValue (field count value) = value := by
  rw [bitsValue_field, Nat.mod_eq_of_lt h]

/-- A field holds nothing but the low bits of its value. -/
theorem field_mod {count m : Nat} (h : count ≤ m) (value : Nat) :
    field count (value % 2 ^ m) = field count value := by
  induction count with
  | zero => rfl
  | succ n ih =>
      rw [field, field, ih (by omega), Nat.testBit_mod_two_pow]
      simp [show n < m from h]

/-- The number of a list of bits, written as wide as the list, is the list. -/
theorem field_bitsValue (bits : List Bool) : field bits.length (bitsValue bits) = bits := by
  induction bits with
  | nil => rfl
  | cons b bits ih =>
      have hlt := bitsValue_lt bits
      have hlow : field bits.length (b.toNat * 2 ^ bits.length + bitsValue bits) = bits := by
        rw [← field_mod (Nat.le_refl _), Nat.mul_add_mod_self_right, field_mod (Nat.le_refl _), ih]
      rw [bitsValue_cons, List.length_cons, field, hlow, Nat.mul_comm,
        Nat.testBit_two_pow_mul_add _ hlt]
      cases b <;> simp

theorem byteBits_ofNat_bitsValue {bits : List Bool} (h : bits.length = 8) :
    byteBits (UInt8.ofNat (bitsValue bits)) = bits := by
  have hlt := bitsValue_lt bits
  rw [h] at hlt
  rw [byteBits, UInt8.toNat_ofNat_of_lt' hlt]
  simpa [h] using field_bitsValue bits

theorem bytesBits_append (a b : List UInt8) : bytesBits (a ++ b) = bytesBits a ++ bytesBits b :=
  List.flatMap_append

@[simp] theorem length_bytesBits (data : List UInt8) : (bytesBits data).length = 8 * data.length := by
  induction data with
  | nil => rfl
  | cons b data ih =>
      rw [bytesBits, List.flatMap_cons, List.length_append, length_byteBits, ← bytesBits, ih,
        List.length_cons]
      omega

/-! ## Writing -/

namespace BitWriter

/-- The byte that is open lacks at least one bit. -/
def WellFormed (w : BitWriter) : Prop := w.pending.length < 8

theorem wellFormed_empty : empty.WellFormed := Nat.zero_lt_succ 7

theorem wellFormed_push (w : BitWriter) (b : Bool) : (w.push b).WellFormed := by
  unfold push WellFormed
  dsimp only
  split
  · assumption
  · exact Nat.zero_lt_succ 7

theorem bits_push {w : BitWriter} (h : w.WellFormed) (b : Bool) :
    (w.push b).bits = w.bits ++ [b] := by
  unfold push bits
  dsimp only
  split
  · rw [List.append_assoc]
  · next hfull =>
    have hlen : (w.pending ++ [b]).length = 8 := by
      unfold WellFormed at h
      simp only [List.length_append, List.length_singleton] at hfull ⊢
      omega
    rw [List.reverse_cons, bytesBits_append, List.append_nil, List.append_assoc]
    show _ ++ (byteBits _ ++ []) = _
    rw [byteBits_ofNat_bitsValue hlen, List.append_nil]

theorem wellFormed_append {w : BitWriter} (h : w.WellFormed) (bits : List Bool) :
    (w.append bits).WellFormed := by
  induction bits generalizing w with
  | nil => exact h
  | cons b bits ih => exact ih (wellFormed_push w b)

theorem bits_append {w : BitWriter} (h : w.WellFormed) (bits : List Bool) :
    (w.append bits).bits = w.bits ++ bits := by
  induction bits generalizing w with
  | nil => simp [append]
  | cons b bits ih =>
      show ((w.push b).append bits).bits = _
      rw [ih (wellFormed_push w b), bits_push h, List.append_assoc, List.singleton_append]

theorem wellFormed_write {w : BitWriter} (h : w.WellFormed) (value count : Nat) :
    (w.write value count).WellFormed := wellFormed_append h _

/-- A write appends its field. -/
theorem bits_write {w : BitWriter} (h : w.WellFormed) (value count : Nat) :
    (w.write value count).bits = w.bits ++ field count value := bits_append h _

theorem bitLength_eq (w : BitWriter) : w.bitLength = w.bits.length := by
  simp [bitLength, bits]

/-- Appending pieces one after the other appends them all. -/
theorem foldl_append {α : Type} (f : α → List Bool) (xs : List α) {w : BitWriter}
    (h : w.WellFormed) :
    (xs.foldl (fun w x => w.append (f x)) w).WellFormed ∧
      (xs.foldl (fun w x => w.append (f x)) w).bits = w.bits ++ xs.flatMap f := by
  induction xs generalizing w with
  | nil => exact ⟨h, by simp⟩
  | cons x xs ih =>
      obtain ⟨hw, hb⟩ := ih (wellFormed_append h (f x))
      refine ⟨hw, ?_⟩
      rw [List.foldl_cons, hb, bits_append h, List.flatMap_cons, List.append_assoc]

/-- Writes one field after the other, each a value and its width. -/
def writeAll (w : BitWriter) (fields : List (Nat × Nat)) : BitWriter :=
  fields.foldl (fun w f => w.write f.1 f.2) w

theorem wellFormed_writeAll {w : BitWriter} (h : w.WellFormed) (fields : List (Nat × Nat)) :
    (w.writeAll fields).WellFormed :=
  (foldl_append (fun f : Nat × Nat => field f.2 f.1) fields h).1

/-- Number of zeros that fill up the last byte. -/
def padding (w : BitWriter) : Nat := (8 - w.pending.length) % 8

/-- The finished stream is what was written, and zeros for less than a byte. -/
theorem bytesBits_finish {w : BitWriter} (h : w.WellFormed) :
    bytesBits w.finish = w.bits ++ List.replicate w.padding false := by
  unfold finish padding
  by_cases hp : w.pending = []
  · simp [hp, bits]
  · have hpos : 0 < w.pending.length := List.length_pos_iff.2 hp
    unfold WellFormed at h
    have hlen : (w.pending ++ List.replicate (8 - w.pending.length) false).length = 8 := by
      rw [List.length_append, List.length_replicate]
      omega
    simp only [List.isEmpty_iff, hp, if_false]
    rw [List.reverse_cons, bytesBits_append]
    show _ ++ (byteBits _ ++ []) = _
    rw [byteBits_ofNat_bitsValue hlen, List.append_nil, ← List.append_assoc, bits,
      Nat.mod_eq_of_lt (by omega)]

theorem padding_lt (w : BitWriter) : w.padding < 8 := Nat.mod_lt _ (by decide)

end BitWriter

/-! ## Reading -/

namespace BitReader

theorem splitAt?_append {α : Type} (xs ys : List α) :
    splitAt? xs.length (xs ++ ys) = some (xs, ys) := by
  induction xs with
  | nil => rfl
  | cons x xs ih => simp [splitAt?, ih]

theorem splitAt?_eq_none {α : Type} {count : Nat} {xs : List α} (h : xs.length < count) :
    splitAt? count xs = none := by
  induction count generalizing xs with
  | zero => simp at h
  | succ n ih =>
      cases xs with
      | nil => rfl
      | cons x xs =>
          rw [splitAt?, ih (by simpa using h)]
          rfl

/-- The reader of some bytes after the bits of a piece that they start with. -/
def afterBits (data : List UInt8) (count : Nat) : BitReader :=
  ⟨count, (bytesBits data).drop count⟩

/-- A field at the front is read as its value. -/
theorem read_field {count value : Nat} (hv : value < 2 ^ count) (hc : count ≤ 64)
    (position : Nat) (rest : List Bool) :
    read ⟨position, field count value ++ rest⟩ count = .ok (value, ⟨position + count, rest⟩) := by
  have hs := splitAt?_append (field count value) rest
  rw [length_field] at hs
  have h64 : value < 2 ^ 64 := Nat.lt_of_lt_of_le hv (Nat.pow_le_pow_right (by decide) hc)
  simp only [read, hs, bitsValue_field_of_lt hv, Nat.mod_eq_of_lt h64]

/-- A read that succeeds takes a field off the front. -/
theorem eq_field_of_read {r r' : BitReader} {count value : Nat} (hc : count ≤ 64)
    (h : r.read count = .ok (value, r')) :
    r.ahead = field count value ++ r'.ahead ∧ value < 2 ^ count ∧
      r'.position = r.position + count := by
  unfold read at h
  split at h
  · next bits ahead hs =>
    simp only [Except.ok.injEq, Prod.mk.injEq] at h
    obtain ⟨happ, hlen⟩ := splitAt?_eq hs
    have hlt := bitsValue_lt bits
    rw [hlen] at hlt
    have h64 : bitsValue bits < 2 ^ 64 :=
      Nat.lt_of_lt_of_le hlt (Nat.pow_le_pow_right (by decide) hc)
    rw [Nat.mod_eq_of_lt h64] at h
    obtain ⟨rfl, rfl⟩ := h
    refine ⟨?_, hlt, rfl⟩
    rw [← hlen, field_bitsValue, happ]
  · simp at h

end BitReader

end EmbeddedBuffers.Codec
