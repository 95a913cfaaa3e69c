import EmbeddedBuffers.Proofs.Codec.Accepted

/-!
# Reading under guard

A machine that checks every step it takes: a byte of the input is looked up by its place, sums and
differences have to fit their words, and what is appended has to stay inside a limit. A check that
fails is a breach. A run under guard refines one without if it breaches nothing and ends in the
same way. Main statement: reading bits does (`refines_read`).

The number of bits of the input is taken as a number that the machine can count, since the input
stands in its memory. Everything else that is counted, copied or looked up comes from the input.
-/

namespace EmbeddedBuffers.Codec

/-- What a machine cannot do. -/
inductive Breach
  /-- To look at a place behind the end, or to write there. -/
  | outside (place size : Nat)
  /-- To hold a number that is too great for its word, or less than zero. -/
  | overflow
  /-- To go on with a loop that should have ended. -/
  | endless
deriving DecidableEq, Repr

/-- A run under guard ends with a breach, a fault of the input, or a value. -/
abbrev Guarded (α : Type) := ExceptT Fault (Except Breach) α

namespace Guarded

variable {α β γ δ : Type}

def breach (b : Breach) : Guarded α := ExceptT.mk (.error b)

def require (c : Prop) [Decidable c] (b : Breach) : Guarded Unit :=
  if c then pure () else breach b

/-- A number in a word of `width` bits. -/
def word (width n : Nat) : Guarded Nat := do
  require (n < 2 ^ width) .overflow
  return n

/-- A difference that must not be less than zero. -/
def difference (a b : Nat) : Guarded Nat := do
  require (b ≤ a) .overflow
  return a - b

/-- The element at a place. -/
def fetch (xs : Array α) (place : Nat) : Guarded α :=
  if h : place < xs.size then pure xs[place] else breach (.outside place xs.size)

/-- Appends an element to what must not become longer than `limit`. -/
def append (limit : Nat) (xs : Array α) (x : α) : Guarded (Array α) := do
  require (xs.size < limit) (.outside xs.size limit)
  return xs.push x

theorem require_bind {c : Prop} [Decidable c] (h : c) (b : Breach) (k : Unit → Guarded α) :
    (require c b >>= k) = k () := by
  rw [require, if_pos h]
  rfl

theorem word_bind {width n : Nat} (h : n < 2 ^ width) (k : Nat → Guarded α) :
    (word width n >>= k) = k n := by
  rw [word, require_bind h]
  rfl

theorem difference_bind {a b : Nat} (h : b ≤ a) (k : Nat → Guarded α) :
    (difference a b >>= k) = k (a - b) := by
  rw [difference, require_bind h]
  rfl

theorem fetch_bind {xs : Array α} {place : Nat} (h : place < xs.size) (k : α → Guarded β) :
    (fetch xs place >>= k) = k xs[place] := by
  rw [fetch, dif_pos h]
  rfl

theorem append_eq {limit : Nat} {xs : Array α} (h : xs.size < limit) (x : α) :
    append limit xs x = pure (xs.push x) := by
  rw [append, require_bind h]

/-! ## Runs with and without guard -/

/-- The run under guard breaches nothing and ends as the other one does, with values that are
related to each other. -/
inductive Refines (R : α → β → Prop) : Guarded α → Except Fault β → Prop
  | fault (f : Fault) : Refines R (throw f) (.error f)
  | value {a : α} {b : β} (h : R a b) : Refines R (pure a) (.ok b)

/-- Steps that refine each other may be put behind runs that do. -/
theorem Refines.bind {R : α → β → Prop} {S : γ → δ → Prop} {g : Guarded α} {x : Except Fault β}
    {k : α → Guarded γ} {l : β → Except Fault δ} (h : Refines R g x)
    (hstep : ∀ a b, R a b → x = .ok b → Refines S (k a) (l b)) :
    Refines S (g >>= k) (x >>= l) := by
  cases h with
  | fault f => exact .fault f
  | @value a b hab => exact hstep a b hab rfl

theorem Refines.adapt {R : α → β → Prop} {g : Guarded α} {x : Except Fault β}
    (h : Refines R g x) (f : Fault → Fault) : Refines R (ExceptT.adapt f g) (x.mapError f) := by
  cases h with
  | fault e => exact .fault (f e)
  | value h => exact .value h

/-- A run that has only one way to end. -/
theorem run_of_refines {g : Guarded α} {x : Except Fault α} (h : Refines Eq g x) :
    g.run = .ok x := by
  cases h with
  | fault f => rfl
  | value h =>
      cases h
      rfl

/-- Values that need no guard. -/
theorem refines_lift (x : Except Fault α) : Refines Eq (ExceptT.mk (.ok x)) x := by
  cases x with
  | error f => exact .fault f
  | ok a => exact .value rfl

/-! ## Bits -/

/-- The reader of some bytes at a place among their bits. -/
def readerAt (data : Array UInt8) (place : Nat) : BitReader :=
  ⟨place, (bytesBits data.toList).drop place⟩

/-- What is read under guard, with the place behind it, and what a reader reads, with the reader
behind it. -/
inductive Reads (data : Array UInt8) : α × Nat → α × BitReader → Prop
  | mk (a : α) {place : Nat} (h : place ≤ 8 * data.size) :
      Reads data (a, place) (a, readerAt data place)

/-- Takes `left` more bits from a place on, at most those of one byte at a time. `value` is the
number that the bits before them denote. A byte is shifted by less than its width, a word too. -/
def readFrom (data : Array UInt8) (place value left : Nat) : Guarded (Nat × Nat) :=
  if _h : 0 < left then do
    let byte ← fetch data (place / 8)
    let available := 8 - place % 8
    let take := min available left
    let shift ← difference available take
    require (shift < 8 ∧ take < 64) .overflow
    let value ← word 64 (value * 2 ^ take + byte.toNat / 2 ^ shift % 2 ^ take)
    require (place + take ≤ 8 * data.size) (.outside (place + take) (8 * data.size))
    readFrom data (place + take) value (left - take)
  else pure (value, place)
termination_by left
decreasing_by omega

/-- Takes `count` bits from a place on. -/
def read (data : Array UInt8) (place count : Nat) : Guarded (Nat × Nat) :=
  let remaining := 8 * data.size - place
  if remaining < count then throw (.missingBits count place remaining)
  else readFrom data place 0 count

theorem drop_field (count k value : Nat) :
    (field count value).drop k = field (count - k) value := by
  induction count generalizing k with
  | zero => simp [field]
  | succ n ih =>
      cases k with
      | zero => rfl
      | succ k => rw [field, List.drop_succ_cons, ih, Nat.add_sub_add_right]

theorem take_field {count k : Nat} (h : k ≤ count) (value : Nat) :
    (field count value).take k = field k (value / 2 ^ (count - k)) := by
  induction k generalizing count with
  | zero => rfl
  | succ k ih =>
      obtain ⟨n, rfl⟩ := Nat.exists_eq_add_of_le' (Nat.le_trans (Nat.succ_pos k) h)
      rw [field, List.take_succ_cons, ih (Nat.le_of_succ_le_succ h), Nat.add_sub_add_right, field,
        Nat.testBit_div_two_pow, Nat.add_sub_cancel' (Nat.le_of_succ_le_succ h)]

/-- From a place on come the bits left of its byte and those of the bytes behind it. -/
theorem drop_bytesBits {data : List UInt8} {place : Nat} (h : place / 8 < data.length) :
    (bytesBits data).drop place =
      field (8 - place % 8) (data[place / 8]).toNat ++ bytesBits (data.drop (place / 8 + 1)) := by
  have hsplit : data = data.take (place / 8) ++ data[place / 8] :: data.drop (place / 8 + 1) := by
    rw [List.getElem_cons_drop, List.take_append_drop]
  have hbits : bytesBits data = bytesBits (data.take (place / 8)) ++
      (byteBits data[place / 8] ++ bytesBits (data.drop (place / 8 + 1))) := by
    conv_lhs => rw [hsplit]
    rw [bytesBits_append]
    rfl
  have hfront : (bytesBits (data.take (place / 8))).length = 8 * (place / 8) := by
    rw [length_bytesBits, List.length_take_of_le (Nat.le_of_lt h)]
  have hmod := Nat.mod_lt place (show 0 < 8 by decide)
  rw [hbits, List.drop_append, List.drop_eq_nil_of_le (by omega), List.nil_append, hfront,
    show place - 8 * (place / 8) = place % 8 by omega,
    List.drop_append_of_le_length (by rw [length_byteBits]; omega), byteBits, drop_field]

/-- Between two bytes, the bits ahead are those of the bytes ahead. -/
theorem drop_bytesBits_of_aligned {data : List UInt8} {place : Nat} (haligned : place % 8 = 0)
    (h : place ≤ 8 * data.length) :
    (bytesBits data).drop place = bytesBits (data.drop (place / 8)) := by
  have hfront : (bytesBits (data.take (place / 8))).length = place := by
    rw [length_bytesBits, List.length_take_of_le (by omega)]
    omega
  conv_lhs => rw [← List.take_append_drop (place / 8) data, bytesBits_append]
  exact List.drop_left' hfront

theorem remaining_readerAt (data : Array UInt8) (place : Nat) :
    (readerAt data place).remaining = 8 * data.size - place := by
  rw [BitReader.remaining, readerAt, List.length_drop, length_bytesBits, Array.length_toList]

/-- Bits from a place on are those of a piece of its byte and those behind the piece. -/
theorem take_drop_bytesBits {data : List UInt8} {place piece left : Nat}
    (h : place / 8 < data.length) (hbyte : piece ≤ 8 - place % 8) (hleft : piece ≤ left) :
    ((bytesBits data).drop place).take left =
      field piece (data[place / 8].toNat / 2 ^ (8 - place % 8 - piece)) ++
        ((bytesBits data).drop (place + piece)).take (left - piece) := by
  rw [← take_field hbyte data[place / 8].toNat, ← List.drop_drop, drop_bytesBits h]
  conv_lhs => rw [← Nat.add_sub_cancel' hleft]
  rw [List.take_add, List.take_append_of_le_length (by rwa [length_field])]

/-- A number that has room for all the bits left has room for the next of them. -/
theorem fits_piece {value chunk piece left : Nat} (hchunk : chunk < 2 ^ piece)
    (hleft : piece ≤ left) (h : (value + 1) * 2 ^ left ≤ 2 ^ 64) :
    (value * 2 ^ piece + chunk + 1) * 2 ^ (left - piece) ≤ 2 ^ 64 := by
  have hpow : 2 ^ left = 2 ^ piece * 2 ^ (left - piece) := by
    rw [← Nat.pow_add, Nat.add_sub_cancel' hleft]
  refine Nat.le_trans ?_ h
  rw [hpow, ← Nat.mul_assoc, Nat.add_mul value, Nat.one_mul]
  exact Nat.mul_le_mul_right _ (by omega)

/-- Taking bits by pieces of bytes gives the number that they denote. -/
theorem readFrom_eq {data : Array UInt8} {place value left : Nat}
    (hinside : place + left ≤ 8 * data.size) (hfits : (value + 1) * 2 ^ left ≤ 2 ^ 64) :
    readFrom data place value left =
      pure (bitsFrom value (((bytesBits data.toList).drop place).take left), place + left) := by
  -- A turn takes the bits up to the end of a byte, so the bits left get fewer by more than one, and
  -- that the number fits its word has to hold for what is left, not only at the end.
  induction hn : left using Nat.strongRecOn generalizing place value left with
  | ind n ih =>
      subst hn
      unfold readFrom
      split
      · next hleft =>
        have hbyte : place / 8 < data.size := by omega
        have hmod := Nat.mod_lt place (show 0 < 8 by decide)
        rw [fetch_bind hbyte]
        dsimp only
        generalize htake : min (8 - place % 8) left = take
        generalize hchunk : data[place / 8].toNat / 2 ^ (8 - place % 8 - take) % 2 ^ take = chunk
        have hlt : chunk < 2 ^ take := hchunk ▸ Nat.mod_lt _ (Nat.two_pow_pos take)
        have hvalue := fits_piece hlt (show take ≤ left by omega) hfits
        have hword : value * 2 ^ take + chunk < 2 ^ 64 :=
          Nat.lt_of_lt_of_le (Nat.lt_succ_self _)
            (Nat.le_trans (Nat.le_mul_of_pos_right _ (Nat.two_pow_pos _)) hvalue)
        rw [difference_bind (by omega), require_bind (by omega), hchunk, word_bind hword,
          require_bind (by omega), ih (left - take) (by omega) (by omega) hvalue rfl]
        have hbits := take_drop_bytesBits (show place / 8 < data.toList.length by simpa using hbyte)
          (show take ≤ 8 - place % 8 by omega) (show take ≤ left by omega)
        rw [Array.getElem_toList] at hbits
        rw [hbits]
        unfold bitsFrom
        rw [List.foldl_append]
        show _ = pure (bitsFrom (bitsFrom value _) _, _)
        rw [bitsFrom_eq value, length_field, bitsValue_field, hchunk]
        congr 2
        omega
      · next hleft =>
        have hzero : left = 0 := by omega
        subst hzero
        rfl

/-- Bits are read inside the input, and their number fits its word. -/
theorem refines_read {data : Array UInt8} {place count : Nat} (hplace : place ≤ 8 * data.size)
    (hcount : count ≤ 64) :
    Refines (Reads data) (read data place count) ((readerAt data place).read count) := by
  have hremaining := remaining_readerAt data place
  have hpow : 2 ^ count ≤ 2 ^ 64 := Nat.pow_le_pow_right (by decide) hcount
  unfold read BitReader.read
  dsimp only
  split
  · next hless =>
    rw [BitReader.splitAt?_eq_none (by rw [← BitReader.remaining, hremaining]; exact hless),
      hremaining]
    exact .fault _
  · next henough =>
    have hsplit := BitReader.splitAt?_append ((readerAt data place).ahead.take count)
      ((readerAt data place).ahead.drop count)
    have htaken : ((readerAt data place).ahead.take count).length = count := by
      rw [List.length_take_of_le]
      rw [← BitReader.remaining, hremaining]
      omega
    rw [List.take_append_drop, htaken] at hsplit
    have hvalue := bitsValue_lt ((readerAt data place).ahead.take count)
    rw [htaken] at hvalue
    rw [hsplit, readFrom_eq (by omega) (by rwa [Nat.zero_add, Nat.one_mul])]
    dsimp only
    rw [Nat.mod_eq_of_lt (Nat.lt_of_lt_of_le hvalue hpow)]
    have hrest :
        (readerAt data place).ahead.drop count = (readerAt data (place + count)).ahead := by
      rw [readerAt, readerAt, List.drop_drop]
    rw [hrest]
    exact .value (.mk _ (by omega))

end Guarded

end EmbeddedBuffers.Codec
