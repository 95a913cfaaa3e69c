/-!
# UTF-8 with errors

Reading text from bytes that may not be UTF-8: a stretch that starts like a character and
breaks off, or a byte that starts none, reads as one replacement character.
-/

namespace EmbeddedBuffers.Text

/-- What is read in the place of broken bytes. -/
def replacement : Char := '\ufffd'

/-- Reads the `count` bytes that complete a character, the first of them between `low` and
`high`; `value` is the number read so far. -/
def completeChar : (count : Nat) → (low high value : Nat) → List UInt8 → Char × List UInt8
  | 0, _, _, value, rest => (Char.ofNat value, rest)
  | _ + 1, _, _, _, [] => (replacement, [])
  | count + 1, low, high, value, b :: rest =>
    if low ≤ b.toNat ∧ b.toNat ≤ high then
      completeChar count 0x80 0xBF (value * 64 + b.toNat % 64) rest
    else (replacement, b :: rest)

/-- Reads the character that a byte starts, and what follows it. -/
def readChar (first : UInt8) (rest : List UInt8) : Char × List UInt8 :=
  let n := first.toNat
  if n < 0x80 then (Char.ofNat n, rest)
  else if n < 0xC2 then (replacement, rest)
  else if n < 0xE0 then completeChar 1 0x80 0xBF (n % 32) rest
  else if n = 0xE0 then completeChar 2 0xA0 0xBF (n % 16) rest
  else if n = 0xED then completeChar 2 0x80 0x9F (n % 16) rest
  else if n < 0xF0 then completeChar 2 0x80 0xBF (n % 16) rest
  else if n = 0xF0 then completeChar 3 0x90 0xBF (n % 8) rest
  else if n < 0xF4 then completeChar 3 0x80 0xBF (n % 8) rest
  else if n = 0xF4 then completeChar 3 0x80 0x8F (n % 8) rest
  else (replacement, rest)

theorem length_completeChar_le (count low high value : Nat) (s : List UInt8) :
    (completeChar count low high value s).2.length ≤ s.length := by
  fun_induction completeChar count low high value s with
  | case1 => exact Nat.le_refl _
  | case2 => exact Nat.le_refl _
  | case3 _ _ _ _ _ _ _ ih => exact Nat.le_trans ih (Nat.le_succ _)
  | case4 => exact Nat.le_refl _

theorem length_readChar_le (first : UInt8) (rest : List UInt8) :
    (readChar first rest).2.length ≤ rest.length := by
  unfold readChar
  dsimp only
  repeat' split
  all_goals first | exact length_completeChar_le _ _ _ _ _ | exact Nat.le_refl _

/-- The text that some bytes hold. -/
def decodeLossy (bytes : List UInt8) : List Char :=
  match bytes with
  | [] => []
  | b :: rest => (readChar b rest).1 :: decodeLossy (readChar b rest).2
termination_by bytes.length
decreasing_by
  have := length_readChar_le b rest
  simp only [List.length_cons]
  omega

end EmbeddedBuffers.Text
