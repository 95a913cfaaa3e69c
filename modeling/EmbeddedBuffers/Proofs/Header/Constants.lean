import EmbeddedBuffers.Header.Value
import EmbeddedBuffers.Proofs.Header.Recorded

/-!
# Array values as a compiler reads them

The literals of an array, evaluated by the rules of C++ for constants of integer types and converted
to the type of the elements. Two kinds of elements are not read back as they were written: a `bool`
other than zero and one, and an `int64_t` whose magnitude needs all 32 bits of an `unsigned int`,
which the literal then is, so that the sign in front of it is lost. Main statement: `element?_of`.
-/

namespace EmbeddedBuffers.Header

/-! ## Constants -/

/-- A constant expression of an integer type: its value, the width of its type in bits, and whether
the type is signed. -/
structure Constant where
  value : Int
  bits : Nat
  isSigned : Bool
deriving DecidableEq, Repr

namespace Constant

/-- The result of an operation in an integer type: modulo a power of two where the type is
unsigned, and undefined where a signed type does not hold it. -/
def result? (bits : Nat) (isSigned : Bool) (value : Int) : Option Constant :=
  if !isSigned then some ⟨value % 2 ^ bits, bits, false⟩
  else if -2 ^ (bits - 1) ≤ value ∧ value < 2 ^ (bits - 1) then some ⟨value, bits, true⟩
  else none

/-- A hexadecimal literal without a suffix: it has the first type of `int`, `unsigned int` and
those of 64 bits that holds it. -/
def ofHex? (n : Nat) : Option Constant :=
  if n < 2 ^ 31 then some ⟨n, 32, true⟩
  else if n < 2 ^ 32 then some ⟨n, 32, false⟩
  else if n < 2 ^ 63 then some ⟨n, 64, true⟩
  else if n < 2 ^ 64 then some ⟨n, 64, false⟩
  else none

/-- A sign in front of a constant. -/
def neg? (c : Constant) : Option Constant := result? c.bits c.isSigned (-c.value)

/-- A constant less one. The one is an `int`, which every type in question holds. -/
def pred? (c : Constant) : Option Constant := result? c.bits c.isSigned (c.value - 1)

/-- Reads digits behind `0x`. -/
def hex? : List Char → Option Constant
  | '0' :: 'x' :: digits => (Text.digits? 16 digits).bind ofHex?
  | _ => none

/-- Reads a literal with or without a sign. -/
def signed? : List Char → Option Constant
  | '-' :: rest => (hex? rest).bind neg?
  | s => hex? s

/-- Reads the code of a character and the mark behind it. -/
def character? (s : List Char) : Option Constant :=
  if s.dropWhile (· ≠ '\'') = ['\''] then
    (Text.digits? 16 (s.takeWhile (· ≠ '\''))).map fun (n : Nat) => ⟨n, 32, true⟩
  else none

/-- Reads a literal with ` - 1)` behind it. -/
def difference? (s : List Char) : Option Constant :=
  if s.dropWhile (· ≠ ' ') = [' ', '-', ' ', '1', ')'] then
    (signed? (s.takeWhile (· ≠ ' '))).bind pred?
  else none

/-- Reads an array value: `true`, `false`, a character by its code, a literal, or a literal less one
in brackets. -/
def read? : List Char → Option Constant
  | ['t', 'r', 'u', 'e'] => some ⟨1, 32, true⟩
  | ['f', 'a', 'l', 's', 'e'] => some ⟨0, 32, true⟩
  | '\'' :: '\\' :: 'x' :: rest => character? rest
  | '(' :: rest => difference? rest
  | s => signed? s

/-- The element that a constant becomes, as the number of its bits: zero or one for `bool`, and for
the other types what is left modulo the power of two of their width. -/
def element (t : ElementType) (c : Constant) : Nat :=
  match t with
  | .bool => if c.value = 0 then 0 else 1
  | _ => (c.value % 2 ^ (8 * t.width)).toNat

end Constant

/-- The element that an array value initialises. -/
def Value.element? (t : ElementType) (v : Value) : Option Nat :=
  (Constant.read? v.text.toList).map (·.element t)

/-! ## Digits -/

theorem digit?_toUpper_digitChar {d : Nat} (h : d < 16) :
    Text.digit? 16 d.digitChar.toUpper = some d := by
  have hall : ∀ d < 16, Text.digit? 16 d.digitChar.toUpper = some d := by decide
  exact hall d h

theorem digitsFrom?_map_toUpper {s : List Char} (h : ∀ c ∈ s, ∃ d < 16, c = Nat.digitChar d)
    (acc : Nat) : Text.digitsFrom? 16 acc (s.map Char.toUpper) = Text.digitsFrom? 16 acc s := by
  induction s generalizing acc with
  | nil => rfl
  | cons c s ih =>
      obtain ⟨hc, hs⟩ := List.forall_mem_cons.1 h
      obtain ⟨d, hd, rfl⟩ := hc
      rw [List.map_cons, Text.digitsFrom?, Text.digitsFrom?, digit?_toUpper_digitChar hd,
        Text.digit?_digitChar (Nat.le_refl 16) hd]
      exact ih hs _

/-- A number in hexadecimal is read back. -/
theorem digits?_hexUpper (width n : Nat) : Text.digits? 16 (hexUpper width n).toList = some n := by
  have hne : (hexUpper width n).toList ≠ [] := by
    rw [hexUpper, String.toList_ofList]
    exact mt List.map_eq_nil_iff.1 (Text.hexFixed_ne_nil width n)
  rw [Text.digits?, if_neg (by simpa using hne), hexUpper, String.toList_ofList,
    digitsFrom?_map_toUpper fun c => Text.exists_digitChar_of_mem_hexFixed, Text.hexFixed,
    String.toList_ofList, Text.digitsFrom?_replicate_zero,
    Text.digitsFrom?_toDigits (by decide) (by decide)]

/-- Digits end neither at a blank nor at a quotation mark. -/
theorem forall_mem_hexUpper {width n : Nat} :
    ∀ c ∈ (hexUpper width n).toList, c ≠ ' ' ∧ c ≠ '\'' := by
  have hall : ∀ d < 16, (Nat.digitChar d).toUpper ≠ ' ' ∧ (Nat.digitChar d).toUpper ≠ '\'' := by
    decide
  rw [hexUpper, String.toList_ofList]
  intro c hc
  obtain ⟨c', hc', rfl⟩ := List.mem_map.1 hc
  obtain ⟨d, hd, rfl⟩ := Text.exists_digitChar_of_mem_hexFixed hc'
  exact hall d hd

/-! ## Literals -/

section Literals

variable (width n : Nat)

theorem hex?_hexUpper : Constant.hex? ('0' :: 'x' :: (hexUpper width n).toList) =
    Constant.ofHex? n := by
  rw [Constant.hex?, digits?_hexUpper, Option.bind_some]

theorem toList_hexUpper_positive : ("0x" ++ hexUpper width n).toList =
    '0' :: 'x' :: (hexUpper width n).toList := by
  rw [String.toList_append]
  rfl

theorem toList_hexUpper_negative : ("-0x" ++ hexUpper width n).toList =
    '-' :: '0' :: 'x' :: (hexUpper width n).toList := by
  rw [String.toList_append]
  rfl

theorem read?_positive : Constant.read? ("0x" ++ hexUpper width n).toList = Constant.ofHex? n := by
  rw [← hex?_hexUpper width, toList_hexUpper_positive]
  rfl

theorem read?_negative :
    Constant.read? ("-0x" ++ hexUpper width n).toList =
      (Constant.ofHex? n).bind Constant.neg? := by
  rw [← hex?_hexUpper width, toList_hexUpper_negative]
  rfl

theorem read?_least :
    Constant.read? ("(-0x" ++ hexUpper width n ++ " - 1)").toList =
      ((Constant.ofHex? n).bind Constant.neg?).bind Constant.pred? := by
  have htext : ("(-0x" ++ hexUpper width n ++ " - 1)").toList =
      '(' :: (('-' :: '0' :: 'x' :: (hexUpper width n).toList) ++ [' ', '-', ' ', '1', ')']) := by
    rw [String.toList_append, String.toList_append]
    rfl
  have hplain : ∀ c ∈ '-' :: '0' :: 'x' :: (hexUpper width n).toList, decide (c ≠ ' ') = true := by
    simp only [List.forall_mem_cons]
    exact ⟨rfl, rfl, rfl, fun c hc => decide_eq_true (forall_mem_hexUpper c hc).1⟩
  rw [htext]
  show Constant.difference? _ = _
  rw [Constant.difference?, List.dropWhile_append_of_pos hplain,
    List.takeWhile_append_of_pos hplain, if_pos (by rfl), ← hex?_hexUpper width]
  show (Constant.signed? (('-' :: '0' :: 'x' :: (hexUpper width n).toList) ++ [])).bind _ = _
  rw [List.append_nil]
  rfl

theorem read?_character :
    Constant.read? ("'\\x" ++ hexUpper width n ++ "'").toList = some ⟨n, 32, true⟩ := by
  have htext : ("'\\x" ++ hexUpper width n ++ "'").toList =
      '\'' :: '\\' :: 'x' :: ((hexUpper width n).toList ++ ['\'']) := by
    rw [String.toList_append, String.toList_append]
    rfl
  have hplain : ∀ c ∈ (hexUpper width n).toList, decide (c ≠ '\'') = true := fun c hc =>
    decide_eq_true (forall_mem_hexUpper c hc).2
  rw [htext]
  show Constant.character? _ = _
  rw [Constant.character?, List.dropWhile_append_of_pos hplain,
    List.takeWhile_append_of_pos hplain, if_pos (by rfl)]
  show (Text.digits? 16 ((hexUpper width n).toList ++ [])).map _ = _
  rw [List.append_nil, digits?_hexUpper]
  rfl

end Literals

/-! ## Elements -/

/-- An `int64_t` whose magnitude is a literal of type `unsigned int`, given as the number of its
bits. -/
def LosesSign (n : Nat) : Prop := 2 ^ 64 - 2 ^ 32 < n ∧ n ≤ 2 ^ 64 - 2 ^ 31

instance (n : Nat) : Decidable (LosesSign n) := inferInstanceAs (Decidable (_ ∧ _))

/-- What becomes of an element that is written to a header and read by a compiler. -/
def reread (t : ElementType) (n : Nat) : Nat :=
  match t with
  | .bool => min n 1
  | .i64 => if LosesSign n then n - (2 ^ 64 - 2 ^ 32) else n
  | _ => n

/-- An element that a compiler reads as another one. -/
def Lost (t : ElementType) (n : Nat) : Prop :=
  match t with
  | .bool => 2 ≤ n
  | .i64 => LosesSign n
  | _ => False

theorem reread_eq_iff {t : ElementType} {n : Nat} : reread t n = n ↔ ¬ Lost t n := by
  cases t with
  | bool =>
      unfold reread Lost
      dsimp only
      omega
  | i64 =>
      show (if LosesSign n then n - (2 ^ 64 - 2 ^ 32) else n) = n ↔ ¬ LosesSign n
      by_cases h : LosesSign n
      · rw [if_pos h]
        unfold LosesSign at h
        exact ⟨fun _ => by omega, fun hnot => absurd h hnot⟩
      · rw [if_neg h]
        exact ⟨fun _ => h, fun _ => rfl⟩
  | _ => exact ⟨fun _ h => h, fun _ => rfl⟩

/-! ## Elements -/

section Signed

variable {width n : Nat}

theorem exists_ofHex? (h : n < 2 ^ 64) : ∃ c, Constant.ofHex? n = some c ∧ c.value = n := by
  unfold Constant.ofHex?
  by_cases h31 : n < 2 ^ 31
  · exact ⟨_, if_pos h31, rfl⟩
  · rw [if_neg h31]
    by_cases h32 : n < 2 ^ 32
    · exact ⟨_, if_pos h32, rfl⟩
    · rw [if_neg h32]
      by_cases h63 : n < 2 ^ 63
      · exact ⟨_, if_pos h63, rfl⟩
      · rw [if_neg h63]
        exact ⟨_, if_pos h, rfl⟩

/-- The numbers of `int` and those of the signed type of 64 bits that `unsigned int` cannot hold keep
their sign. -/
theorem neg?_ofHex? (h : n < 2 ^ 63) (hword : ¬ (2 ^ 31 ≤ n ∧ n < 2 ^ 32)) :
    ∃ bits, 32 ≤ bits ∧ n < 2 ^ (bits - 1) ∧
      (Constant.ofHex? n).bind Constant.neg? = some ⟨-n, bits, true⟩ := by
  unfold Constant.ofHex?
  by_cases hsmall : n < 2 ^ 31
  · refine ⟨32, by decide, hsmall, ?_⟩
    rw [if_pos hsmall]
    show Constant.result? 32 true (-(n : Int)) = _
    rw [Constant.result?, if_neg (by decide), if_pos (by omega)]
  · refine ⟨64, by decide, h, ?_⟩
    rw [if_neg hsmall, if_neg (by omega), if_pos h]
    show Constant.result? 64 true (-(n : Int)) = _
    rw [Constant.result?, if_neg (by decide), if_pos (by omega)]

/-- A magnitude that `unsigned int` is needed for becomes its complement in 32 bits. -/
theorem neg?_ofHex?_word (hlow : 2 ^ 31 ≤ n) (hhigh : n < 2 ^ 32) :
    (Constant.ofHex? n).bind Constant.neg? = some ⟨2 ^ 32 - n, 32, false⟩ := by
  unfold Constant.ofHex?
  rw [if_neg (by omega), if_pos hhigh]
  show Constant.result? 32 false (-(n : Int)) = _
  rw [Constant.result?, if_pos (by decide)]
  congr 2
  omega

end Signed

section Signed

variable {width n half : Nat}

/-- The three forms of the literal of a signed number, `half` being the magnitude of the least. -/
theorem signedLiteral_eq (hhalf : 2 ^ (8 * width - 1) = half) (hn : n < 2 * half)
    (hdouble : 2 ^ (8 * width) = 2 * half) :
    signedLiteral width n =
      if n < half then "0x" ++ hexUpper (2 * width) n
      else if n = half then "(-0x" ++ hexUpper (2 * width) (half - 1) ++ " - 1)"
      else "-0x" ++ hexUpper (2 * width) (2 * half - n) := by
  have hhalf' : (2 : Int) ^ (8 * width - 1) = half := by exact_mod_cast hhalf
  have hdouble' : (2 : Int) ^ (8 * width) = 2 * half := by exact_mod_cast hdouble
  unfold signedLiteral signedValue
  rw [hhalf, hhalf', hdouble']
  by_cases hlow : n < half
  · rw [if_pos hlow, if_pos hlow, if_neg (by omega), if_neg (by omega)]
    rfl
  · rw [if_neg hlow, if_neg hlow]
    by_cases hleast : n = half
    · have habs : ((n : Int) - 2 * half + 1).natAbs = half - 1 := by omega
      rw [if_pos hleast, if_pos (by omega), habs]
      rfl
    · have habs : ((n : Int) - 2 * half).natAbs = 2 * half - n := by omega
      rw [if_neg hleast, if_neg (by omega), if_pos (by omega), habs]
      rfl

/-- The number of a signed type in two's complement, `half` being the magnitude of the least. -/
theorem signedValue_eq (hhalf : 2 ^ (8 * width - 1) = half) (hdouble : 2 ^ (8 * width) = 2 * half) :
    signedValue width n = if n < half then (n : Int) else n - 2 * half := by
  have hdouble' : (2 : Int) ^ (8 * width) = 2 * half := by exact_mod_cast hdouble
  rw [signedValue, hhalf, hdouble']

theorem signedValue_emod (hhalf : 2 ^ (8 * width - 1) = half)
    (hdouble : 2 ^ (8 * width) = 2 * half) (hn : n < 2 * half) :
    signedValue width n % (2 * half) = n := by
  rw [signedValue_eq hhalf hdouble]
  split
  · exact Int.emod_eq_of_lt (by omega) (by omega)
  · rw [Int.sub_emod_right]
    exact Int.emod_eq_of_lt (by omega) (by omega)

/-- A signed number is read back, but for the numbers of 64 bits that lose their sign. -/
theorem read?_signedLiteral (hhalf : 2 ^ (8 * width - 1) = half)
    (hdouble : 2 ^ (8 * width) = 2 * half) (hn : n < 2 * half)
    (hsizes : half ≤ 2 ^ 31 ∨ half = 2 ^ 63 ∧ ¬ LosesSign n) :
    ∃ c, Constant.read? (signedLiteral width n).toList = some c ∧
      c.value = signedValue width n := by
  unfold LosesSign at hsizes
  rw [signedLiteral_eq hhalf hn hdouble, signedValue_eq hhalf hdouble]
  by_cases hlow : n < half
  · rw [if_pos hlow, if_pos hlow, read?_positive]
    exact exists_ofHex? (by omega)
  · rw [if_neg hlow, if_neg hlow]
    by_cases hleast : n = half
    · obtain ⟨bits, hbits, hfits, hneg⟩ := neg?_ofHex? (n := half - 1) (by omega) (by omega)
      rw [if_pos hleast, read?_least, hneg, Option.bind_some]
      have hvalue : -((half - 1 : Nat) : Int) - 1 = (n : Int) - 2 * half := by omega
      have hfits' : ((half - 1 : Nat) : Int) < 2 ^ (bits - 1) := by exact_mod_cast hfits
      refine ⟨⟨(n : Int) - 2 * half, bits, true⟩, ?_, rfl⟩
      show Constant.result? bits true (-((half - 1 : Nat) : Int) - 1) = _
      rw [Constant.result?, if_neg (by decide), if_pos (by omega), hvalue]
    · obtain ⟨bits, hbits, hfits, hneg⟩ :=
        neg?_ofHex? (n := 2 * half - n) (by omega) (by omega)
      have hvalue : -((2 * half - n : Nat) : Int) = (n : Int) - 2 * half := by omega
      rw [if_neg hleast, read?_negative, hneg, hvalue]
      exact ⟨_, rfl, rfl⟩

/-- A number that loses its sign is read as the complement of its magnitude in 32 bits. -/
theorem read?_signedLiteral_losesSign (h : LosesSign n) :
    Constant.read? (signedLiteral 8 n).toList =
      some ⟨((n - (2 ^ 64 - 2 ^ 32) : Nat) : Int), 32, false⟩ := by
  unfold LosesSign at h
  rw [@signedLiteral_eq 8 n (2 ^ 63) rfl (by omega) rfl, if_neg (by omega), if_neg (by omega),
    read?_negative, neg?_ofHex?_word (by omega) (by omega)]
  congr 2
  omega

end Signed

section Elements

variable {t : ElementType} {n : Nat}

/-- A constant that is a number modulo the power of two of the width initialises that number. -/
theorem element?_eq {v : Value} {c : Constant} (ht : t ≠ .bool)
    (hc : Constant.read? v.text.toList = some c) (hvalue : c.value % 2 ^ (8 * t.width) = n) :
    v.element? t = some n := by
  have helement : c.element t = (c.value % 2 ^ (8 * t.width)).toNat := by
    cases t <;> first | rfl | exact absurd rfl ht
  rw [Value.element?, hc, Option.map_some, helement, hvalue, Int.toNat_natCast]

theorem element?_unsigned (ht : t ≠ .bool) (hn : n < 2 ^ (8 * t.width)) (hsize : n < 2 ^ 64) :
    (⟨"0x" ++ hexUpper (2 * t.width) n, false⟩ : Value).element? t = some n := by
  obtain ⟨c, hc, hvalue⟩ := exists_ofHex? hsize
  refine element?_eq ht ((read?_positive _ n).trans hc) ?_
  rw [hvalue]
  exact Int.emod_eq_of_lt (by omega) (by exact_mod_cast hn)

theorem element?_signed {half : Nat} (ht : t ≠ .bool) (hhalf : 2 ^ (8 * t.width - 1) = half)
    (hdouble : 2 ^ (8 * t.width) = 2 * half) (hn : n < 2 * half)
    (hsizes : half ≤ 2 ^ 31 ∨ half = 2 ^ 63 ∧ ¬ LosesSign n) :
    (⟨signedLiteral t.width n, false⟩ : Value).element? t = some n := by
  obtain ⟨c, hc, hvalue⟩ := read?_signedLiteral hhalf hdouble hn hsizes
  have hdouble' : (2 : Int) ^ (8 * t.width) = 2 * half := by exact_mod_cast hdouble
  exact element?_eq ht hc (by rw [hdouble', hvalue, signedValue_emod hhalf hdouble hn])

/-- **What a compiler reads of an element.** -/
theorem element?_of (ht : t.isFloat = false) (hn : n < 256 ^ t.width) :
    (Value.of t n).element? t = some (reread t n) := by
  cases t with
  | bool =>
      by_cases hzero : n = 0
      · rw [hzero]
        rfl
      · have hone : reread .bool n = 1 := Nat.min_eq_right (Nat.pos_of_ne_zero hzero)
        rw [hone]
        show (Value.mk (if n = 0 then "false" else "true") false).element? .bool = _
        rw [if_neg hzero]
        rfl
  | char =>
      refine element?_eq (by decide) (read?_character 2 n) ?_
      have hn : n < 256 := hn
      show (n : Int) % 256 = n
      omega
  | float => cases ht
  | double => cases ht
  | u8 => exact element?_unsigned (by decide) hn (Nat.lt_trans hn (by decide))
  | u16 => exact element?_unsigned (by decide) hn (Nat.lt_trans hn (by decide))
  | u32 => exact element?_unsigned (by decide) hn (Nat.lt_trans hn (by decide))
  | u64 => exact element?_unsigned (by decide) hn hn
  | i8 => exact element?_signed (by decide) rfl rfl hn (Or.inl (by decide))
  | i16 => exact element?_signed (by decide) rfl rfl hn (Or.inl (by decide))
  | i32 => exact element?_signed (by decide) rfl rfl hn (Or.inl (by decide))
  | i64 =>
      by_cases hlost : LosesSign n
      · have hread : reread .i64 n = n - (2 ^ 64 - 2 ^ 32) := if_pos hlost
        rw [hread]
        show (Constant.read? (signedLiteral 8 n).toList).map _ = _
        rw [read?_signedLiteral_losesSign hlost]
        show some (((n - (2 ^ 64 - 2 ^ 32) : Nat) : Int) % 2 ^ 64).toNat = _
        have hn : n < 2 ^ 64 := hn
        rw [Int.emod_eq_of_lt (by omega) (by omega), Int.toNat_natCast]
      · have hread : reread .i64 n = n := if_neg hlost
        rw [hread]
        exact element?_signed (by decide) rfl rfl hn (Or.inr ⟨rfl, hlost⟩)

end Elements

end EmbeddedBuffers.Header
