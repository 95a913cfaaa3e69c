import EmbeddedBuffers.Proofs.Header.ReadingBack

/-!
# What literals denote

The literals of an array of integers or characters, as a compiler evaluates them: each is a number
of its type, and in two's complement these numbers are the bytes that were written, zeros filling up
the last one. Only an `int64_t` may come out as another number of its type. As texts, the literals
tell apart all data that differ in more than zeros at the end. Main statement: `values_denote`.
-/

namespace EmbeddedBuffers.Header

open Elements (twosComplement)

/-- The number that an array value denotes. A character is of type `char`, which is signed on some
machines and not on others. -/
def Value.denoted? (charSigned : Bool) (v : Value) : Option Int :=
  (Constant.read? v.text.toList).map fun c =>
    if v.text.toList.head? = some '\'' ∧ charSigned then c.value.bmod (2 ^ 8) else c.value

/-- The numbers of a type. -/
def InRange (charSigned : Bool) (t : ElementType) (z : Int) : Prop :=
  if t.isSigned ∨ t = .char ∧ charSigned then
    -2 ^ (8 * t.width - 1) ≤ z ∧ z < 2 ^ (8 * t.width - 1)
  else 0 ≤ z ∧ z < 2 ^ (8 * t.width)

/-! ## Literals as texts -/

theorem hexUpper_inj {width m n : Nat} (h : hexUpper width m = hexUpper width n) : m = n := by
  have hdigits := digits?_hexUpper width m
  rw [h, digits?_hexUpper] at hdigits
  exact (Option.some.inj hdigits).symm

section Signed

variable {width half m n : Nat}

/-- The first character of a literal tells the sign of its number, and the least number. -/
theorem head?_signedLiteral (hhalf : 2 ^ (8 * width - 1) = half)
    (hdouble : 2 ^ (8 * width) = 2 * half) (hn : n < 2 * half) :
    (signedLiteral width n).toList.head? =
      some (if n < half then '0' else if n = half then '(' else '-') := by
  rw [signedLiteral_eq hhalf hn hdouble]
  split
  · rw [toList_hexUpper_positive]
    rfl
  · split
    · rw [String.toList_append, String.toList_append]
      rfl
    · rw [toList_hexUpper_negative]
      rfl

theorem signedLiteral_inj (hhalf : 2 ^ (8 * width - 1) = half)
    (hdouble : 2 ^ (8 * width) = 2 * half) (hm : m < 2 * half) (hn : n < 2 * half)
    (h : signedLiteral width m = signedLiteral width n) : m = n := by
  have hhead := head?_signedLiteral hhalf hdouble hm
  rw [h, head?_signedLiteral hhalf hdouble hn, Option.some.injEq] at hhead
  rw [signedLiteral_eq hhalf hm hdouble, signedLiteral_eq hhalf hn hdouble] at h
  -- Numbers of different signs differ in the first character, and those of one sign in the digits.
  by_cases hlow : m < half
  · rw [if_pos hlow] at hhead h
    have hlow' : n < half := by
      by_contra hnot
      rw [if_neg hnot] at hhead
      split at hhead <;> exact absurd hhead (by decide)
    rw [if_pos hlow', String.append_right_inj] at h
    exact hexUpper_inj h
  · rw [if_neg hlow] at hhead h
    have hlow' : ¬ n < half := by
      intro hless
      rw [if_pos hless] at hhead
      split at hhead <;> exact absurd hhead (by decide)
    rw [if_neg hlow'] at hhead h
    by_cases hleast : m = half
    · rw [if_pos hleast] at hhead
      split at hhead
      · omega
      · exact absurd hhead (by decide)
    · rw [if_neg hleast] at hhead h
      split at hhead
      · exact absurd hhead (by decide)
      · next hleast' =>
        rw [if_neg hleast', String.append_right_inj] at h
        have hmagnitude := hexUpper_inj h
        omega

end Signed

/-- Different elements have different literals. -/
theorem Value.of_inj {t : ElementType} (hfloat : t.isFloat = false) (hbool : t ≠ .bool) {m n : Nat}
    (hm : m < 256 ^ t.width) (hn : n < 256 ^ t.width)
    (h : (Value.of t m).text = (Value.of t n).text) : m = n := by
  cases t with
  | bool => exact absurd rfl hbool
  | float => cases hfloat
  | double => cases hfloat
  | char =>
      have hchar := read?_character 2 m
      have hsame : "'\\x" ++ hexUpper 2 m ++ "'" = "'\\x" ++ hexUpper 2 n ++ "'" := h
      rw [hsame, read?_character 2 n] at hchar
      injection hchar with hconstant
      injection hconstant with hvalue
      omega
  | u8 | u16 | u32 | u64 => exact hexUpper_inj ((String.append_right_inj _).1 h)
  | i8 | i16 | i32 | i64 => exact signedLiteral_inj rfl rfl hm hn h

/-! ## Literals as numbers -/

section Denoted

variable {charSigned : Bool} {t : ElementType} {n : Nat}

theorem denoted?_eq {v : Value} {c : Constant} (hread : Constant.read? v.text.toList = some c)
    (hhead : v.text.toList.head? ≠ some '\'') : v.denoted? charSigned = some c.value := by
  rw [Value.denoted?, hread, Option.map_some, if_neg fun h => hhead h.1]

/-- What an array value is to denote: a number of its type, with the bits of an element. -/
def Denotes (charSigned : Bool) (t : ElementType) (v : Value) (n : Nat) : Prop :=
  ∃ z, v.denoted? charSigned = some z ∧ InRange charSigned t z ∧
    (z % 2 ^ (8 * t.width)).toNat = n

theorem denotes_unsigned (hunsigned : ¬ (t.isSigned ∨ t = .char ∧ charSigned))
    (hn : n < 2 ^ (8 * t.width)) (hsize : n < 2 ^ 64) :
    Denotes charSigned t ⟨"0x" ++ hexUpper (2 * t.width) n, false⟩ n := by
  obtain ⟨c, hc, hvalue⟩ := exists_ofHex? hsize
  have hn' : (n : Int) < 2 ^ (8 * t.width) := by exact_mod_cast hn
  refine ⟨c.value, denoted?_eq ((read?_positive _ n).trans hc) ?_, ?_, ?_⟩
  · rw [toList_hexUpper_positive]
    exact mt Option.some.inj (by decide)
  · rw [InRange, if_neg hunsigned, hvalue]
    exact ⟨Int.natCast_nonneg n, hn'⟩
  · rw [hvalue, Int.emod_eq_of_lt (Int.natCast_nonneg n) hn', Int.toNat_natCast]

/-- A number in two's complement is one of its type. -/
theorem inRange_signedValue {half : Nat} (hsigned : t.isSigned ∨ t = .char ∧ charSigned)
    (hhalf : 2 ^ (8 * t.width - 1) = half) (hdouble : 2 ^ (8 * t.width) = 2 * half)
    (hn : n < 2 * half) : InRange charSigned t (signedValue t.width n) ∧
      (signedValue t.width n % 2 ^ (8 * t.width)).toNat = n := by
  have hhalf' : (2 : Int) ^ (8 * t.width - 1) = half := by exact_mod_cast hhalf
  have hdouble' : (2 : Int) ^ (8 * t.width) = 2 * half := by exact_mod_cast hdouble
  constructor
  · rw [InRange, if_pos hsigned, signedValue_eq hhalf hdouble, hhalf']
    split <;> omega
  · rw [hdouble', signedValue_emod hhalf hdouble hn, Int.toNat_natCast]

theorem head?_signedLiteral_ne {half : Nat} (hhalf : 2 ^ (8 * t.width - 1) = half)
    (hdouble : 2 ^ (8 * t.width) = 2 * half) (hn : n < 2 * half) :
    (signedLiteral t.width n).toList.head? ≠ some '\'' := by
  rw [head?_signedLiteral hhalf hdouble hn]
  split
  · decide
  · split <;> decide

theorem denotes_signed {half : Nat} (hsigned : t.isSigned) (hhalf : 2 ^ (8 * t.width - 1) = half)
    (hdouble : 2 ^ (8 * t.width) = 2 * half) (hn : n < 2 * half)
    (hsizes : half ≤ 2 ^ 31 ∨ half = 2 ^ 63 ∧ ¬ LosesSign n) :
    Denotes charSigned t ⟨signedLiteral t.width n, false⟩ n := by
  obtain ⟨c, hc, hvalue⟩ := read?_signedLiteral hhalf hdouble hn hsizes
  have hsign : t.isSigned ∨ t = .char ∧ charSigned := Or.inl hsigned
  obtain ⟨hrange, hbits⟩ := inRange_signedValue hsign hhalf hdouble hn
  refine ⟨c.value, denoted?_eq hc (head?_signedLiteral_ne hhalf hdouble hn), ?_, ?_⟩
  · rwa [hvalue]
  · rwa [hvalue]

theorem denotes_character (hn : n < 256) :
    Denotes charSigned .char ⟨"'\\x" ++ hexUpper 2 n ++ "'", false⟩ n := by
  have hhead : ("'\\x" ++ hexUpper 2 n ++ "'").toList.head? = some '\'' := by
    rw [String.toList_append, String.toList_append]
    rfl
  have hbmod : -2 ^ 7 ≤ (n : Int).bmod (2 ^ 8) ∧ (n : Int).bmod (2 ^ 8) < 2 ^ 7 ∧
      ((n : Int).bmod (2 ^ 8) % 2 ^ 8).toNat = n := by
    rw [Int.bmod_def]
    omega
  have hread := read?_character 2 n
  have hnonneg := Int.natCast_nonneg n
  have hless : (n : Int) < 2 ^ 8 := by omega
  cases charSigned with
  | false =>
      refine ⟨n, ?_, ?_, congrArg Int.toNat (Int.emod_eq_of_lt hnonneg hless)⟩
      · rw [Value.denoted?, hhead, hread, Option.map_some, if_neg fun h => absurd h.2 (by decide)]
      · rw [InRange, if_neg (by simp [ElementType.isSigned])]
        exact ⟨hnonneg, hless⟩
  | true =>
      refine ⟨(n : Int).bmod (2 ^ 8), ?_, ?_, hbmod.2.2⟩
      · rw [Value.denoted?, hhead, hread, Option.map_some, if_pos ⟨rfl, rfl⟩]
      · rw [InRange, if_pos (Or.inr ⟨rfl, rfl⟩)]
        exact ⟨hbmod.1, hbmod.2.1⟩

/-- **What a literal denotes.** It is a number of its type, that of the element but for those of
type `int64_t` that lose their sign. -/
theorem denotes_of (hfloat : t.isFloat = false) (hbool : t ≠ .bool) (hn : n < 256 ^ t.width) :
    Denotes charSigned t (Value.of t n) (reread t n) := by
  cases t with
  | bool => exact absurd rfl hbool
  | float => cases hfloat
  | double => cases hfloat
  | char => exact denotes_character hn
  | u8 => exact denotes_unsigned (by simp [ElementType.isSigned]) hn (Nat.lt_trans hn (by decide))
  | u16 => exact denotes_unsigned (by simp [ElementType.isSigned]) hn (Nat.lt_trans hn (by decide))
  | u32 => exact denotes_unsigned (by simp [ElementType.isSigned]) hn (Nat.lt_trans hn (by decide))
  | u64 => exact denotes_unsigned (by simp [ElementType.isSigned]) hn hn
  | i8 => exact denotes_signed rfl rfl rfl hn (Or.inl (by decide))
  | i16 => exact denotes_signed rfl rfl rfl hn (Or.inl (by decide))
  | i32 => exact denotes_signed rfl rfl rfl hn (Or.inl (by decide))
  | i64 =>
      have hn : n < 2 ^ 64 := hn
      by_cases hlost : LosesSign n
      · have hreread : reread .i64 n = n - (2 ^ 64 - 2 ^ 32) := if_pos hlost
        have hread := read?_signedLiteral_losesSign hlost
        have hhead := @head?_signedLiteral_ne .i64 n (2 ^ 63) rfl rfl hn
        unfold LosesSign at hlost
        refine ⟨_, denoted?_eq (v := Value.of .i64 n) hread hhead, ?_, ?_⟩
        · show -2 ^ 63 ≤ ((n - (2 ^ 64 - 2 ^ 32) : Nat) : Int) ∧
            ((n - (2 ^ 64 - 2 ^ 32) : Nat) : Int) < 2 ^ 63
          omega
        · show (((n - (2 ^ 64 - 2 ^ 32) : Nat) : Int) % 2 ^ 64).toNat = _
          rw [hreread]
          omega
      · have hreread : reread .i64 n = n := if_neg hlost
        rw [hreread]
        exact denotes_signed rfl rfl rfl hn (Or.inr ⟨rfl, hlost⟩)

end Denoted

/-! ## Arrays -/

/-- Elements that are written as literals come back as numbers with their bits. -/
theorem exists_mapM_denoted? (charSigned : Bool) {t : ElementType} (hfloat : t.isFloat = false)
    (hbool : t ≠ .bool) {elements : List Nat} (h : ∀ n ∈ elements, n < 256 ^ t.width) :
    ∃ zs, (elements.map (Value.of t)).mapM (Value.denoted? charSigned) = some zs ∧
      (∀ z ∈ zs, InRange charSigned t z) ∧
      zs.flatMap (twosComplement t.width) =
        elements.flatMap fun n => Elements.toBytes t.width (reread t n) := by
  induction elements with
  | nil => exact ⟨[], rfl, fun _ hz => absurd hz List.not_mem_nil, rfl⟩
  | cons n elements ih =>
      obtain ⟨hn, helements⟩ := List.forall_mem_cons.1 h
      have hdenotes : Denotes charSigned t (Value.of t n) (reread t n) := denotes_of hfloat hbool hn
      obtain ⟨z, hz, hrange, hbits⟩ := hdenotes
      obtain ⟨zs, hzs, hranges, hbytes⟩ := ih helements
      refine ⟨z :: zs, ?_, List.forall_mem_cons.2 ⟨hrange, hranges⟩, ?_⟩
      · rw [List.map_cons, List.mapM_cons, hz, hzs]
        rfl
      · rw [List.flatMap_cons, List.flatMap_cons, hbytes, twosComplement, hbits]

theorem elements_eq_of_text_eq {t : ElementType} (hfloat : t.isFloat = false) (hbool : t ≠ .bool)
    {xs ys : List Nat} (hx : ∀ n ∈ xs, n < 256 ^ t.width) (hy : ∀ n ∈ ys, n < 256 ^ t.width)
    (h : xs.map (fun n => (Value.of t n).text) = ys.map fun n => (Value.of t n).text) :
    xs = ys := by
  induction xs generalizing ys with
  | nil => exact (List.map_eq_nil_iff.1 h.symm).symm
  | cons x xs ih =>
      cases ys with
      | nil => cases h
      | cons y ys =>
          obtain ⟨hx, hxs⟩ := List.forall_mem_cons.1 hx
          obtain ⟨hy, hys⟩ := List.forall_mem_cons.1 hy
          obtain ⟨hhead, hrest⟩ := List.cons_eq_cons.1 h
          rw [Value.of_inj hfloat hbool hx hy hhead, ih hxs hys hrest]

/-- Data with the same literals differ only in zeros at the end. -/
theorem data_eq_of_text_eq {t : ElementType} (hfloat : t.isFloat = false) (hbool : t ≠ .bool)
    {data data' : List UInt8}
    (h : (values t data).map Value.text = (values t data').map Value.text) :
    ∃ pad < t.width, ∃ pad' < t.width,
      data ++ List.replicate pad 0 = data' ++ List.replicate pad' 0 := by
  rw [values, values, List.map_map, List.map_map] at h
  have helements := elements_eq_of_text_eq hfloat hbool
    (fun n => Elements.lt_of_mem_ofBytes t.width_pos)
    (fun n => Elements.lt_of_mem_ofBytes t.width_pos) h
  obtain ⟨pad, hpad, hbytes⟩ := Elements.flatMap_toBytes_ofBytes t.width_pos data
  obtain ⟨pad', hpad', hbytes'⟩ := Elements.flatMap_toBytes_ofBytes t.width_pos data'
  exact ⟨pad, hpad, pad', hpad', by rw [← hbytes, ← hbytes', helements]⟩

/-- **The literals of an array denote its bytes.** There is one for every element that the data fill
up or begin, and each is a number of its type. In two's complement these are the data and zeros for
less than an element, exactly if none is an `int64_t` that loses its sign. Data with the same
literals differ only in such zeros. -/
theorem values_denote {t : ElementType} (hfloat : t.isFloat = false) (hbool : t ≠ .bool)
    (charSigned : Bool) (data : List UInt8) :
    (values t data).length = (data.length + t.width - 1) / t.width ∧
    (∃ zs, (values t data).mapM (Value.denoted? charSigned) = some zs ∧
      (∀ z ∈ zs, InRange charSigned t z) ∧
      zs.flatMap (twosComplement t.width) = ((Elements.ofBytes t.width data).flatMap
        fun n => Elements.toBytes t.width (reread t n)) ∧
      ((∃ pad < t.width, zs.flatMap (twosComplement t.width) = data ++ List.replicate pad 0) ↔
        ∀ n ∈ Elements.ofBytes t.width data, ¬ (t = .i64 ∧ LosesSign n))) ∧
    ∀ data', (values t data).map Value.text = (values t data').map Value.text →
      ∃ pad < t.width, ∃ pad' < t.width,
        data ++ List.replicate pad 0 = data' ++ List.replicate pad' 0 := by
  have hlost : ∀ n, Lost t n ↔ t = .i64 ∧ LosesSign n := by
    intro n
    cases t <;> simp_all [Lost]
  have hlt : ∀ n ∈ Elements.ofBytes t.width data, n < 256 ^ t.width :=
    fun n hn => Elements.lt_of_mem_ofBytes t.width_pos hn
  obtain ⟨zs, hzs, hranges, hbytes⟩ := exists_mapM_denoted? charSigned hfloat hbool hlt
  simp only [← hlost]
  refine ⟨?_, ⟨zs, hzs, hranges, hbytes, ?_⟩, fun data' => data_eq_of_text_eq hfloat hbool⟩
  · rw [values, List.length_map, Elements.length_ofBytes t.width_pos]
  · rw [hbytes]
    constructor
    · rintro ⟨pad, -, h⟩
      exact kept_of_array_eq h
    · exact array_eq_of_kept

/-- A negative `int64_t` whose literal is an `unsigned int`. -/
theorem values_denote_unsignedInt :
    ElementType.isFloat .i64 = false ∧ ElementType.i64 ≠ .bool ∧
    ∃ zs, (values .i64 [255, 255, 255, 255, 0x61, 0x5A, 0x17, 0xC3]).mapM (Value.denoted? true) =
        some zs ∧
      zs.flatMap (twosComplement 8) = [0, 0, 0, 0, 0x61, 0x5A, 0x17, 0xC3] := by
  obtain ⟨-, ⟨zs, hzs, -, hbytes, -⟩, -⟩ := values_denote (t := .i64) rfl (by decide) true
    [255, 255, 255, 255, 0x61, 0x5A, 0x17, 0xC3]
  refine ⟨rfl, by decide, zs, hzs, hbytes.trans ?_⟩
  decide +kernel

end EmbeddedBuffers.Header
