import EmbeddedBuffers.Proofs.Text.Numerals

/-!
# Integers with a sign

Which texts are read as integers. The reader accepts what it is meant for, a literal behind at most
one sign, and beyond that exactly the texts with another plus sign right in front of the digits,
such as `0x+5` and `-+5`: the reader of digits admits a sign of its own, whatever stands before it.
Main statement: `integer?_eq_some_iff`.
-/

namespace EmbeddedBuffers.Text

/-- What stands in front of a literal, and whether it negates: blanks may follow a minus. -/
inductive Front : List Char → Bool → Prop
  | none : Front [] false
  | plus : Front ['+'] false
  | minus {blanks : List Char} (h : ∀ c ∈ blanks, isBlank c = true) : Front ('-' :: blanks) true

/-- A magnitude with its sign. -/
def withSign (negative : Bool) (n : Nat) : Int := if negative then -n else n

/-- An integer as it is to be written: a literal behind at most one sign. -/
def IsInteger (s : List Char) (z : Int) : Prop :=
  ∃ front negative literal n, s = front ++ literal ∧ Front front negative ∧ IsLiteral literal n ∧
    z = withSign negative n

/-- A literal with a plus sign between its lead and its digits. Without a lead the digits are
decimal ones, whatever zeros they start with. -/
def IsPlussed (s : List Char) (n : Nat) : Prop :=
  ∃ radix lead digits marks, s = lead ++ '+' :: digits ++ marks ∧ Lead radix lead ∧
    Numeral radix digits n ∧ (∀ c ∈ marks, isIntegerMark c = true) ∧ n < 2 ^ 64

/-- An integer with a plus sign where none belongs: behind another sign or behind a lead. -/
def HasStrayPlus (s : List Char) (z : Int) : Prop :=
  ∃ front negative literal n, s = front ++ literal ∧ Front front negative ∧
    IsPlussed literal n ∧ (front = [] → literal.head? ≠ some '+') ∧ z = withSign negative n

variable {s front literal : List Char} {negative : Bool} {n : Nat} {z : Int} {c : Char}

/-! ## Magnitudes -/

/-- The reader of digits takes a plus sign in front of them. -/
theorem unsigned?_plus {radix bound : Nat} :
    unsigned? radix bound ('+' :: s) = some n ↔ digits? radix s = some n ∧ n < bound := by
  rw [unsigned?, Option.filter_eq_some_iff, decide_eq_true_eq]

/-- A plus sign is no part of a lead. -/
theorem literalRadix_plus {radix : Nat} {lead : List Char} (hlead : Lead radix lead)
    (digits : List Char) : literalRadix (lead ++ '+' :: digits) = (radix, '+' :: digits) := by
  cases hlead with
  | decimal => rfl
  | octal => rfl
  | hexadecimal h => rcases h with rfl | rfl <;> rfl
  | binary h => rcases h with rfl | rfl <;> rfl

theorem magnitude?_of_isPlussed (h : IsPlussed s n) : magnitude? s = some n := by
  obtain ⟨radix, lead, digits, marks, rfl, hlead, hdigits, hmarks, hlt⟩ := h
  have hlast : ∀ c, (lead ++ '+' :: digits).getLast? = some c → isIntegerMark c = false := by
    intro c hc
    have hmem : c ∈ digits := by
      rw [List.getLast?_append, List.getLast?_cons_of_ne_nil hdigits.ne_nil,
        List.getLast?_eq_some_getLast hdigits.ne_nil] at hc
      cases hc
      exact List.getLast_mem hdigits.ne_nil
    obtain ⟨d, hd⟩ := hdigits.exists_isDigit c hmem
    exact (hd.isNameChar hlead.radix_le).2
  unfold magnitude?
  rw [dropEndWhile_append hmarks hlast, literalRadix_plus hlead]
  exact unsigned?_plus.2 ⟨(digits?_eq_some hlead.radix_le).2 hdigits, hlt⟩

/-- **The reader of magnitudes accepts the literals, and those with a plus sign in them.** -/
theorem magnitude?_eq_some_iff : magnitude? s = some n ↔ IsLiteral s n ∨ IsPlussed s n := by
  refine ⟨fun h => ?_, fun h => h.elim magnitude?_of_isLiteral magnitude?_of_isPlussed⟩
  obtain ⟨marks, hs, hmarks⟩ := exists_dropEndWhile isIntegerMark s
  obtain ⟨lead, hbody, hlead, hzero⟩ := exists_lead (dropEndWhile isIntegerMark s)
  have hunsigned : unsigned? (literalRadix (dropEndWhile isIntegerMark s)).1 (2 ^ 64)
      (literalRadix (dropEndWhile isIntegerMark s)).2 = some n := h
  by_cases hplus : (literalRadix (dropEndWhile isIntegerMark s)).2.head? = some '+'
  · right
    obtain ⟨digits, hdigits⟩ := List.head?_eq_some_iff.1 hplus
    rw [hdigits] at hunsigned hbody
    obtain ⟨hread, hlt⟩ := unsigned?_plus.1 hunsigned
    exact ⟨_, lead, digits, marks, by rw [← hbody, ← hs], hlead,
      (digits?_eq_some hlead.radix_le).1 hread, hmarks, hlt⟩
  · left
    obtain ⟨hread, hlt⟩ := (unsigned?_eq_some hplus).1 hunsigned
    exact ⟨_, lead, _, marks, by rw [← hbody, ← hs], hlead,
      (digits?_eq_some hlead.radix_le).1 hread, hzero, hmarks, hlt⟩

/-- What a magnitude starts with. -/
theorem exists_cons_of_magnitude? (h : magnitude? s = some n) :
    ∃ c rest, s = c :: rest ∧ (c.isDigit = true ∨ c = '+') := by
  rcases magnitude?_eq_some_iff.1 h with h | ⟨radix, lead, digits, marks, rfl, hlead, -, -, -⟩
  · obtain ⟨c, rest, hs, hc⟩ := h.exists_isDigit
    exact ⟨c, rest, hs, Or.inl hc⟩
  · cases hlead with
    | decimal => exact ⟨'+', _, rfl, Or.inr rfl⟩
    | octal => exact ⟨'0', _, rfl, Or.inl rfl⟩
    | hexadecimal => exact ⟨'0', _, rfl, Or.inl rfl⟩
    | binary => exact ⟨'0', _, rfl, Or.inl rfl⟩

/-! ## Signs -/

theorem neg_ofNat (n : Nat) : -Int64.ofNat n = Int64.ofInt (withSign true n) := by
  show _ = Int64.ofInt (-(n : Int))
  rw [Int64.ofInt_neg]
  rfl

/-- An integer is read from its front and the magnitude behind it. -/
theorem integer?_of_front (hs : trim s = front ++ literal) (hfront : Front front negative)
    (hplus : front = [] → literal.head? ≠ some '+') (h : magnitude? literal = some n) :
    integer? s = some (Int64.ofInt (withSign negative n)) := by
  obtain ⟨c, rest, hliteral, hc⟩ := exists_cons_of_magnitude? h
  unfold integer?
  rw [hs]
  cases hfront with
  | none =>
      rw [List.nil_append]
      split
      · cases hliteral
        exact absurd hc (by decide)
      · exact absurd rfl (hplus rfl)
      · rw [h]
        rfl
  | plus =>
      show (magnitude? literal).map _ = _
      rw [h]
      rfl
  | minus hblanks =>
      have hblank : isBlank c = false := by
        rcases hc with hc | rfl
        · exact isBlank_of_isNameChar (isNameChar_iff.2 (Or.inr hc))
        · decide
      have hstart : trimStart (_ ++ literal) = literal :=
        (span_append hblanks fun d hd => by
          rw [hliteral] at hd
          cases hd
          exact hblank).2
      show (magnitude? (trimStart (_ ++ literal))).map _ = _
      rw [hstart, h]
      exact congrArg some (neg_ofNat n)

theorem exists_front_of_integer? {v : Int64} (h : integer? s = some v) :
    ∃ front negative literal n, trim s = front ++ literal ∧ Front front negative ∧
      (front = [] → literal.head? ≠ some '+') ∧ magnitude? literal = some n ∧
      v = Int64.ofInt (withSign negative n) := by
  unfold integer? at h
  split at h
  · next rest htrim =>
    obtain ⟨n, hn, rfl⟩ := Option.map_eq_some_iff.1 h
    refine ⟨'-' :: rest.takeWhile isBlank, true, trimStart rest, n, ?_,
      .minus fun c hc => List.mem_takeWhile_imp hc, fun hnil => (nomatch hnil), hn, ?_⟩
    · rw [htrim, List.cons_append]
      exact congrArg _ List.takeWhile_append_dropWhile.symm
    · exact neg_ofNat n
  · next rest htrim =>
    obtain ⟨n, hn, rfl⟩ := Option.map_eq_some_iff.1 h
    exact ⟨['+'], false, rest, n, htrim, .plus, fun hnil => (nomatch hnil), hn, rfl⟩
  · next hplus =>
    obtain ⟨n, hn, rfl⟩ := Option.map_eq_some_iff.1 h
    refine ⟨[], false, trim s, n, rfl, .none, fun _ hhead => ?_, hn, rfl⟩
    obtain ⟨rest, hrest⟩ := List.head?_eq_some_iff.1 hhead
    exact hplus rest hrest

theorem integer?_of_isInteger (h : IsInteger (trim s) z) :
    integer? s = some (Int64.ofInt z) := by
  obtain ⟨front, negative, literal, n, hs, hfront, hliteral, rfl⟩ := h
  refine integer?_of_front hs hfront (fun _ hhead => ?_) (magnitude?_of_isLiteral hliteral)
  obtain ⟨c, rest, rfl, hc⟩ := hliteral.exists_isDigit
  cases hhead
  exact absurd hc (by decide)

/-! ## Blanks -/

theorem IsLiteral.isBlank (h : IsLiteral s n) : ∀ c ∈ s, Text.isBlank c = false :=
  fun c hc => isBlank_of_isNameChar (h.isNameChar c hc)

theorem IsLiteral.ne_nil (h : IsLiteral s n) : s ≠ [] := by
  obtain ⟨c, rest, rfl, -⟩ := h.exists_isDigit
  exact List.cons_ne_nil c rest

theorem IsInteger.exists_cons (h : IsInteger s z) :
    ∃ c rest, s = c :: rest ∧ (c = '+' ∨ c = '-' ∨ c.isDigit = true) := by
  obtain ⟨front, negative, literal, n, rfl, hfront, hliteral, -⟩ := h
  obtain ⟨c, rest, rfl, hc⟩ := hliteral.exists_isDigit
  cases hfront with
  | none => exact ⟨c, rest, rfl, Or.inr (Or.inr hc)⟩
  | plus => exact ⟨'+', _, rfl, Or.inl rfl⟩
  | minus hblanks => exact ⟨'-', _, rfl, Or.inr (Or.inl rfl)⟩

/-- Blanks stand behind a minus only. -/
theorem IsInteger.trimmed (h : IsInteger s z) : Trimmed s := by
  obtain ⟨front, negative, literal, n, rfl, hfront, hliteral, -⟩ := h
  have htrimmed : Trimmed literal := trimmed_of_all hliteral.isBlank
  cases hfront with
  | none => exact htrimmed
  | plus => exact trimmed_of_all (List.forall_mem_cons.2 ⟨by decide, hliteral.isBlank⟩)
  | minus hblanks =>
      have hminus : Trimmed ['-'] := trimmed_of_all (by decide)
      exact trimmed_append hminus htrimmed (List.cons_ne_nil _ _) hliteral.ne_nil _

theorem squeeze_word (hne : s ≠ []) (h : ∀ c ∈ s, isBlank c = false) : squeeze s = s :=
  show squeeze (spaced [s]) = spaced [s] from
    squeeze_spaced (List.forall_mem_singleton.2 hne) (List.forall_mem_singleton.2 h)

/-- An integer is the same one with its blanks squeezed. -/
theorem IsInteger.squeeze (h : IsInteger s z) : IsInteger (Text.squeeze s) z := by
  obtain ⟨front, negative, literal, n, rfl, hfront, hliteral, rfl⟩ := h
  have hmarked {c : Char} (hc : isBlank c = false) :
      Text.squeeze ([c] ++ literal) = [c] ++ literal :=
    squeeze_word (List.cons_ne_nil _ _) (List.forall_mem_cons.2 ⟨hc, hliteral.isBlank⟩)
  cases hfront with
  | none =>
      rw [List.nil_append, squeeze_word hliteral.ne_nil hliteral.isBlank]
      exact ⟨[], false, literal, n, rfl, .none, hliteral, rfl⟩
  | plus =>
      rw [hmarked (by decide)]
      exact ⟨['+'], false, literal, n, rfl, .plus, hliteral, rfl⟩
  | @minus blanks hblanks =>
      cases blanks with
      | nil =>
          rw [hmarked (by decide)]
          exact ⟨['-'], true, literal, n, rfl, .minus (List.forall_mem_nil _), hliteral, rfl⟩
      | cons b blanks =>
          obtain ⟨hb, hblanks⟩ := List.forall_mem_cons.1 hblanks
          have hwords : words (['-'] ++ b :: (blanks ++ literal)) = [['-'], literal] := by
            rw [words_append_blank (List.cons_ne_nil _ _) (by decide) hb,
              words_blanks_append hblanks, words_word hliteral.ne_nil hliteral.isBlank]
          have hsqueeze : Text.squeeze (['-'] ++ b :: (blanks ++ literal)) =
              ['-', ' '] ++ literal := by
            rw [Text.squeeze, hwords, intercalate_eq_spaced]
            rfl
          show IsInteger (Text.squeeze (['-'] ++ b :: (blanks ++ literal))) _
          rw [hsqueeze]
          exact ⟨['-', ' '], true, literal, n, rfl, .minus (by decide), hliteral, rfl⟩

/-! ## Stray signs -/

theorem IsInteger.plus_not_mem_tail (h : IsInteger s z) : '+' ∉ s.tail := by
  obtain ⟨front, negative, literal, n, rfl, hfront, hliteral, -⟩ := h
  have hplus : '+' ∉ literal := fun hmem => absurd (hliteral.isNameChar '+' hmem) (by decide)
  cases hfront with
  | none => exact fun hmem => hplus (List.mem_of_mem_tail hmem)
  | plus => exact hplus
  | minus hblanks =>
      rw [List.cons_append, List.tail_cons, List.mem_append, not_or]
      exact ⟨fun hmem => absurd (hblanks '+' hmem) (by decide), hplus⟩

theorem HasStrayPlus.plus_mem_tail (h : HasStrayPlus s z) : '+' ∈ s.tail := by
  obtain ⟨front, negative, literal, n, rfl, hfront, hliteral, hplus, -⟩ := h
  obtain ⟨radix, lead, digits, marks, rfl, hlead, -⟩ := hliteral
  have hmem (before : List Char) : '+' ∈ before ++ (lead ++ '+' :: digits ++ marks) := by simp
  cases hfront with
  | none =>
      cases hlead with
      | decimal => exact absurd rfl (hplus rfl)
      | octal => exact List.mem_cons_self
      | hexadecimal => exact List.mem_cons_of_mem _ List.mem_cons_self
      | binary => exact List.mem_cons_of_mem _ List.mem_cons_self
  | plus => exact hmem []
  | minus hblanks => exact hmem _

/-- **Which texts are read as integers, and as which.** After trimming, a text is read exactly if it
is an integer or has a stray plus sign, which no integer has. Its value is taken to a signed word.
-/
theorem integer?_eq_some_iff (s : List Char) :
    (∀ v, integer? s = some v ↔
      ∃ z, (IsInteger (trim s) z ∨ HasStrayPlus (trim s) z) ∧ v = Int64.ofInt z) ∧
    ∀ z z', HasStrayPlus (trim s) z → ¬IsInteger (trim s) z' := by
  refine ⟨fun v => ⟨fun h => ?_, ?_⟩, fun z z' hstray hinteger =>
    hinteger.plus_not_mem_tail hstray.plus_mem_tail⟩
  · obtain ⟨front, negative, literal, n, hs, hfront, hplus, hn, rfl⟩ := exists_front_of_integer? h
    refine ⟨_, ?_, rfl⟩
    rcases magnitude?_eq_some_iff.1 hn with hliteral | hliteral
    · exact Or.inl ⟨front, negative, literal, n, hs, hfront, hliteral, rfl⟩
    · exact Or.inr ⟨front, negative, literal, n, hs, hfront, hliteral, hplus, rfl⟩
  · rintro ⟨z, ⟨front, negative, literal, n, hs, hfront, hliteral, rfl⟩ |
      ⟨front, negative, literal, n, hs, hfront, hliteral, hplus, rfl⟩, rfl⟩
    · exact integer?_of_isInteger ⟨front, negative, literal, n, hs, hfront, hliteral, rfl⟩
    · exact integer?_of_front hs hfront hplus (magnitude?_of_isPlussed hliteral)

/-- A sign behind the lead of a hexadecimal literal. -/
theorem integer?_eq_some_iff_hexadecimal :
    integer? "0x+5".toList = some 5 ∧ ∀ z, ¬IsInteger "0x+5".toList z := by
  have hliteral : IsPlussed "0x+5".toList 5 :=
    ⟨16, ['0', 'x'], ['5'], [], rfl, .hexadecimal (.inl rfl), .digit ⟨by decide, .inl rfl⟩,
      by decide, by decide⟩
  have hstray : HasStrayPlus (trim "0x+5".toList) 5 :=
    ⟨[], false, _, 5, rfl, .none, hliteral, fun _ => by decide, rfl⟩
  exact ⟨((integer?_eq_some_iff "0x+5".toList).1 5).2 ⟨5, .inr hstray, rfl⟩,
    fun z => (integer?_eq_some_iff "0x+5".toList).2 5 z hstray⟩

end EmbeddedBuffers.Text
