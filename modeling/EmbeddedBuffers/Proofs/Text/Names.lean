import EmbeddedBuffers.Text.Blank
import EmbeddedBuffers.Text.Name

/-!
# Characters of names

The characters of names by their codes: they are no blanks, and a name does not start with a
digit.
-/

namespace EmbeddedBuffers.Text

variable {c : Char} {s : List Char}

/-- What holds of the codes below 128 holds of the characters that have them. -/
theorem forall_of_lt {p : Char → Prop} (h : ∀ n < 128, p (Char.ofNat n)) (hc : c.toNat < 128) :
    p c := by
  have hp := h c.toNat hc
  rwa [Char.ofNat_toNat] at hp

/-- The letters by their codes. -/
theorem isAlpha_iff : c.isAlpha = true ↔
    (65 ≤ c.toNat ∧ c.toNat ≤ 90) ∨ (97 ≤ c.toNat ∧ c.toNat ≤ 122) := by
  have h : c.isAlpha = (decide (65 ≤ c.toNat ∧ c.toNat ≤ 90) ||
    (decide (97 ≤ c.toNat) && decide (c.toNat ≤ 122))) := rfl
  rw [h]
  simp only [Bool.or_eq_true, Bool.and_eq_true, decide_eq_true_eq]

/-- The decimal digits by their codes. -/
theorem isDigit_iff : c.isDigit = true ↔ 48 ≤ c.toNat ∧ c.toNat ≤ 57 := by
  have h : c.isDigit = (decide (48 ≤ c.toNat) && decide (c.toNat ≤ 57)) := rfl
  rw [h]
  simp only [Bool.and_eq_true, decide_eq_true_eq]

theorem isNameChar_iff :
    isNameChar c = true ↔ (c.isAlpha = true ∨ c = '_') ∨ c.isDigit = true := by
  simp only [isNameChar, Char.isAlphanum, Bool.or_eq_true, beq_iff_eq]
  exact or_right_comm

theorem lt_of_isNameChar (h : isNameChar c = true) : c.toNat < 128 := by
  rcases isNameChar_iff.1 h with (h | rfl) | h
  · have := isAlpha_iff.1 h
    omega
  · decide
  · have := isDigit_iff.1 h
    omega

/-- No character of a name is a blank. -/
theorem isBlank_of_isNameChar (h : isNameChar c = true) : isBlank c = false := by
  have hall : ∀ n < 128, isNameChar (Char.ofNat n) = true → isBlank (Char.ofNat n) = false := by
    decide
  exact forall_of_lt (p := fun c => isNameChar c = true → isBlank c = false) hall
    (lt_of_isNameChar h) h

/-- A name starts with a letter or an underscore, and characters of names follow. -/
theorem isName_iff : isName s = true ↔
    ∃ c rest, s = c :: rest ∧ c.isDigit = false ∧ ∀ d ∈ s, isNameChar d = true := by
  cases s with
  | nil => simp [isName]
  | cons c s =>
      have hstart : (c.isAlpha || c == '_') = true ↔ c.isDigit = false ∧ isNameChar c = true := by
        rw [isNameChar_iff, Bool.or_eq_true, beq_iff_eq]
        constructor
        · intro h
          refine ⟨?_, Or.inl h⟩
          rw [Bool.eq_false_iff]
          intro hdigit
          have hcode := isDigit_iff.1 hdigit
          rcases h with h | rfl
          · have := isAlpha_iff.1 h
            omega
          · exact absurd hdigit (by decide)
        · rintro ⟨hdigit, h | h⟩
          · exact h
          · rw [hdigit] at h
            cases h
      rw [isName, Bool.and_eq_true, hstart, List.all_eq_true]
      constructor
      · rintro ⟨⟨hdigit, hc⟩, hs⟩
        exact ⟨c, s, rfl, hdigit, List.forall_mem_cons.2 ⟨hc, hs⟩⟩
      · rintro ⟨d, rest, heq, hdigit, hall⟩
        cases heq
        obtain ⟨hc, hs⟩ := List.forall_mem_cons.1 hall
        exact ⟨⟨hdigit, hc⟩, hs⟩

theorem isNameChar_of_isName (h : isName s = true) : ∀ c ∈ s, isNameChar c = true := by
  obtain ⟨-, -, -, -, hall⟩ := isName_iff.1 h
  exact hall

theorem isDigit_of_isName (h : isName (c :: s) = true) : c.isDigit = false := by
  obtain ⟨d, rest, heq, hdigit, -⟩ := isName_iff.1 h
  cases heq
  exact hdigit

end EmbeddedBuffers.Text
