import Mathlib.Data.List.Basic
import Mathlib.Data.List.Induction
import EmbeddedBuffers.Proofs.Header.Recorded
import EmbeddedBuffers.Proofs.Text.Trimming
import EmbeddedBuffers.Text.Integer
import EmbeddedBuffers.Text.Name

/-!
# Shapes of integer literals

What an integer literal is, said by the shapes it has: a lead that names the radix, digits, and
marks behind. The reader of magnitudes accepts exactly these and gives their values, and a sign
in front negates them. Main statements: `digits?_eq_some`, `magnitude?_eq_some` and
`integer?_of_isSigned`.
-/

namespace EmbeddedBuffers.Text

/-- A digit and its value; letters stand in either case. -/
def IsDigit (radix : Nat) (c : Char) (d : Nat) : Prop :=
  d < radix ∧ (c = d.digitChar ∨ c = d.digitChar.toUpper)

/-- A non-empty run of digits and the number that it denotes. -/
inductive Numeral (radix : Nat) : List Char → Nat → Prop
  | digit {c : Char} {d : Nat} (hc : IsDigit radix c d) : Numeral radix [c] d
  | snoc {s : List Char} {c : Char} {n d : Nat} (hs : Numeral radix s n) (hc : IsDigit radix c d) :
      Numeral radix (s ++ [c]) (n * radix + d)

/-- What stands before the digits of a literal, by its radix. -/
inductive Lead : Nat → List Char → Prop
  | decimal : Lead 10 []
  | octal : Lead 8 ['0']
  | hexadecimal {x : Char} (h : x = 'x' ∨ x = 'X') : Lead 16 ['0', x]
  | binary {b : Char} (h : b = 'b' ∨ b = 'B') : Lead 2 ['0', b]

/-- An unsigned literal and its value, which 64 bits hold. A zero before other decimal digits
would make them octal. -/
def IsLiteral (s : List Char) (n : Nat) : Prop :=
  ∃ radix lead digits marks, s = lead ++ digits ++ marks ∧ Lead radix lead ∧
    Numeral radix digits n ∧ (radix = 10 → digits.head? = some '0' → digits = ['0']) ∧
    (∀ c ∈ marks, isIntegerMark c = true) ∧ n < 2 ^ 64

/-- A literal with at most one sign in front and blanks around it. -/
def IsSigned (s : List Char) (z : Int) : Prop :=
  ∃ before sign digits after n, s = before ++ (sign ++ digits) ++ after ∧ IsLiteral digits n ∧
    (∀ c ∈ before, isBlank c = true) ∧ (∀ c ∈ after, isBlank c = true) ∧
    (sign = [] ∧ z = n ∨ sign = ['+'] ∧ z = n ∨ sign = ['-'] ∧ z = -n)

variable {radix n d : Nat} {s : List Char} {c : Char}

/-! ## Digits -/

theorem digit?_of_isDigit (hradix : radix ≤ 16) (h : IsDigit radix c d) :
    digit? radix c = some d := by
  have hupper : ∀ radix ≤ 16, ∀ d < radix, digit? radix d.digitChar.toUpper = some d := by decide
  obtain ⟨hd, rfl | rfl⟩ := h
  · exact digit?_digitChar hradix hd
  · exact hupper radix hradix d hd

theorem isDigit_of_digit? (hradix : radix ≤ 16) (h : digit? radix c = some d) :
    IsDigit radix c d := by
  have hdecimal : ∀ d < 10, d.digitChar.toNat = d + 48 := by decide
  have hletter : ∀ d < 16, 10 ≤ d → d.digitChar.toNat = d - 10 + 97 ∧
      d.digitChar.toUpper.toNat = d - 10 + 65 := by decide
  have hcodes : '0'.toNat = 48 ∧ 'a'.toNat = 97 ∧ 'A'.toNat = 65 := by decide
  obtain ⟨hvalue, hlt⟩ := Option.filter_eq_some_iff.1 h
  have hd : d < radix := of_decide_eq_true hlt
  refine ⟨hd, ?_⟩
  split at hvalue
  · next hdigit =>
    left
    have hcode : 48 ≤ c.toNat ∧ c.toNat ≤ 57 := by
      simpa [Char.isDigit, UInt32.le_iff_toNat_le, and_comm] using hdigit
    cases hvalue
    apply Char.toNat_inj.1
    rw [hdecimal _ (by omega)]
    omega
  · split at hvalue
    · next hlower =>
      left
      have hcode : 97 ≤ c.toNat ∧ c.toNat ≤ 122 := hlower
      cases hvalue
      apply Char.toNat_inj.1
      rw [(hletter _ (by omega) (by omega)).1]
      omega
    · split at hvalue
      · next hupper =>
        right
        have hcode : 65 ≤ c.toNat ∧ c.toNat ≤ 90 := hupper
        cases hvalue
        apply Char.toNat_inj.1
        rw [(hletter _ (by omega) (by omega)).2]
        omega
      · cases hvalue

theorem digitsFrom?_of_numeral (hradix : radix ≤ 16) (h : Numeral radix s n) :
    digitsFrom? radix 0 s = some n := by
  induction h with
  | digit hc => simp [digitsFrom?, digit?_of_isDigit hradix hc]
  | snoc hs hc ih => simp [digitsFrom?_append, ih, digitsFrom?, digit?_of_isDigit hradix hc]

theorem numeral_of_digitsFrom? (hradix : radix ≤ 16) (hne : s ≠ [])
    (h : digitsFrom? radix 0 s = some n) : Numeral radix s n := by
  induction s using List.reverseRecOn generalizing n with
  | nil => exact absurd rfl hne
  | append_singleton s c ih =>
      rw [digitsFrom?_append] at h
      obtain ⟨m, hm, hlast⟩ := Option.bind_eq_some_iff.1 h
      cases hdigit : digit? radix c with
      | none => simp [digitsFrom?, hdigit] at hlast
      | some d =>
          have hd := isDigit_of_digit? hradix hdigit
          have hn : n = m * radix + d := by simpa [digitsFrom?, hdigit, eq_comm] using hlast
          rw [hn]
          by_cases hs : s = []
          · subst hs
            have hm : m = 0 := by simpa [digitsFrom?, eq_comm] using hm
            rw [hm, Nat.zero_mul, Nat.zero_add]
            exact Numeral.digit hd
          · exact Numeral.snoc (ih hs hm) hd

/-- **The reader of digits accepts the numerals and gives their values.** -/
theorem digits?_eq_some (hradix : radix ≤ 16) : digits? radix s = some n ↔ Numeral radix s n := by
  constructor
  · intro h
    unfold digits? at h
    split at h
    · cases h
    · next hne => exact numeral_of_digitsFrom? hradix (by simpa using hne) h
  · intro h
    have hne : s ≠ [] := by cases h <;> simp
    rw [digits?, if_neg (by simpa using hne)]
    exact digitsFrom?_of_numeral hradix h

theorem Numeral.exists_isDigit (h : Numeral radix s n) : ∀ c ∈ s, ∃ d, IsDigit radix c d := by
  induction h with
  | digit hc =>
      intro c hmem
      rw [List.mem_singleton.1 hmem]
      exact ⟨_, hc⟩
  | snoc hs hc ih =>
      intro c hmem
      rcases List.mem_append.1 hmem with hmem | hmem
      · exact ih c hmem
      · rw [List.mem_singleton.1 hmem]
        exact ⟨_, hc⟩

theorem Numeral.ne_nil (h : Numeral radix s n) : s ≠ [] := by
  cases h <;> simp

/-- Digits are characters of names and no marks. -/
theorem IsDigit.isNameChar (hradix : radix ≤ 16) (h : IsDigit radix c d) :
    Text.isNameChar c = true ∧ isIntegerMark c = false := by
  have hall : ∀ d < 16, ∀ c ∈ [d.digitChar, d.digitChar.toUpper],
      Text.isNameChar c = true ∧ isIntegerMark c = false := by decide
  refine hall d (Nat.lt_of_lt_of_le h.1 hradix) c ?_
  simpa using h.2

/-- Octal digits are digits of the decimal ones, which no letter of a lead is. -/
theorem IsDigit.isDigit (hradix : radix ≤ 10) (h : IsDigit radix c d) : c.isDigit = true := by
  have hall : ∀ d < 10, ∀ c ∈ [d.digitChar, d.digitChar.toUpper], c.isDigit = true := by decide
  refine hall d (Nat.lt_of_lt_of_le h.1 hradix) c ?_
  simpa using h.2

/-! ## Literals -/

theorem Lead.radix_le {lead : List Char} (h : Lead radix lead) : radix ≤ 16 := by
  cases h <;> decide

theorem literalRadix_append {lead digits : List Char} (hlead : Lead radix lead)
    (hdigits : Numeral radix digits n)
    (hzero : radix = 10 → digits.head? = some '0' → digits = ['0']) :
    literalRadix (lead ++ digits) = (radix, digits) := by
  obtain ⟨c, rest, rfl⟩ := List.exists_cons_of_ne_nil hdigits.ne_nil
  obtain ⟨d, hc⟩ := hdigits.exists_isDigit c List.mem_cons_self
  cases hlead with
  | decimal =>
      by_cases hc0 : c = '0'
      · subst hc0
        rw [hzero rfl rfl]
        rfl
      · unfold literalRadix
        split <;> simp_all
  | octal =>
      have hdigit := hc.isDigit (by decide)
      unfold literalRadix
      split <;> simp_all
  | hexadecimal h => rcases h with rfl | rfl <;> rfl
  | binary h => rcases h with rfl | rfl <;> rfl

/-- Every text starts with a lead, its digits behind. -/
theorem exists_lead (s : List Char) : ∃ lead, s = lead ++ (literalRadix s).2 ∧
    Lead (literalRadix s).1 lead ∧
    ((literalRadix s).1 = 10 → (literalRadix s).2.head? = some '0' →
      (literalRadix s).2 = ['0']) := by
  unfold literalRadix
  split
  · exact ⟨['0', 'x'], rfl, .hexadecimal (.inl rfl), fun h => nomatch h⟩
  · exact ⟨['0', 'X'], rfl, .hexadecimal (.inr rfl), fun h => nomatch h⟩
  · exact ⟨['0', 'b'], rfl, .binary (.inl rfl), fun h => nomatch h⟩
  · exact ⟨['0', 'B'], rfl, .binary (.inr rfl), fun h => nomatch h⟩
  · exact ⟨['0'], rfl, .octal, fun h => nomatch h⟩
  · next hnone =>
    refine ⟨[], rfl, .decimal, fun _ hhead => ?_⟩
    rcases s with - | ⟨c, - | ⟨d, rest⟩⟩
    · cases hhead
    · cases hhead
      rfl
    · cases hhead
      exact absurd rfl (hnone d rest)

theorem unsigned?_eq_some {bound : Nat} (hplus : s.head? ≠ some '+') :
    unsigned? radix bound s = some n ↔ digits? radix s = some n ∧ n < bound := by
  have hbody : unsigned? radix bound s = (digits? radix s).filter (· < bound) := by
    unfold unsigned?
    split
    · exact absurd rfl hplus
    · rfl
  rw [hbody, Option.filter_eq_some_iff, decide_eq_true_eq]

theorem Numeral.head?_ne_plus (hradix : radix ≤ 16) (h : Numeral radix s n) :
    s.head? ≠ some '+' := by
  intro hhead
  obtain ⟨d, hd⟩ := h.exists_isDigit '+' (List.mem_of_mem_head? hhead)
  exact absurd (hd.isNameChar hradix).1 (by decide)

theorem magnitude?_of_isLiteral (h : IsLiteral s n) : magnitude? s = some n := by
  obtain ⟨radix, lead, digits, marks, rfl, hlead, hdigits, hzero, hmarks, hlt⟩ := h
  have hlast : ∀ c, (lead ++ digits).getLast? = some c → isIntegerMark c = false := by
    intro c hc
    rw [List.getLast?_append, List.getLast?_eq_some_getLast hdigits.ne_nil] at hc
    cases hc
    obtain ⟨d, hd⟩ := hdigits.exists_isDigit _ (List.getLast_mem hdigits.ne_nil)
    exact (hd.isNameChar hlead.radix_le).2
  unfold magnitude?
  rw [dropEndWhile_append hmarks hlast, literalRadix_append hlead hdigits hzero]
  exact (unsigned?_eq_some (hdigits.head?_ne_plus hlead.radix_le)).2
    ⟨(digits?_eq_some hlead.radix_le).2 hdigits, hlt⟩

/-- **The reader of magnitudes accepts the literals and gives their values**, among the texts
without a plus sign. -/
theorem magnitude?_eq_some (hplus : '+' ∉ s) : magnitude? s = some n ↔ IsLiteral s n := by
  refine ⟨fun h => ?_, magnitude?_of_isLiteral⟩
  obtain ⟨marks, hs, hmarks⟩ := exists_dropEndWhile isIntegerMark s
  obtain ⟨lead, hbody, hlead, hzero⟩ := exists_lead (dropEndWhile isIntegerMark s)
  have hhead : (literalRadix (dropEndWhile isIntegerMark s)).2.head? ≠ some '+' := by
    intro hc
    apply hplus
    rw [hs, hbody]
    exact List.mem_append_left _ (List.mem_append_right _ (List.mem_of_mem_head? hc))
  obtain ⟨hdigits, hlt⟩ := (unsigned?_eq_some hhead).1 h
  exact ⟨_, lead, _, marks, by rw [← hbody, ← hs], hlead,
    (digits?_eq_some hlead.radix_le).1 hdigits, hzero, hmarks, hlt⟩

/-- A literal is a word that starts with a digit. -/
theorem IsLiteral.isNameChar (h : IsLiteral s n) : ∀ c ∈ s, Text.isNameChar c = true := by
  obtain ⟨radix, lead, digits, marks, rfl, hlead, hdigits, -, hmarks, -⟩ := h
  have hl : ∀ c ∈ lead, Text.isNameChar c = true := by
    cases hlead with
    | decimal => decide
    | octal => decide
    | hexadecimal h => rcases h with rfl | rfl <;> decide
    | binary h => rcases h with rfl | rfl <;> decide
  have hm : ∀ c, isIntegerMark c = true → Text.isNameChar c = true := by
    intro c hc
    simp only [isIntegerMark, Bool.or_eq_true, beq_iff_eq] at hc
    rcases hc with ((rfl | rfl) | rfl) | rfl <;> decide
  intro c hc
  rcases List.mem_append.1 hc with hc | hc
  · rcases List.mem_append.1 hc with hc | hc
    · exact hl c hc
    · obtain ⟨d, hd⟩ := hdigits.exists_isDigit c hc
      exact (hd.isNameChar hlead.radix_le).1
  · exact hm c (hmarks c hc)

theorem IsLiteral.exists_isDigit (h : IsLiteral s n) :
    ∃ c rest, s = c :: rest ∧ c.isDigit = true := by
  obtain ⟨radix, lead, digits, marks, rfl, hlead, hdigits, -, -, -⟩ := h
  cases hlead with
  | decimal =>
      obtain ⟨c, rest, rfl⟩ := List.exists_cons_of_ne_nil hdigits.ne_nil
      obtain ⟨d, hd⟩ := hdigits.exists_isDigit c List.mem_cons_self
      exact ⟨c, rest ++ marks, rfl, hd.isDigit (by decide)⟩
  | octal => exact ⟨'0', digits ++ marks, rfl, rfl⟩
  | hexadecimal => exact ⟨'0', _, rfl, rfl⟩
  | binary => exact ⟨'0', _, rfl, rfl⟩

/-- The decimal digits of a number start with a zero only if there is no other. -/
theorem eq_zero_of_head?_toDigits (h : (Nat.toDigits 10 n).head? = some '0') : n = 0 := by
  induction n using Nat.strongRecOn with
  | ind n ih =>
      have hzero : ∀ d < 10, d.digitChar = '0' → d = 0 := by decide
      rw [Nat.toDigits_eq_if (by decide)] at h
      split at h
      · next hlt => exact hzero n hlt (by simpa using h)
      · next hge =>
        rw [List.head?_append_of_ne_nil _ (List.ne_nil_of_length_pos Nat.length_toDigits_pos)] at h
        have := ih (n / 10) (Nat.div_lt_self (by omega) (by decide)) h
        omega

/-- What is written in decimal is a literal. -/
theorem isLiteral_toString (h : n < 2 ^ 64) : IsLiteral (toString n).toList n := by
  have hne : Nat.toDigits 10 n ≠ [] := List.ne_nil_of_length_pos Nat.length_toDigits_pos
  have hdigits : Numeral 10 (Nat.toDigits 10 n) n :=
    numeral_of_digitsFrom? (by decide) hne (digitsFrom?_toDigits (by decide) (by decide) n)
  rw [Nat.toString_eq_repr, Nat.repr_eq_ofList_toDigits, String.toList_ofList]
  refine ⟨10, [], _, [], by simp, .decimal, hdigits, fun _ hzero => ?_, by simp, h⟩
  rw [eq_zero_of_head?_toDigits hzero]
  rfl

/-! ## Signs -/

/-- A text that starts with a character of a name has no sign. -/
theorem integer?_of_isNameChar (h : ∀ c ∈ s, Text.isNameChar c = true) :
    integer? s = (magnitude? s).map Int64.ofNat := by
  unfold integer?
  rw [trim_eq_self (trimmed_of_all fun c hc => isBlank_of_isNameChar (h c hc))]
  split
  · exact absurd (h '-' List.mem_cons_self) (by decide)
  · exact absurd (h '+' List.mem_cons_self) (by decide)
  · rfl

/-- A word is an integer exactly if it is a literal. -/
theorem integer?_eq_some {z : Int64} (h : ∀ c ∈ s, Text.isNameChar c = true) :
    integer? s = some z ↔ ∃ n, IsLiteral s n ∧ z = Int64.ofNat n := by
  have hplus : '+' ∉ s := fun hmem => absurd (h '+' hmem) (by decide)
  rw [integer?_of_isNameChar h, Option.map_eq_some_iff]
  constructor
  · rintro ⟨n, hn, rfl⟩
    exact ⟨n, (magnitude?_eq_some hplus).1 hn, rfl⟩
  · rintro ⟨n, hn, rfl⟩
    exact ⟨n, magnitude?_of_isLiteral hn, rfl⟩

/-- **A literal with its sign is read as its integer**, taken to a signed word. -/
theorem integer?_of_isSigned {z : Int} (h : IsSigned s z) : integer? s = some (Int64.ofInt z) := by
  obtain ⟨before, sign, digits, after, n, rfl, hdigits, hbefore, hafter, hsign⟩ := h
  have hplain : Trimmed digits :=
    trimmed_of_all fun c hc => isBlank_of_isNameChar (hdigits.isNameChar c hc)
  obtain ⟨c, rest, hcons, -⟩ := hdigits.exists_isDigit
  have hne : digits ≠ [] := hcons ▸ List.cons_ne_nil c rest
  have hmagnitude := magnitude?_of_isLiteral hdigits
  have hmark (m : Char) (hm : isBlank m = false) : Trimmed ([m] ++ digits) := by
    have hsingle : Trimmed [m] := trimmed_of_all (by simpa using hm)
    simpa using trimmed_append hsingle hplain (by simp) hne []
  rcases hsign with ⟨rfl, rfl⟩ | ⟨rfl, rfl⟩ | ⟨rfl, rfl⟩
  · have hword := integer?_of_isNameChar hdigits.isNameChar
    unfold integer? at hword ⊢
    rw [trim_eq_self hplain] at hword
    rw [List.nil_append, trim_append hplain hbefore hafter, hword, hmagnitude]
    rfl
  · unfold integer?
    rw [trim_append (hmark '+' (by decide)) hbefore hafter]
    simp only [List.singleton_append]
    rw [hmagnitude]
    rfl
  · have hstart : trimStart digits = digits := dropWhile_eq_self hplain.head
    unfold integer?
    rw [trim_append (hmark '-' (by decide)) hbefore hafter]
    simp only [List.singleton_append]
    rw [hstart, hmagnitude, Int64.ofInt_neg]
    rfl

end EmbeddedBuffers.Text
