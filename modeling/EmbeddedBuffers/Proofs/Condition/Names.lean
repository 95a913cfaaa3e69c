import EmbeddedBuffers.Condition.Value
import EmbeddedBuffers.Proofs.Condition.Acceptance

/-!
# Macros that a condition names

The value of a condition depends on the macros that its tree names, and those are identifiers of the
text that it is read from. Main statements: `value_congr` and `identifier_of_parse?`.
-/

namespace EmbeddedBuffers

namespace Text

theorem not_isNameChar_of_isBlank {c : Char} (h : isBlank c = true) : isNameChar c = false := by
  rw [← Bool.not_eq_true]
  intro hname
  rw [isBlank_of_isNameChar hname] at h
  cases h

/-- A name stands in a text as an identifier: a run of name characters that goes on to neither
side. -/
def Identifier (name text : List Char) : Prop :=
  isName name = true ∧ ∃ before after, text = before ++ name ++ after ∧
    (∀ c ∈ before.getLast?, isNameChar c = false) ∧ ∀ c ∈ after.head?, isNameChar c = false

variable {name text front : List Char}

/-- An identifier stays one behind a piece that it does not go on with. -/
theorem Identifier.append (h : Identifier name text)
    (hfront : ∀ c ∈ front.getLast?, ∀ d ∈ text.head?, isNameChar c = false ∨ isNameChar d = false) :
    Identifier name (front ++ text) := by
  obtain ⟨hname, before, after, rfl, hbefore, hafter⟩ := h
  refine ⟨hname, front ++ before, after, by simp only [List.append_assoc], ?_, hafter⟩
  cases hb : before with
  | cons c before =>
      rw [List.getLast?_append_of_ne_nil front (List.cons_ne_nil c before), ← hb]
      exact hbefore
  | nil =>
      rw [List.append_nil]
      intro c hc
      cases name with
      | nil => cases hname
      | cons d name =>
          have hd : isNameChar d = true := isNameChar_of_isName hname d List.mem_cons_self
          refine (hfront c hc d ?_).resolve_right (by rw [hd]; simp)
          rw [hb]
          rfl

/-- A text of one character has no other identifier. -/
theorem Identifier.eq_singleton {c : Char} (h : Identifier name [c]) : name = [c] := by
  obtain ⟨hname, before, after, heq, -, -⟩ := h
  have hne : name ≠ [] := by
    rintro rfl
    cases hname
  rcases List.append_eq_singleton_iff.1 heq.symm with ⟨hfront, -⟩ | ⟨hfront, -⟩
  · exact absurd (List.append_eq_nil_iff.1 hfront).2 hne
  · rcases List.append_eq_singleton_iff.1 hfront with ⟨-, hw⟩ | ⟨-, hnil⟩
    · exact hw
    · exact absurd hnil hne

end Text

namespace Condition

/-! ## Values -/

/-- The macros that a condition takes the values of or asks for. -/
def names : Condition → List String
  | .literal _ => []
  | .reference name | .isDefined name => [name]
  | .not a => a.names
  | .compare _ a b | .and a b | .or a b => a.names ++ b.names

variable {m m' : Macros} {c : Condition}

/-- **The value of a condition depends on the macros that it names.** -/
theorem value_congr (h : ∀ name ∈ c.names, m.get? name = m'.get? name) :
    c.value m = c.value m' := by
  induction c with
  | literal n => rfl
  | reference name => rw [value, value, h name (List.mem_singleton_self name)]
  | isDefined name =>
      rw [value, value, Macros.isDefined, Macros.isDefined, h name (List.mem_singleton_self name)]
  | not a ih => rw [value, value, ih h]
  | compare op a b iha ihb | and a b iha ihb | or a b iha ihb =>
      have ha := iha fun name hname => h name (List.mem_append_left _ hname)
      have hb := ihb fun name hname => h name (List.mem_append_right _ hname)
      rw [value, value, ha, hb]

theorem holds?_congr (h : ∀ name ∈ c.names, m.get? name = m'.get? name) :
    c.holds? m = c.holds? m' := by
  rw [holds?, holds?, value_congr h]

/-! ## Texts -/

variable {s : List Char} {l : Lexeme} {ls : List Lexeme} {f : Formula} {nt : Nonterminal}

/-- A lexeme ends in a character that no name goes on with, or before such a character. -/
theorem Lexeme.Spelled.apart {t : List Char} (h : l.Spelled s) (hend : l.Ends t) :
    ∀ c ∈ s.getLast?, ∀ d ∈ t.head?, Text.isNameChar c = false ∨ Text.isNameChar d = false := by
  intro c hc d hd
  cases l with
  | word name => exact Or.inr (hend d hd)
  | number n => exact Or.inr (hend d hd)
  | comparison op =>
      obtain rfl : s = op.symbol.toList := h
      left
      cases op <;> (obtain rfl := Option.some.inj hc; rfl)
  | _ =>
      obtain rfl := h
      obtain rfl := Option.some.inj hc
      exact Or.inl rfl

/-- The words of a text are identifiers of it. -/
theorem Splits.identifier (h : Splits s ls) :
    ∀ name, .word name ∈ ls → Text.Identifier name.toList s := by
  induction h with
  | done => simp
  | @lexeme blanks s rest l ls hblanks hs hend hrest ih =>
      -- Blanks do not end in a name character.
      have hapart : ∀ {t : List Char}, ∀ c ∈ blanks.getLast?, ∀ d ∈ t.head?,
          Text.isNameChar c = false ∨ Text.isNameChar d = false := by
        intro t c hc d _
        exact Or.inl (Text.not_isNameChar_of_isBlank (hblanks c (List.mem_of_getLast? hc)))
      intro name hname
      rw [List.append_assoc]
      rcases List.mem_cons.1 hname with rfl | hname
      · obtain ⟨rfl, hword⟩ := hs
        refine Text.Identifier.append ⟨hword, [], rest, rfl, by simp, hend⟩ hapart
      · exact ((ih name hname).append (hs.apart hend)).append hapart

/-- The macros that a derived formula names are words of it. -/
theorem mem_of_derives (h : Derives nt ls f) : ∀ name ∈ f.condition.names, .word name ∈ ls := by
  induction h with
  | orOne h ih | andOne h ih | compareOne h ih | operand h ih => exact ih
  | orMore hf hg ihf ihg | andMore hf hg ihf ihg | compareTwo op hf hg ihf ihg =>
      intro name hname
      rcases List.mem_append.1 hname with hname | hname
      · exact List.mem_append_left _ (ihf name hname)
      · exact List.mem_append_right _ (List.mem_cons_of_mem _ (ihg name hname))
  | not h ih => exact fun name hname => List.mem_cons_of_mem _ (ih name hname)
  | parens h ih =>
      exact fun name hname => List.mem_append_left _ (List.mem_cons_of_mem _ (ih name hname))
  | number n | negative n => exact fun name hname => nomatch hname
  | defined name | definedParens name | name h =>
      intro name' hname
      rw [List.mem_singleton.1 hname]
      simp

/-- **A condition names identifiers of its text alone.** -/
theorem identifier_of_parse? (h : parse? s = .ok c) :
    ∀ name ∈ c.names, Text.Identifier name.toList s := by
  have hparse : parse (String.ofList s) = .ok c := by
    rw [parse, String.toList_ofList, h]
    rfl
  obtain ⟨f, ⟨ls, hs, hf⟩, rfl⟩ := parse_eq_ok.1 hparse
  rw [String.toList_ofList] at hs
  exact fun name hname => hs.identifier name (mem_of_derives hf name hname)

end Condition

end EmbeddedBuffers
