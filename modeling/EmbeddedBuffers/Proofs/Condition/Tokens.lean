import EmbeddedBuffers.Condition.Token
import EmbeddedBuffers.Proofs.Condition.Grammar

/-!
# Reading lexemes

The reader of tokens finds the lexemes that a text splits into, and no text but one with two
neighbouring comparisons, `<<` or `>>`, splits and is refused. Derived lexemes have no such
neighbours. Main statements: `exists_splits_of_tokens` and `tokens_of_splits`.
-/

namespace EmbeddedBuffers.Condition

variable {whole : String} {s rest : List Char} {l : Lexeme} {ls : List Lexeme} {t : Token}
  {ts : List Token}

/-! ## One lexeme -/

theorem read_of_isNameChar {c : Char} (h : Text.isNameChar c = true) :
    Token.read whole (c :: s) =
      if c.isDigit then
        match Text.integer? (c :: s.takeWhile Text.isNameChar) with
        | some n => .ok (some (.number n, s.dropWhile Text.isNameChar))
        | none => .error (.badNumber (String.ofList (c :: s.takeWhile Text.isNameChar)))
      else .ok (some (.word (String.ofList (c :: s.takeWhile Text.isNameChar)),
        s.dropWhile Text.isNameChar)) := by
  unfold Token.read
  split
  case h_1 heq => cases heq
  case h_16 heq =>
    cases heq
    exact if_pos h
  all_goals
    rename_i heq
    cases heq
    exact absurd h (by decide)

/-- **What is read is a lexeme**, in its longest spelling. -/
theorem exists_lexeme_of_read (h : Token.read whole s = .ok (some (t, rest))) :
    ∃ (l : Lexeme) (used : List Char),
      s = used ++ rest ∧ l.token = t ∧ l.Spelled used ∧ l.Ends rest := by
  have hnot {r : List Char} (hr : ∀ tail, r = '=' :: tail → False) : r.head? ≠ some '=' := by
    intro hhead
    obtain ⟨tail, htail⟩ := List.head?_eq_some_iff.1 hhead
    exact hr tail htail
  unfold Token.read at h
  split at h
  case h_16 c tail _ _ _ _ _ _ _ _ _ _ _ _ _ _ =>
    split at h
    · next hc =>
      -- a word is the whole span of characters of names, a number if a digit starts it
      have hspan : c :: tail =
          c :: tail.takeWhile Text.isNameChar ++ tail.dropWhile Text.isNameChar := by
        rw [List.cons_append, List.takeWhile_append_dropWhile]
      have hword : ∀ d ∈ c :: tail.takeWhile Text.isNameChar, Text.isNameChar d = true :=
        List.forall_mem_cons.2 ⟨hc, fun d hd => List.mem_takeWhile_imp hd⟩
      dsimp only at h
      split at h
      · split at h
        · next n hn =>
          cases h
          obtain ⟨m, hm, rfl⟩ := (Text.integer?_eq_some hword).1 hn
          exact ⟨.number m, _, hspan, rfl, hm, Text.head?_of_span rfl⟩
        · cases h
      · next hdigit =>
        cases h
        refine ⟨.word _, _, hspan, rfl, ⟨String.toList_ofList.symm, ?_⟩, Text.head?_of_span rfl⟩
        exact Text.isName_iff.2 ⟨c, _, rfl, Bool.eq_false_iff.2 hdigit, hword⟩
    · cases h
  all_goals cases h
  case h_2 => exact ⟨.openParen, ['('], rfl, rfl, rfl, trivial⟩
  case h_3 => exact ⟨.closeParen, [')'], rfl, rfl, rfl, trivial⟩
  case h_4 => exact ⟨.minus, ['-'], rfl, rfl, rfl, trivial⟩
  case h_5 => exact ⟨.comparison .ne, ['!', '='], rfl, rfl, rfl, trivial⟩
  case h_6 hne => exact ⟨.bang, ['!'], rfl, rfl, rfl, hnot hne⟩
  case h_7 => exact ⟨.andAnd, ['&', '&'], rfl, rfl, rfl, trivial⟩
  case h_8 => exact ⟨.orOr, ['|', '|'], rfl, rfl, rfl, trivial⟩
  case h_9 => exact ⟨.comparison .eq, ['=', '='], rfl, rfl, rfl, trivial⟩
  case h_10 => exact ⟨.comparison .le, ['<', '='], rfl, rfl, rfl, trivial⟩
  case h_11 => exact ⟨.comparison .ge, ['>', '='], rfl, rfl, rfl, trivial⟩
  case h_14 hne _ => exact ⟨.comparison .lt, ['<'], rfl, rfl, rfl, hnot hne⟩
  case h_15 hne _ => exact ⟨.comparison .gt, ['>'], rfl, rfl, rfl, hnot hne⟩

theorem eq_nil_of_read (h : Token.read whole s = .ok none) : s = [] := by
  unfold Token.read at h
  split at h
  case h_1 => rfl
  case h_16 =>
    dsimp only at h
    split at h
    · split at h
      · split at h <;> cases h
      · cases h
    · cases h
  all_goals cases h

/-- The characters that a comparison starts with and no other lexeme. -/
def comparisonStarts : List Char := ['<', '>', '=']

/-- What a spelling starts with. -/
theorem Lexeme.Spelled.exists_cons (h : l.Spelled s) : ∃ c tail, s = c :: tail ∧
    Text.isBlank c = false ∧ (l.isComparison = false → c ∉ comparisonStarts) := by
  have hname {c : Char} (hc : Text.isNameChar c = true) :
      Text.isBlank c = false ∧ (l.isComparison = false → c ∉ comparisonStarts) := by
    refine ⟨Text.isBlank_of_isNameChar hc, fun _ hmem => ?_⟩
    have hall : ∀ d ∈ comparisonStarts, Text.isNameChar d = false := by decide
    rw [hall c hmem] at hc
    cases hc
  cases l with
  | word name =>
      obtain ⟨c, tail, rfl, -, hall⟩ := Text.isName_iff.1 h.2
      exact ⟨c, tail, rfl, hname (hall c List.mem_cons_self)⟩
  | number n =>
      obtain ⟨c, tail, rfl, -⟩ := Text.IsLiteral.exists_isDigit h
      exact ⟨c, tail, rfl, hname (Text.IsLiteral.isNameChar h c List.mem_cons_self)⟩
  | comparison op =>
      have hs : s = op.symbol.toList := h
      subst hs
      cases op <;> exact ⟨_, _, rfl, by decide, fun h => nomatch h⟩
  | _ =>
      have hs : s = _ := h
      subst hs
      exact ⟨_, _, rfl, by decide, fun _ => by decide⟩

/-- **A spelling is read as its lexeme**, unless it would be the start of a shift. -/
theorem read_append (hs : l.Spelled s) (hend : l.Ends rest)
    (hshift : l.isComparison = true → ∀ c ∈ rest.head?, c ∉ comparisonStarts) :
    Token.read whole (s ++ rest) = .ok (some (l.token, rest)) := by
  cases l with
  | word name =>
      obtain ⟨rfl, hname⟩ := hs
      obtain ⟨c, tail, hcons, hdigit, hall⟩ := Text.isName_iff.1 hname
      rw [hcons] at hall ⊢
      obtain ⟨hc, htail⟩ := List.forall_mem_cons.1 hall
      obtain ⟨htake, hdrop⟩ := Text.span_append htail hend
      rw [List.cons_append, read_of_isNameChar hc, hdigit, if_neg Bool.false_ne_true, htake, hdrop,
        ← hcons, String.ofList_toList]
      rfl
  | number n =>
      obtain ⟨c, tail, rfl, hdigit⟩ := Text.IsLiteral.exists_isDigit hs
      obtain ⟨hc, htail⟩ := List.forall_mem_cons.1 (Text.IsLiteral.isNameChar hs)
      obtain ⟨htake, hdrop⟩ := Text.span_append htail hend
      have hvalue : Text.integer? (c :: tail) = some (Int64.ofNat n) :=
        (Text.integer?_eq_some (Text.IsLiteral.isNameChar hs)).2 ⟨n, hs, rfl⟩
      rw [List.cons_append, read_of_isNameChar hc, hdigit, if_pos rfl, htake, hdrop, hvalue]
      rfl
  | bang =>
      have hs : s = ['!'] := hs
      subst hs
      rcases rest with - | ⟨c, rest⟩
      · rfl
      · have hc : c ≠ '=' := by simpa [Lexeme.Ends] using hend
        simp [Token.read, hc, Lexeme.token]
  | comparison op =>
      have hs : s = op.symbol.toList := hs
      subst hs
      have hnext := hshift rfl
      rcases rest with - | ⟨c, rest⟩
      · cases op <;> rfl
      · have hc : c ≠ '<' ∧ c ≠ '>' ∧ c ≠ '=' := by
          simpa [comparisonStarts] using hnext c rfl
        cases op with
        | lt => simp [Token.read, Comparison.symbol, hc, Lexeme.token]
        | gt => simp [Token.read, Comparison.symbol, hc, Lexeme.token]
        | _ => rfl
  | _ =>
      have hs : s = _ := hs
      subst hs
      rfl

/-! ## All lexemes -/

/-- A text is the blanks in front of it and what trimming these leaves. -/
theorem exists_blanks (s : List Char) :
    ∃ blanks, s = blanks ++ Text.trimStart s ∧ ∀ c ∈ blanks, Text.isBlank c = true :=
  ⟨s.takeWhile Text.isBlank, List.takeWhile_append_dropWhile.symm,
    fun _ hc => List.mem_takeWhile_imp hc⟩

theorem exists_splits_of_tokensAux (h : tokensAux whole s = .ok ts) :
    ∃ ls, Splits s ls ∧ ls.map Lexeme.token = ts := by
  fun_induction tokensAux whole s generalizing ts with
  | case1 => cases h
  | case2 s hread =>
      cases h
      obtain ⟨blanks, hs, hblanks⟩ := exists_blanks s
      refine ⟨[], ?_, rfl⟩
      rw [hs, eq_nil_of_read hread, List.append_nil]
      exact Splits.done hblanks
  | case3 s t rest hread ih =>
      obtain ⟨blanks, hs, hblanks⟩ := exists_blanks s
      obtain ⟨l, used, htrim, rfl, hused, hend⟩ := exists_lexeme_of_read hread
      cases hrest : tokensAux whole rest with
      | error f =>
          rw [hrest] at h
          cases h
      | ok later =>
          rw [hrest] at h
          cases h
          obtain ⟨ls, hls, rfl⟩ := ih hrest
          refine ⟨l :: ls, ?_, rfl⟩
          rw [hs, htrim, ← List.append_assoc]
          exact Splits.lexeme hblanks hused hend hls

/-- **The tokens of a text are those of lexemes that it splits into.** -/
theorem exists_splits_of_tokens (h : tokens s = .ok ts) :
    ∃ ls, Splits s ls ∧ ls.map Lexeme.token = ts :=
  exists_splits_of_tokensAux h

theorem tokensAux_of_none (h : Token.read whole (Text.trimStart s) = .ok none) :
    tokensAux whole s = .ok [] := by
  rw [tokensAux]
  split <;> simp_all

theorem tokensAux_of_some (h : Token.read whole (Text.trimStart s) = .ok (some (t, rest))) :
    tokensAux whole s = (tokensAux whole rest).map (t :: ·) := by
  rw [tokensAux]
  split <;> simp_all

/-- Where no comparison comes next, the text does not go on like one. -/
theorem Splits.head?_not_mem (h : Splits s ls) (hnext : ∀ l ∈ ls.head?, l.isComparison = false) :
    ∀ c ∈ s.head?, c ∉ comparisonStarts := by
  have hblank {blanks tail : List Char} (hblanks : ∀ c ∈ blanks, Text.isBlank c = true)
      (htail : ∀ c ∈ tail.head?, c ∉ comparisonStarts) :
      ∀ c ∈ (blanks ++ tail).head?, c ∉ comparisonStarts := by
    rcases blanks with - | ⟨c, blanks⟩
    · exact htail
    · rintro _ ⟨⟩ hmem
      have hall : ∀ d ∈ comparisonStarts, Text.isBlank d = false := by decide
      have hc := hblanks c List.mem_cons_self
      rw [hall c hmem] at hc
      cases hc
  cases h with
  | done hblanks =>
      rw [← List.append_nil s]
      exact hblank hblanks fun c hc => nomatch hc
  | lexeme hblanks hs hend hrest =>
      obtain ⟨c, tail, rfl, -, hc⟩ := hs.exists_cons
      rw [List.append_assoc]
      refine hblank hblanks ?_
      rintro _ ⟨⟩
      exact hc (hnext _ rfl)

theorem tokensAux_of_splits (h : Splits s ls)
    (hapart : ls.IsChain fun l m => l.isComparison = false ∨ m.isComparison = false) :
    tokensAux whole s = .ok (ls.map Lexeme.token) := by
  induction h with
  | @done blanks hblanks =>
      have htrim : Text.trimStart blanks = [] := List.dropWhile_eq_nil_iff.2 hblanks
      exact tokensAux_of_none (by rw [htrim]; rfl)
  | @lexeme blanks s rest l ls hblanks hs hend hrest ih =>
      obtain ⟨hnext, hlater⟩ := List.isChain_cons.1 hapart
      obtain ⟨c, tail, hcons, hblank, -⟩ := hs.exists_cons
      have htrim : Text.trimStart (blanks ++ s ++ rest) = s ++ rest := by
        unfold Text.trimStart
        rw [List.append_assoc, List.dropWhile_append_of_pos hblanks, hcons, List.cons_append]
        exact List.dropWhile_cons_of_neg (by simp [hblank])
      -- a shift would need a second comparison behind the first
      have hshift : l.isComparison = true → ∀ c ∈ rest.head?, c ∉ comparisonStarts := by
        intro hl
        refine hrest.head?_not_mem fun m hm => ?_
        rcases hnext m hm with h | h
        · rw [hl] at h
          cases h
        · exact h
      have hread : Token.read whole (Text.trimStart (blanks ++ s ++ rest)) =
          .ok (some (l.token, rest)) := by
        rw [htrim]
        exact read_append hs hend hshift
      rw [tokensAux_of_some hread, ih hlater]
      rfl

/-- **The lexemes that a text splits into are found**, where no two comparisons meet. -/
theorem tokens_of_splits (h : Splits s ls)
    (hapart : ls.IsChain fun l m => l.isComparison = false ∨ m.isComparison = false) :
    tokens s = .ok (ls.map Lexeme.token) :=
  tokensAux_of_splits h hapart

end EmbeddedBuffers.Condition
