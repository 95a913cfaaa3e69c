import EmbeddedBuffers.Svf.Statement
import Mathlib.Data.List.Basic

/-!
# How a text is laid out

What a text is made of, told without a reader: words, groups and semicolons, with blanks and
comments between them and inside the groups. Every text is laid out in this sense, and the reader
finds what the text is made of, each part with the line on which it begins. Main statements:
`exists_layout` and `lex_eq`.
-/

namespace EmbeddedBuffers.Svf

open Text (isBlank)

/-! ## Layouts -/

/-- A comment starts here. -/
def StartsComment (text : List Char) : Prop := ['!'] <+: text ∨ ['/', '/'] <+: text

/-- What follows a comment that starts here: its line end and what is behind it, or nothing. -/
def afterComment (text : List Char) : List Char := text.dropWhile (· != '\n')

/-- A character of a word stands here. -/
def InWord : List Char → Prop
  | [] => False
  | c :: rest => isBlank c = false ∧ c ≠ '(' ∧ c ≠ ';' ∧ ¬ StartsComment (c :: rest)

/-- A text is what is left of a word, and then a rest. -/
inductive Word : List Char → List Char → List Char → Prop
  | stop {rest : List Char} (h : ¬ InWord rest) : Word rest [] rest
  | char {c : Char} {text w rest : List Char} (hc : InWord (c :: text)) (h : Word text w rest) :
      Word (c :: text) (c :: w) rest

/-- A text is what is left of a group with its parenthesis, and then a rest. Blanks and comments do
not belong to what the group holds. -/
inductive Inside : List Char → List Char → List Char → Prop
  | close {rest : List Char} : Inside (')' :: rest) [] rest
  | blank {c : Char} {text g rest : List Char} (hc : isBlank c = true) (h : Inside text g rest) :
      Inside (c :: text) g rest
  | comment {text g rest : List Char} (hc : StartsComment text)
      (h : Inside (afterComment text) g rest) : Inside text g rest
  | char {c : Char} {text g rest : List Char} (hclose : c ≠ ')') (hblank : isBlank c = false)
      (hcomment : ¬ StartsComment (c :: text)) (h : Inside text g rest) :
      Inside (c :: text) (c :: g) rest

/-- The token of a word, whose case does not count. -/
def wordToken (w : List Char) : Token := .word (String.ofList (w.map Char.toUpper))

/-- The token of a group. -/
def groupToken (g : List Char) : Token := .group (String.ofList g)

/-- What a text is made of, in order, each part with the text from it on, and the text from a
parenthesis on that is never closed. -/
structure Parts where
  found : List (Lexeme × List Char)
  unclosed : Option (List Char)

namespace Parts

/-- Puts a part in front. -/
def cons (l : Lexeme) (place : List Char) (p : Parts) : Parts :=
  { p with found := (l, place) :: p.found }

/-- The texts from the parts on. -/
def places (p : Parts) : List (List Char) := p.found.map Prod.snd ++ p.unclosed.toList

/-- The parts with the lines of their places. -/
def lexemes (line : List Char → Nat) (p : Parts) : Lexemes :=
  ⟨p.found.map fun (l, place) => (line place, l), p.unclosed.map line⟩

theorem lexemes_cons (line : List Char → Nat) (l : Lexeme) (place : List Char) (p : Parts) :
    (p.cons l place).lexemes line = (p.lexemes line).cons (line place) l := rfl

end Parts

/-- How a text is laid out, and what it is made of. -/
inductive Layout : List Char → Parts → Prop
  | done : Layout [] ⟨[], none⟩
  | blank {c text p} (hc : isBlank c = true) (h : Layout text p) : Layout (c :: text) p
  | comment {text p} (hc : StartsComment text) (h : Layout (afterComment text) p) : Layout text p
  | word {text w rest p} (hstart : InWord text) (hw : Word text w rest) (h : Layout rest p) :
      Layout text (p.cons (.token (wordToken w)) text)
  | group {text g rest p} (hg : Inside text g rest) (h : Layout rest p) :
      Layout ('(' :: text) (p.cons (.token (groupToken g)) ('(' :: text))
  | semicolon {text p} (h : Layout text p) : Layout (';' :: text) (p.cons .semicolon (';' :: text))
  | unclosed {text} (h : ∀ g rest, ¬ Inside text g rest) :
      Layout ('(' :: text) ⟨[], some ('(' :: text)⟩

variable {c : Char} {text w g rest : List Char} {p : Parts}

/-! ## Every text is laid out -/

theorem afterComment_suffix (text : List Char) : afterComment text <:+ text :=
  List.dropWhile_suffix _

/-- A comment has a character. -/
theorem length_afterComment_lt (h : StartsComment text) :
    (afterComment text).length < text.length := by
  rcases h with ⟨rest, rfl⟩ | ⟨rest, rfl⟩
  · exact Nat.lt_succ_of_le (afterComment_suffix rest).length_le
  · exact Nat.lt_succ_of_le (afterComment_suffix ('/' :: rest)).length_le

theorem Word.eq_append (h : Word text w rest) : text = w ++ rest := by
  induction h with
  | stop => rfl
  | char hc h ih => rw [ih, List.cons_append]

theorem Word.ne_nil (h : Word text w rest) (hstart : InWord text) : w ≠ [] := by
  cases h with
  | stop h => exact absurd hstart h
  | char => exact List.cons_ne_nil _ _

theorem Word.not_inWord (h : Word text w rest) : ¬ InWord rest := by
  induction h with
  | stop h => exact h
  | char hc h ih => exact ih

theorem exists_word (text : List Char) : ∃ w rest, Word text w rest := by
  induction text with
  | nil => exact ⟨[], [], .stop id⟩
  | cons c text ih =>
      by_cases hc : InWord (c :: text)
      · obtain ⟨w, rest, h⟩ := ih
        exact ⟨c :: w, rest, .char hc h⟩
      · exact ⟨[], c :: text, .stop hc⟩

theorem Inside.suffix (h : Inside text g rest) : ')' :: rest <:+ text := by
  induction h with
  | close => exact List.suffix_refl _
  | blank hc h ih => exact ih.trans (List.suffix_cons _ _)
  | comment hc h ih => exact ih.trans (afterComment_suffix _)
  | char hclose hblank hcomment h ih => exact ih.trans (List.suffix_cons _ _)

/-- What may start a text: nothing, a comment, a blank, a parenthesis, a semicolon or a word. -/
theorem layout_cases (text : List Char) : text = [] ∨ StartsComment text ∨
    (∃ c rest, text = c :: rest ∧ isBlank c = true) ∨ (∃ rest, text = '(' :: rest) ∨
    (∃ rest, text = ';' :: rest) ∨ InWord text := by
  cases text with
  | nil => exact Or.inl rfl
  | cons c rest =>
      by_cases hcomment : StartsComment (c :: rest)
      · exact Or.inr (Or.inl hcomment)
      cases hblank : isBlank c with
      | true => exact Or.inr (Or.inr (Or.inl ⟨c, rest, rfl, hblank⟩))
      | false =>
          by_cases hopen : c = '('
          · exact Or.inr (Or.inr (Or.inr (Or.inl ⟨rest, by rw [hopen]⟩)))
          by_cases hsemi : c = ';'
          · exact Or.inr (Or.inr (Or.inr (Or.inr (Or.inl ⟨rest, by rw [hsemi]⟩))))
          exact Or.inr (Or.inr (Or.inr (Or.inr (Or.inr ⟨hblank, hopen, hsemi, hcomment⟩))))

/-- **Every text is laid out.** -/
theorem exists_layout (text : List Char) : ∃ p, Layout text p := by
  -- A comment, a word or a group is passed at once, so the induction is on the length.
  induction hn : text.length using Nat.strongRecOn generalizing text with
  | ind n ih =>
    have hrest : ∀ rest : List Char, rest.length < text.length → ∃ p, Layout rest p :=
      fun rest hlt => ih _ (hn ▸ hlt) rest rfl
    rcases layout_cases text with rfl | hcomment | ⟨c, rest, rfl, hblank⟩ | ⟨rest, rfl⟩ |
      ⟨rest, rfl⟩ | hstart
    · exact ⟨_, .done⟩
    · obtain ⟨p, h⟩ := hrest _ (length_afterComment_lt hcomment)
      exact ⟨p, .comment hcomment h⟩
    · obtain ⟨p, h⟩ := hrest rest (Nat.lt_succ_self _)
      exact ⟨p, .blank hblank h⟩
    · by_cases hg : ∃ g behind, Inside rest g behind
      · obtain ⟨g, behind, hg⟩ := hg
        obtain ⟨p, h⟩ := hrest behind (Nat.lt_succ_of_lt hg.suffix.length_le)
        exact ⟨_, .group hg h⟩
      · exact ⟨_, .unclosed fun g behind h => hg ⟨g, behind, h⟩⟩
    · obtain ⟨p, h⟩ := hrest rest (Nat.lt_succ_self _)
      exact ⟨_, .semicolon h⟩
    · obtain ⟨w, rest, hw⟩ := exists_word text
      have hpos : 0 < w.length := List.length_pos_iff.2 (hw.ne_nil hstart)
      have hlength : text.length = w.length + rest.length := by
        rw [hw.eq_append, List.length_append]
      obtain ⟨p, h⟩ := hrest rest (by omega)
      exact ⟨_, .word hstart hw h⟩

/-- The parts of a text are parts of that text. -/
theorem Layout.suffix (h : Layout text p) : ∀ s ∈ p.places, s <:+ text := by
  induction h with
  | done => exact List.forall_mem_nil _
  | blank hc h ih => exact fun s hs => (ih s hs).trans (List.suffix_cons _ _)
  | comment hc h ih => exact fun s hs => (ih s hs).trans (afterComment_suffix _)
  | word hstart hw h ih =>
      refine List.forall_mem_cons.2 ⟨List.suffix_refl _, fun s hs => (ih s hs).trans ?_⟩
      exact hw.eq_append ▸ List.suffix_append _ _
  | group hg h ih =>
      refine List.forall_mem_cons.2 ⟨List.suffix_refl _, fun s hs => (ih s hs).trans ?_⟩
      exact (List.suffix_cons _ _).trans (hg.suffix.trans (List.suffix_cons _ _))
  | semicolon h ih =>
      refine List.forall_mem_cons.2 ⟨List.suffix_refl _, fun s hs => (ih s hs).trans ?_⟩
      exact List.suffix_cons _ _
  | unclosed h => exact List.forall_mem_singleton.2 (List.suffix_refl _)

/-! ## Texts without their comments -/

/-- A text without its comments. -/
def bareText (text : List Char) : List Char := List.intercalate ['\n'] (bareLines text)

theorem startsComment_takeWhile :
    StartsComment (text.takeWhile (· != '\n')) ↔ StartsComment text := by
  rcases text with _ | ⟨a, _ | ⟨b, text⟩⟩
  · rfl
  · by_cases ha : a = '\n' <;> simp [StartsComment, ha]
  · by_cases ha : a = '\n'
    · simp [StartsComment, ha]
    · by_cases hb : b = '\n' <;> simp [StartsComment, ha, hb]

theorem withoutComment_of_startsComment (h : StartsComment text) : withoutComment text = [] := by
  rcases h with ⟨rest, rfl⟩ | ⟨rest, rfl⟩ <;> rfl

theorem withoutComment_cons (h : ¬ StartsComment (c :: text)) :
    withoutComment (c :: text) = c :: withoutComment text := by
  rw [withoutComment]
  · rintro rfl
    exact h (Or.inl ⟨text, rfl⟩)
  · rintro rest rfl rfl
    exact h (Or.inr ⟨rest, rfl⟩)

/-- A text is split behind its first line. -/
theorem splitAt_eq (text : List Char) : Text.splitAt '\n' text =
    text.takeWhile (· != '\n') :: (Text.splitAt '\n' (afterComment text)).tail := by
  induction text with
  | nil => rfl
  | cons c text ih =>
      by_cases hc : c = '\n'
      · simp [Text.splitAt, afterComment, hc]
      · have hafter : afterComment (c :: text) = afterComment text := by simp [afterComment, hc]
        rw [Text.splitAt, if_neg hc, ih, hafter]
        simp [hc]

/-- A line ends at the end of the text or at a line end. -/
theorem afterComment_cases (text : List Char) :
    afterComment text = [] ∨ ∃ rest, afterComment text = '\n' :: rest := by
  cases heq : afterComment text with
  | nil => exact Or.inl rfl
  | cons c rest =>
      have hc := List.head?_dropWhile_not (· != '\n') text
      rw [← afterComment, heq] at hc
      exact Or.inr ⟨rest, by rw [show c = '\n' by simpa using hc]⟩

theorem bareText_newline : bareText ('\n' :: text) = '\n' :: bareText text := by
  have hsplit : Text.splitAt '\n' ('\n' :: text) = [] :: Text.splitAt '\n' text := rfl
  rw [bareText, bareText, bareLines, bareLines, hsplit, splitAt_eq text]
  rfl

/-- The first line without its comment, and what is behind it. -/
theorem bareText_eq (text : List Char) : bareText text =
    withoutComment (text.takeWhile (· != '\n')) ++ bareText (afterComment text) := by
  rcases afterComment_cases text with hend | ⟨rest, hend⟩
  · rw [bareText, bareLines, splitAt_eq, hend]
    simp [bareText, bareLines, Text.splitAt, withoutComment]
  · rw [hend, bareText_newline, bareText, bareLines, splitAt_eq, hend]
    have hsplit : (Text.splitAt '\n' ('\n' :: rest)).tail = Text.splitAt '\n' rest := rfl
    rw [hsplit, splitAt_eq rest]
    simp [bareText, bareLines, List.intercalate, splitAt_eq rest]

theorem bareText_comment (h : StartsComment text) :
    bareText text = bareText (afterComment text) := by
  rw [bareText_eq, withoutComment_of_startsComment (startsComment_takeWhile.2 h), List.nil_append]

theorem bareText_cons (hc : c ≠ '\n') (h : ¬ StartsComment (c :: text)) :
    bareText (c :: text) = c :: bareText text := by
  have htake : (c :: text).takeWhile (· != '\n') = c :: text.takeWhile (· != '\n') := by
    simp [hc]
  have hafter : afterComment (c :: text) = afterComment text := by simp [afterComment, hc]
  have hline : ¬ StartsComment (c :: text.takeWhile (· != '\n')) := by
    rwa [← htake, startsComment_takeWhile]
  rw [bareText_eq, htake, hafter, withoutComment_cons hline, List.cons_append, ← bareText_eq]

/-! ## Lines -/

/-- The line of a place, in a text with so many line ends. -/
def lineAt (total : Nat) (place : List Char) : Nat := 1 + (total - place.count '\n')

variable {total start : Nat} {acc : List Char}

theorem lineAt_cons (hc : c ≠ '\n') : lineAt total (c :: text) = lineAt total text := by
  rw [lineAt, lineAt, List.count_cons_of_ne hc]

theorem lineAt_newline (h : ('\n' :: text).count '\n' ≤ total) :
    lineAt total text = lineAt total ('\n' :: text) + 1 := by
  rw [List.count_cons_self] at h
  rw [lineAt, lineAt, List.count_cons_self]
  omega

theorem count_afterComment (text : List Char) :
    (afterComment text).count '\n' = text.count '\n' := by
  conv_rhs => rw [← List.takeWhile_append_dropWhile (p := (· != '\n')) (l := text)]
  have hline : (text.takeWhile (· != '\n')).count '\n' = 0 := by
    rw [List.count_eq_zero]
    intro hmem
    simpa using List.all_eq_true.1 List.all_takeWhile _ hmem
  rw [List.count_append, hline, Nat.zero_add, afterComment]

theorem count_le_of_suffix {s : List Char} (h : s <:+ text) (htotal : text.count '\n' ≤ total) :
    s.count '\n' ≤ total :=
  Nat.le_trans (h.sublist.count_le '\n') htotal

/-- The line of a place is told by the line ends in front of it. -/
theorem lineAt_append (front place : List Char) :
    lineAt ((front ++ place).count '\n') place = 1 + front.count '\n' := by
  rw [lineAt, List.count_append]
  omega

/-! ## Reading -/

/-- Reads on from a place of a text with so many line ends. -/
def read (total : Nat) (o : Open) (text : List Char) : Lexemes :=
  lexFrom (lineAt total text) o (bareText text)

theorem not_startsComment (hbang : c ≠ '!') (hslash : c ≠ '/') : ¬ StartsComment (c :: text) := by
  rintro (⟨rest, h⟩ | ⟨rest, h⟩)
  · exact hbang (List.cons.inj h).1.symm
  · exact hslash (List.cons.inj h).1.symm

theorem not_startsComment_of_blank (hc : isBlank c = true) : ¬ StartsComment (c :: text) := by
  refine not_startsComment ?_ ?_ <;> rintro rfl <;> cases hc

theorem ne_newline_of_not_blank (hc : isBlank c = false) : c ≠ '\n' := by
  rintro rfl
  cases hc

@[simp] theorem consWord_nil (line : Nat) (ls : Lexemes) : Lexemes.consWord line [] ls = ls := rfl

theorem consWord_reverse (hw : w ≠ []) (line : Nat) (ls : Lexemes) :
    Lexemes.consWord line w.reverse ls = ls.cons line (.token (wordToken w)) := by
  rw [Lexemes.consWord, if_neg (by simpa using hw), List.reverse_reverse, wordToken]

theorem read_comment (o : Open) (h : StartsComment text) :
    read total o text = read total o (afterComment text) := by
  rw [read, read, bareText_comment h, lineAt, lineAt, count_afterComment]

/-- A character that starts no comment is what the reader sees next. -/
theorem read_cons (o : Open) (hc : c ≠ '\n') (h : ¬ StartsComment (c :: text)) :
    read total o (c :: text) = lexFrom (lineAt total text) o (c :: bareText text) := by
  rw [read, bareText_cons hc h, lineAt_cons hc]

theorem read_blank (hc : isBlank c = true) (htotal : (c :: text).count '\n' ≤ total) :
    read total (.word acc) (c :: text) =
      .consWord (lineAt total (c :: text)) acc (read total (.word []) text) := by
  by_cases hnewline : c = '\n'
  · subst hnewline
    rw [read, bareText_newline, lexFrom, if_pos rfl, read, lineAt_newline htotal]
  · rw [read_cons _ hnewline (not_startsComment_of_blank hc), lexFrom, if_neg hnewline, if_pos hc,
      lineAt_cons hnewline, read]

theorem read_char (h : InWord (c :: text)) :
    read total (.word acc) (c :: text) = read total (.word (c :: acc)) text := by
  obtain ⟨hblank, hopen, hsemi, hcomment⟩ := h
  have hnewline := ne_newline_of_not_blank hblank
  rw [read_cons _ hnewline hcomment, lexFrom, if_neg hnewline, hblank, if_neg Bool.false_ne_true,
    if_neg hopen, if_neg hsemi, read]

theorem read_open : read total (.word acc) ('(' :: text) =
    .consWord (lineAt total ('(' :: text)) acc
      (read total (.group (lineAt total ('(' :: text)) []) text) := by
  have hnewline : '(' ≠ '\n' := by decide
  rw [read_cons _ hnewline (not_startsComment (by decide) (by decide)), lineAt_cons hnewline]
  rfl

theorem read_semicolon : read total (.word acc) (';' :: text) =
    .consWord (lineAt total (';' :: text)) acc
      ((read total (.word []) text).cons (lineAt total (';' :: text)) .semicolon) := by
  have hnewline : ';' ≠ '\n' := by decide
  rw [read_cons _ hnewline (not_startsComment (by decide) (by decide)), lineAt_cons hnewline]
  rfl

/-- A word ends where no character of a word stands. -/
theorem read_break (h : ¬ InWord text) (htotal : text.count '\n' ≤ total) :
    read total (.word acc) text =
      .consWord (lineAt total text) acc (read total (.word []) text) := by
  rcases layout_cases text with rfl | hcomment | ⟨c, rest, rfl, hblank⟩ | ⟨rest, rfl⟩ |
    ⟨rest, rfl⟩ | hstart
  · rfl
  -- Behind a comment there is a line end, which is a blank, or nothing.
  · rw [read_comment _ hcomment, read_comment _ hcomment, lineAt, ← count_afterComment, ← lineAt]
    rcases afterComment_cases text with hend | ⟨rest, hend⟩
    · rw [hend]
      rfl
    · rw [← count_afterComment, hend] at htotal
      rw [hend, read_blank rfl htotal, read_blank rfl htotal, consWord_nil]
  · rw [read_blank hblank htotal, read_blank hblank htotal, consWord_nil]
  · rw [read_open, read_open, consWord_nil]
  · rw [read_semicolon, read_semicolon, consWord_nil]
  · exact absurd hstart h

/-- A word is read up to its end. -/
theorem Word.read_eq (h : Word text w rest) (acc : List Char) :
    read total (.word acc) text = read total (.word (w.reverse ++ acc)) rest ∧
      lineAt total text = lineAt total rest := by
  induction h generalizing acc with
  | stop => exact ⟨rfl, rfl⟩
  | @char c text w rest hc h ih =>
      obtain ⟨hread, hline⟩ := ih (c :: acc)
      refine ⟨?_, (lineAt_cons (ne_newline_of_not_blank hc.1)).trans hline⟩
      rw [read_char hc, hread, List.reverse_cons, List.append_assoc, List.singleton_append]

theorem read_group_blank (hc : isBlank c = true) (htotal : (c :: text).count '\n' ≤ total) :
    read total (.group start acc) (c :: text) = read total (.group start acc) text := by
  have hclose : c ≠ ')' := by
    rintro rfl
    cases hc
  by_cases hnewline : c = '\n'
  · subst hnewline
    rw [read, bareText_newline, lexFrom, if_neg hclose, if_pos rfl, read, lineAt_newline htotal]
  · rw [read_cons _ hnewline (not_startsComment_of_blank hc), lexFrom, if_neg hclose,
      if_neg hnewline, if_pos hc, read]

theorem read_close : read total (.group start acc) (')' :: text) =
    (read total (.word []) text).cons start (.token (groupToken acc.reverse)) := by
  have hnewline : ')' ≠ '\n' := by decide
  rw [read_cons _ hnewline (not_startsComment (by decide) (by decide))]
  rfl

theorem read_group_char (hclose : c ≠ ')') (hblank : isBlank c = false)
    (hcomment : ¬ StartsComment (c :: text)) :
    read total (.group start acc) (c :: text) = read total (.group start (c :: acc)) text := by
  have hnewline := ne_newline_of_not_blank hblank
  rw [read_cons _ hnewline hcomment, lexFrom, if_neg hclose, if_neg hnewline, hblank,
    if_neg Bool.false_ne_true, read]

/-- A group is read up to its parenthesis. -/
theorem Inside.read_eq (h : Inside text g rest) (acc : List Char)
    (htotal : text.count '\n' ≤ total) : read total (.group start acc) text =
      (read total (.word []) rest).cons start (.token (groupToken (acc.reverse ++ g))) := by
  induction h generalizing acc with
  | close => rw [read_close, List.append_nil]
  | blank hc h ih =>
      rw [read_group_blank hc htotal]
      exact ih acc (count_le_of_suffix (List.suffix_cons _ _) htotal)
  | comment hc h ih =>
      rw [read_comment _ hc]
      exact ih acc (count_le_of_suffix (afterComment_suffix _) htotal)
  | char hclose hblank hcomment h ih =>
      rw [read_group_char hclose hblank hcomment,
        ih _ (count_le_of_suffix (List.suffix_cons _ _) htotal), List.reverse_cons,
        List.append_assoc, List.singleton_append]

/-- What is no inside of a group is read to the end of the text. -/
theorem read_of_not_inside (h : ∀ g rest, ¬ Inside text g rest) (acc : List Char)
    (htotal : text.count '\n' ≤ total) :
    read total (.group start acc) text = ⟨[], some start⟩ := by
  induction hn : text.length using Nat.strongRecOn generalizing text acc with
  | ind n ih =>
    by_cases hcomment : StartsComment text
    · rw [read_comment _ hcomment]
      exact ih _ (hn ▸ length_afterComment_lt hcomment)
        (fun g rest hg => h g rest (.comment hcomment hg)) acc
        (count_le_of_suffix (afterComment_suffix _) htotal) rfl
    cases text with
    | nil => rfl
    | cons c text =>
        have hrest : ∀ acc, (∀ g rest, ¬ Inside text g rest) →
            read total (.group start acc) text = ⟨[], some start⟩ := fun acc hg =>
          ih _ (hn ▸ Nat.lt_succ_self _) hg acc
            (count_le_of_suffix (List.suffix_cons _ _) htotal) rfl
        by_cases hclose : c = ')'
        · exact absurd (hclose ▸ Inside.close) (h [] text)
        cases hblank : isBlank c with
        | true =>
            rw [read_group_blank hblank htotal]
            exact hrest acc fun g rest hg => h g rest (.blank hblank hg)
        | false =>
            rw [read_group_char hclose hblank hcomment]
            exact hrest _ fun g rest hg => h (c :: g) rest (.char hclose hblank hcomment hg)

/-- **What a text is made of is what is read from it.** -/
theorem Layout.read_eq (h : Layout text p) (htotal : text.count '\n' ≤ total) :
    read total (.word []) text = p.lexemes (lineAt total) := by
  -- Before each part the reader has an empty word open; only a group changes what is open, and
  -- `Inside.read_eq` brings the reader back.
  induction h with
  | done => rfl
  | blank hc h ih =>
      rw [read_blank hc htotal, consWord_nil]
      exact ih (count_le_of_suffix (List.suffix_cons _ _) htotal)
  | comment hc h ih =>
      rw [read_comment _ hc]
      exact ih (count_le_of_suffix (afterComment_suffix _) htotal)
  | @word text w rest p hstart hw h ih =>
      obtain ⟨hread, hline⟩ : read total (.word []) text =
          read total (.word (w.reverse ++ [])) rest ∧ lineAt total text = lineAt total rest :=
        hw.read_eq []
      have hrest := count_le_of_suffix (hw.eq_append ▸ List.suffix_append _ _) htotal
      rw [hread, List.append_nil, read_break hw.not_inWord hrest, ih hrest, ← hline,
        consWord_reverse (hw.ne_nil hstart), Parts.lexemes_cons]
  | group hg h ih =>
      have hinside := count_le_of_suffix (List.suffix_cons _ _) htotal
      rw [read_open, consWord_nil, hg.read_eq [] hinside, ih, Parts.lexemes_cons]
      · rfl
      · exact count_le_of_suffix ((List.suffix_cons _ _).trans hg.suffix) hinside
  | semicolon h ih =>
      rw [read_semicolon, consWord_nil, ih, Parts.lexemes_cons]
      exact count_le_of_suffix (List.suffix_cons _ _) htotal
  | unclosed h =>
      rw [read_open, consWord_nil, read_of_not_inside h]
      · rfl
      · exact count_le_of_suffix (List.suffix_cons _ _) htotal

/-- **The lexemes of a text are its parts, with their lines.** -/
theorem lex_eq (h : Layout text p) : lex text = p.lexemes (lineAt (text.count '\n')) := by
  rw [← h.read_eq (Nat.le_refl _), read, lineAt, Nat.sub_self]
  rfl

end EmbeddedBuffers.Svf
