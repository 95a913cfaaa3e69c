import EmbeddedBuffers.Proofs.Source.Operands

/-!
# Arguments as they are shown

The form in which messages show an argument can be read again: words stand as they are, a string
stands between quotes with escapes in it, and a list in braces. Main statement:
`readAll_intercalate_render`.
-/

namespace EmbeddedBuffers

namespace Argument

/-- The characters of bare words that need no quotes. -/
def isBare (c : Char) : Bool := Text.isNameChar c || ['.', '+', '-'].contains c

/-- The characters that stand between quotes as themselves or behind a backslash: what ASCII can
print, and four controls. -/
def isQuotable (c : Char) : Bool :=
  (decide (0x20 ≤ c.toNat) && decide (c.toNat < 0x7F)) || ['\x00', '\t', '\n', '\r'].contains c

/-- Arguments that are shown as they are written: no word is empty or needs quotes, and every
string has an escape for what it cannot hold. -/
inductive Legible : Argument → Prop
  | words {t : String} (hne : t ≠ "") (h : ∀ c ∈ t.toList, isBare c = true) : Legible (.words t)
  | string {t : String} (h : ∀ c ∈ t.toList, isQuotable c = true) : Legible (.string t)
  | list {items : List Argument} (h : ∀ a ∈ items, Legible a) : Legible (.list items)

/-! ## Characters -/

theorem isBare_iff {c : Char} :
    isBare c = true ↔ Text.isNameChar c = true ∨ c = '.' ∨ c = '+' ∨ c = '-' := by
  simp [isBare]

theorem isPlain_of_isBare {c : Char} (h : isBare c = true) : Source.isPlain c = true := by
  rcases isBare_iff.1 h with h | rfl | rfl | rfl
  · exact Source.isPlain_of_isNameChar h
  · decide
  · decide
  · decide

/-- What a quotable character is between quotes, and that it is read as itself. -/
theorem exists_piece {c : Char} (h : isQuotable c = true) :
    ∃ p : Literal.Piece, p.text = Text.quotedChar c ∧ p.meaning = c := by
  by_cases hescape : c ∈ ['"', '\\', '\n', '\r', '\t', '\x00']
  · simp only [List.mem_cons, List.not_mem_nil, or_false] at hescape
    rcases hescape with rfl | rfl | rfl | rfl | rfl | rfl
    · exact ⟨.escape '"' rfl, rfl, rfl⟩
    · exact ⟨.escape '\\' rfl, rfl, rfl⟩
    · exact ⟨.escape 'n' rfl, rfl, rfl⟩
    · exact ⟨.escape 'r' rfl, rfl, rfl⟩
    · exact ⟨.escape 't' rfl, rfl, rfl⟩
    · exact ⟨.escape '0' rfl, rfl, rfl⟩
  · have hall : ∀ n < 128, isQuotable (Char.ofNat n) = true →
        Char.ofNat n ∉ ['"', '\\', '\n', '\r', '\t', '\x00'] →
        Text.quotedChar (Char.ofNat n) = [Char.ofNat n] := by decide
    have hlt : c.toNat < 128 := by
      simp only [isQuotable, Bool.or_eq_true, Bool.and_eq_true, decide_eq_true_eq] at h
      rcases h with h | h
      · omega
      · simp only [List.contains_iff_mem, List.mem_cons, List.not_mem_nil, or_false] at h
        rcases h with rfl | rfl | rfl | rfl <;> decide
    have hself : Text.quotedChar c = [c] :=
      Text.forall_of_lt (p := fun c => isQuotable c = true →
        c ∉ ['"', '\\', '\n', '\r', '\t', '\x00'] → Text.quotedChar c = [c]) hall hlt h hescape
    simp only [List.mem_cons, List.not_mem_nil, or_false, not_or] at hescape
    exact ⟨.plain c ⟨hescape.1, hescape.2.1, hescape.2.2.1⟩, hself.symm, rfl⟩

theorem exists_pieces {s : List Char} (h : ∀ c ∈ s, isQuotable c = true) :
    ∃ ps : List Literal.Piece, ps.flatMap Literal.Piece.text = s.flatMap Text.quotedChar ∧
      ps.map Literal.Piece.meaning = s := by
  induction s with
  | nil => exact ⟨[], rfl, rfl⟩
  | cons c s ih =>
      obtain ⟨hc, hs⟩ := List.forall_mem_cons.1 h
      obtain ⟨p, htext, hmeaning⟩ := exists_piece hc
      obtain ⟨ps, htexts, hmeanings⟩ := ih hs
      refine ⟨p :: ps, ?_, ?_⟩
      · rw [List.flatMap_cons, List.flatMap_cons, htext, htexts]
      · rw [List.map_cons, hmeaning, hmeanings]

/-! ## Arguments -/

open Source

/-- An argument is shown as one that is written. -/
def ShownAs (a : Argument) (o : Operand) : Prop := o.text = a.render.toList ∧ o.meaning = a

theorem exists_shownAs_words {t : String} (hne : t ≠ "") (h : ∀ c ∈ t.toList, isBare c = true) :
    ∃ o, ShownAs (.words t) o := by
  have hslash : '/' ∉ t.toList := fun hmem => absurd (h '/' hmem) (by decide)
  let w : Word :=
    { text := t.toList
      ne_nil := by simpa using hne
      plain := fun c hc => isPlain_of_isBare (h c hc)
      noComment := opensComment_of_not_mem hslash }
  refine ⟨.words w [], ?_, ?_⟩
  · rw [Operand.text, render]
    rfl
  · rw [Operand.meaning]
    exact congrArg words String.ofList_toList

theorem exists_shownAs_string {t : String} (h : ∀ c ∈ t.toList, isQuotable c = true) :
    ∃ o, ShownAs (.string t) o := by
  obtain ⟨ps, htexts, hmeanings⟩ := exists_pieces h
  refine ⟨.strings (.plain [] List.mem_cons_self ps) [], ?_, ?_⟩
  · rw [Operand.text, render, Text.quoted, String.toList_ofList, ← htexts]
    rfl
  · rw [Operand.meaning, List.flatMap_singleton, StringLiteral.meaning, hmeanings,
      String.ofList_toList]

/-- Items that are shown as they are written, with commas between them. -/
theorem exists_listText {items : List Argument} (h : ∀ a ∈ items, ∃ o, ShownAs a o) :
    ∃ os, Operand.listText os = (renderItems items).toList ∧ Operand.meanings os = items := by
  induction items with
  | nil => exact ⟨[], rfl, rfl⟩
  | cons a items ih =>
      obtain ⟨⟨o, htext, hmeaning⟩, hitems⟩ := List.forall_mem_cons.1 h
      obtain ⟨os, htexts, hmeanings⟩ := ih hitems
      refine ⟨o :: os, ?_, by rw [Operand.meanings, hmeaning, hmeanings]⟩
      cases items with
      | nil =>
          have hnil : os = [] := by
            rw [← List.length_eq_zero_iff, ← Operand.length_meanings, hmeanings]
            rfl
          rw [hnil, Operand.listText, renderItems, htext]
      | cons b items =>
          obtain ⟨o', os', rfl⟩ : ∃ o' os', os = o' :: os' := by
            refine List.exists_cons_of_ne_nil ?_
            rintro rfl
            cases hmeanings
          rw [Operand.listText, renderItems, htexts, htext]
          simp

/-- **A legible argument is shown as one that is written.** -/
theorem Legible.exists_shownAs {a : Argument} (h : a.Legible) : ∃ o, ShownAs a o := by
  induction h with
  | words hne h => exact exists_shownAs_words hne h
  | string h => exact exists_shownAs_string h
  | list h ih =>
      obtain ⟨os, htexts, hmeanings⟩ := exists_listText ih
      refine ⟨.list os, ?_, by rw [Operand.meaning, hmeanings]⟩
      rw [Operand.text, render, htexts]
      simp

theorem renderItems_eq (items : List Argument) :
    renderItems items = String.intercalate ", " (items.map render) := by
  apply String.toList_inj.1
  rw [String.toList_intercalate]
  induction items with
  | nil => rfl
  | cons a items ih =>
      cases items with
      | nil => rw [renderItems, List.map_singleton, List.map_singleton, List.intercalate_singleton]
      | cons b items =>
          rw [renderItems, String.toList_append, String.toList_append, ih]
          simp only [List.map_cons, List.intercalate_cons_cons]

/-- **Arguments are read back from the form in which they are shown**, and cutting any text at its
commas loses nothing of it: joined again, the parts are the text. -/
theorem readAll_intercalate_render :
    (∀ items : List Argument, (∀ a ∈ items, a.Legible) →
      readAll (String.intercalate ", " (items.map render)).toList = .ok items) ∧
    ∀ (text : List Char) (parts : List (List Char)), cut [] false text = .ok parts →
      List.intercalate [','] parts = text := by
  refine ⟨fun items h => ?_, fun text parts h => (intercalate_cut [] false text parts h).2⟩
  obtain ⟨os, htexts, hmeanings⟩ := exists_listText fun a ha => (h a ha).exists_shownAs
  rw [← renderItems_eq, ← htexts]
  cases os with
  | nil =>
      rw [← hmeanings]
      rfl
  | cons o os => rw [Operand.readAll_listText, hmeanings]

/-- A list in a list, a string with a quote, a comma and a line break in it, and a word of signs. -/
theorem readAll_intercalate_render_nested :
    readAll "uint8_t, \x7b+1.5, \x7b\"a\\\",\\n\x7d\"\x7d\x7d".toList =
        .ok [.words "uint8_t", .list [.words "+1.5", .list [.string "a\",\n\x7d"]]] ∧
      List.intercalate [','] ["\x7ba, b\x7d".toList, " c".toList] = "\x7ba, b\x7d, c".toList := by
  refine ⟨?_, ?_⟩
  · refine readAll_intercalate_render.1
      [.words "uint8_t", .list [.words "+1.5", .list [.string "a\",\n\x7d"]]] fun a ha => ?_
    have hstring : Legible (.string "a\",\n\x7d") := .string (by decide)
    simp only [List.mem_cons, List.not_mem_nil, or_false] at ha
    rcases ha with rfl | rfl
    · exact .words (by decide) (by decide)
    · refine .list fun a ha => ?_
      simp only [List.mem_cons, List.not_mem_nil, or_false] at ha
      rcases ha with rfl | rfl
      · exact .words (by decide) (by decide)
      · exact .list fun a ha => List.mem_singleton.1 ha ▸ hstring
  · have hcut := Operand.cut_listText
      (.list [.words ⟨['a'], by decide, by decide, by decide⟩ [],
        .words ⟨['b'], by decide, by decide, by decide⟩ []])
      [.words ⟨['c'], by decide, by decide, by decide⟩ []]
    exact readAll_intercalate_render.2 "\x7ba, b\x7d, c".toList
      ["\x7ba, b\x7d".toList, " c".toList] hcut

end Argument

end EmbeddedBuffers
