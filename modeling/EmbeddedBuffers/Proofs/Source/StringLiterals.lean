import EmbeddedBuffers.Proofs.Text.Trimming
import EmbeddedBuffers.Source.Literal
import EmbeddedBuffers.Text.Name

/-!
# String literals that are well formed

A string literal as a tree: an encoding mark, then characters and escapes between quotes, or the
delimiter and the contents of a raw string. Main statements: `StringLiteral.split?_text`, by which
such a literal is taken off the front of any text, and `StringLiteral.contents_text`, by which it
means what the tree says. Where no quote follows a word there is no literal
(`Literal.split?_eq_none`).
-/

namespace EmbeddedBuffers

namespace Literal

/-! ## Where no literal starts -/

theorem name_of_mark {mark : List Char} (h : mark ∈ [] :: (plainMarks ++ rawMarks)) :
    ∀ c ∈ mark, Text.isNameChar c = true := by
  revert mark
  decide

/-- After a mark that a text starts with, a quote is the first character that is in no name. -/
theorem dropWhile_of_strip? {mark s rest : List Char} {q : Char}
    (hmark : mark ∈ [] :: (plainMarks ++ rawMarks)) (h : Text.strip? mark s = some (q :: rest))
    (hq : q = '"' ∨ q = '\'') : s.dropWhile Text.isNameChar = q :: rest := by
  rw [Text.strip?_eq_some h, List.dropWhile_append_of_pos (name_of_mark hmark)]
  exact List.dropWhile_cons_of_neg (by rcases hq with rfl | rfl <;> decide)

/-- **A word that no quote follows starts no literal.** -/
theorem split?_eq_none {s : List Char}
    (h : ∀ c, (s.dropWhile Text.isNameChar).head? = some c → c ≠ '"' ∧ c ≠ '\'') :
    split? s = none := by
  have hraw : ∀ mark ∈ rawMarks, rawAfter? mark s = none := by
    intro mark hmark
    unfold rawAfter?
    split
    · next rest heq =>
      have hdrop := dropWhile_of_strip?
        (List.mem_cons_of_mem _ (List.mem_append_right _ hmark)) heq (Or.inl rfl)
      exact absurd rfl (h '"' (by rw [hdrop]; rfl)).1
    · rfl
  have hplain : ∀ mark ∈ [] :: plainMarks, plainAfter? mark s = none := by
    intro mark hmark
    unfold plainAfter?
    split
    · next q rest heq =>
      refine if_neg fun hq => ?_
      have hdrop := dropWhile_of_strip?
        ((List.mem_cons.1 hmark).elim (fun e => e ▸ List.mem_cons_self) fun hm =>
          List.mem_cons_of_mem _ (List.mem_append_left _ hm)) heq hq
      obtain ⟨h₁, h₂⟩ := h q (by rw [hdrop]; rfl)
      exact hq.elim h₁ h₂
    · rfl
  unfold split?
  rw [List.findSome?_eq_none_iff.2 hraw,
    List.findSome?_eq_none_iff.2 fun mark hmark => hplain mark (List.mem_cons_of_mem _ hmark)]
  exact hplain [] List.mem_cons_self

/-! ## Between quotes -/

/-- A character between quotes as it is written. -/
inductive Piece
  | plain (c : Char) (h : c ≠ '"' ∧ c ≠ '\\' ∧ c ≠ '\n')
  /-- A backslash and a letter. -/
  | escape (c : Char) (h : (escape? c).isSome = true)
  /-- A backslash, an `x` and two digits. -/
  | hex (a b : Char) (ha : (Text.digit? 16 a).isSome = true)
      (hb : (Text.digit? 16 b).isSome = true)

namespace Piece

def text : Piece → List Char
  | .plain c _ => [c]
  | .escape c _ => ['\\', c]
  | .hex a b _ _ => ['\\', 'x', a, b]

def meaning : Piece → Char
  | .plain c _ => c
  | .escape c h => (escape? c).get h
  | .hex a b ha hb => Char.ofNat ((Text.digit? 16 a).get ha * 16 + (Text.digit? 16 b).get hb)

end Piece

theorem digit?_lt {a : Char} {x : Nat} (h : Text.digit? 16 a = some x) : x < 16 := by
  unfold Text.digit? at h
  simpa using (Option.filter_eq_some_iff.1 h).2

/-- A digit is none of the characters that mean something between quotes. -/
theorem ne_of_digit? {a : Char} (h : (Text.digit? 16 a).isSome = true) :
    a ≠ '"' ∧ a ≠ '\\' ∧ a ≠ '\n' ∧ a ≠ '+' := by
  refine ⟨?_, ?_, ?_, ?_⟩ <;>
    (rintro rfl
     exact absurd h (by decide))

theorem unsigned?_hex {a b : Char} (ha : (Text.digit? 16 a).isSome = true)
    (hb : (Text.digit? 16 b).isSome = true) : Text.unsigned? 16 256 [a, b] =
      some ((Text.digit? 16 a).get ha * 16 + (Text.digit? 16 b).get hb) := by
  obtain ⟨x, hx⟩ := Option.isSome_iff_exists.1 ha
  obtain ⟨y, hy⟩ := Option.isSome_iff_exists.1 hb
  have hx16 := digit?_lt hx
  have hy16 := digit?_lt hy
  have hplus : a ≠ '+' := (ne_of_digit? ha).2.2.2
  have hdigits : Text.digits? 16 [a, b] = some (x * 16 + y) := by
    simp [Text.digits?, Text.digitsFrom?, hx, hy]
  unfold Text.unsigned?
  split
  · next heq => exact absurd (List.cons.inj heq).1 hplus
  · show (Text.digits? 16 [a, b]).filter _ = _
    rw [hdigits, Option.filter_some, if_pos (by simp only [decide_eq_true_eq]; omega)]
    simp [hx, hy]

/-- The text between quotes runs up to the quote. -/
theorem plainBody_pieces (ps : List Piece) (rest : List Char) :
    plainBody '"' (ps.flatMap Piece.text ++ '"' :: rest) =
      (ps.flatMap Piece.text ++ ['"'], rest) := by
  induction ps with
  | nil => simp [plainBody]
  | cons p ps ih =>
      cases p with
      | plain c h =>
          obtain ⟨hquote, hslash, hbreak⟩ := h
          simp only [List.flatMap_cons, Piece.text, List.cons_append, List.nil_append]
          rw [plainBody.eq_4 _ _ _ (fun hc _ => hslash hc) (fun _ _ hc _ => hslash hc),
            if_neg hbreak, if_neg hquote, ih]
      | escape c h => simp [Piece.text, plainBody, ih]
      | hex a b ha hb =>
          obtain ⟨ha₁, ha₂, ha₃, -⟩ := ne_of_digit? ha
          obtain ⟨hb₁, hb₂, hb₃, -⟩ := ne_of_digit? hb
          simp [Piece.text, plainBody, ih, ha₁, ha₂, ha₃, hb₁, hb₂, hb₃]

theorem unescape_pieces (ps : List Piece) :
    unescape (ps.flatMap Piece.text) = .ok (ps.map Piece.meaning) := by
  induction ps with
  | nil => rfl
  | cons p ps ih =>
      cases p with
      | plain c h =>
          have hslash : c ≠ '\\' := h.2.1
          simp only [List.flatMap_cons, Piece.text, List.cons_append, List.nil_append]
          rw [unescape.eq_7 _ _ (fun hc _ => hslash hc) (fun hc _ => hslash hc)
            (fun _ hc _ => hslash hc) (fun _ _ _ hc _ => hslash hc) (fun _ _ hc _ => hslash hc), ih]
          rfl
      | escape c h =>
          obtain ⟨d, hd⟩ := Option.isSome_iff_exists.1 h
          have hx : c ≠ 'x' := by
            rintro rfl
            exact absurd h (by decide)
          simp only [List.flatMap_cons, Piece.text, List.cons_append, List.nil_append]
          rw [unescape.eq_6 _ _ (fun hc _ => hx hc) (fun _ hc _ => hx hc)
            (fun _ _ _ hc _ => hx hc), hd, ih]
          simp [Except.map, Piece.meaning, hd]
      | hex a b ha hb =>
          simp only [List.flatMap_cons, Piece.text, List.cons_append, List.nil_append]
          rw [unescape, unsigned?_hex ha hb]
          simp [ih, Except.map, Piece.meaning]

/-! ## Raw strings -/

/-- A mark is found where it stands: it cannot begin earlier and reach into itself, as its first
character occurs in it only once. -/
theorem splitAtText_append {first : Char} {tail content : List Char} (hfirst : first ∉ tail)
    (h : ¬first :: tail <:+: content) (rest : List Char) :
    Text.splitAtText (first :: tail) (content ++ first :: (tail ++ rest)) =
      some (content, rest) := by
  induction content with
  | nil =>
      rw [List.nil_append, Text.splitAtText, ← List.cons_append, Text.strip?_append]
  | cons c content ih =>
      have hnone : Text.strip? (first :: tail) (c :: (content ++ first :: (tail ++ rest))) =
          none := by
        rw [Option.eq_none_iff_forall_ne_some]
        intro after hafter
        have heq : (c :: content) ++ first :: (tail ++ rest) = first :: tail ++ after :=
          Text.strip?_eq_some hafter
        rcases List.append_eq_append_iff.1 heq with ⟨u, hu, hrest⟩ | ⟨u, hu, -⟩
        · -- The mark would end behind the content.
          cases u with
          | nil => exact h ⟨[], [], by rw [hu, List.nil_append, List.append_nil, List.append_nil]⟩
          | cons d u =>
              obtain rfl : first = d := (List.cons.inj hrest).1
              have htail : tail = content ++ first :: u := (List.cons.inj hu).2
              exact hfirst (by simp [htail])
        · exact h ⟨[], u, hu.symm⟩
      have hcontent := ih fun hwithin => h (hwithin.trans (List.infix_cons (List.infix_refl _)))
      rw [List.cons_append, Text.splitAtText, hnone, hcontent]
      rfl

end Literal

/-- A string literal. -/
inductive StringLiteral
  | plain (mark : List Char) (hmark : mark ∈ [] :: Literal.plainMarks) (pieces : List Literal.Piece)
  | raw (mark : List Char) (hmark : mark ∈ Literal.rawMarks) (delimiter content : List Char)
      (hopen : '(' ∉ delimiter) (hclose : ')' ∉ delimiter)
      (h : ¬ ')' :: (delimiter ++ ['"']) <:+: content)

namespace StringLiteral

open Literal

def text : StringLiteral → List Char
  | .plain mark _ pieces => mark ++ '"' :: (pieces.flatMap Piece.text ++ ['"'])
  | .raw mark _ delimiter content _ _ _ =>
    mark ++ '"' :: (delimiter ++ '(' :: (content ++ ')' :: (delimiter ++ ['"'])))

/-- The characters that a literal stands for. -/
def meaning : StringLiteral → List Char
  | .plain _ _ pieces => pieces.map Piece.meaning
  | .raw _ _ _ content _ _ _ => content

theorem split?_plain {mark s body after : List Char} {q : Char} (hmark : mark ∈ [] :: plainMarks)
    (hq : q = '"' ∨ q = '\'') (h : plainBody q s = (body, after)) :
    split? (mark ++ q :: s) = some (mark ++ q :: body, after) := by
  have hafter : plainAfter? mark (mark ++ q :: s) = some (mark ++ q :: body, after) := by
    rw [plainAfter?, Text.strip?_append]
    dsimp only
    rw [if_pos hq, h]
  simp only [plainMarks, List.mem_cons, List.not_mem_nil, or_false] at hmark
  rcases hq with rfl | rfl <;> rcases hmark with rfl | rfl | rfl | rfl | rfl <;>
    simpa [split?, rawMarks, plainMarks, rawAfter?, plainAfter?, Text.strip?] using hafter

theorem split?_raw {mark s body after : List Char} (hmark : mark ∈ rawMarks)
    (h : rawBody s = (body, after)) :
    split? (mark ++ '"' :: s) = some (mark ++ '"' :: body, after) := by
  have hafter : rawAfter? mark (mark ++ '"' :: s) = some (mark ++ '"' :: body, after) := by
    rw [rawAfter?, Text.strip?_append]
    simp [h]
  simp only [rawMarks, List.mem_cons, List.not_mem_nil, or_false] at hmark
  rcases hmark with rfl | rfl | rfl | rfl | rfl <;>
    simpa [split?, rawMarks, rawAfter?, Text.strip?] using hafter

/-- **A literal is taken off the front of a text as a whole.** -/
theorem split?_text (l : StringLiteral) (rest : List Char) :
    split? (l.text ++ rest) = some (l.text, rest) := by
  cases l with
  | plain mark hmark pieces =>
      have := split?_plain hmark (Or.inl rfl) (plainBody_pieces pieces rest)
      simpa [text] using this
  | raw mark hmark delimiter content hopen hclose h =>
      have hbody : rawBody (delimiter ++ '(' :: (content ++ ')' :: (delimiter ++ ['"'] ++ rest))) =
          (delimiter ++ '(' :: content ++ (')' :: delimiter ++ ['"']), rest) := by
        have htail : ')' ∉ delimiter ++ ['"'] := by simp [hclose]
        have hcontent := splitAtText_append htail h rest
        rw [rawBody, Text.splitOnce_append hopen]
        dsimp only [List.cons_append] at hcontent ⊢
        rw [hcontent]
      have := split?_raw hmark hbody
      simpa [text] using this

theorem quote_of_mark {mark : List Char} (h : mark ∈ [] :: (plainMarks ++ rawMarks)) :
    '"' ∉ mark := by
  revert mark
  decide

/-- **A literal means the characters that it is made of.** -/
theorem contents_text (l : StringLiteral) : contents l.text = .ok l.meaning := by
  cases l with
  | plain mark hmark pieces =>
      have hquote : '"' ∉ mark := quote_of_mark (by
        rcases List.mem_cons.1 hmark with rfl | hmark
        · exact List.mem_cons_self
        · exact List.mem_cons_of_mem _ (List.mem_append_left _ hmark))
      have hlast : mark.getLast? ≠ some 'R' := by
        revert mark
        decide
      simp only [contents, text, Text.splitOnce_append hquote, hlast, if_false,
        Text.stripEnd?_append, unescape_pieces, meaning]
  | raw mark hmark delimiter content hopen hclose h =>
      have hquote : '"' ∉ mark := quote_of_mark
        (List.mem_cons_of_mem _ (List.mem_append_right _ hmark))
      have hlast : mark.getLast? = some 'R' := by
        revert mark
        decide
      have hend : Text.stripEnd? (')' :: delimiter ++ ['"'])
          (content ++ ')' :: (delimiter ++ ['"'])) = some content := Text.stripEnd?_append _ _
      simp only [contents, text, Text.splitOnce_append hquote, hlast, if_true,
        Text.splitOnce_append hopen, hend, meaning]

/-- A literal starts with its quote or with a letter. -/
theorem exists_cons_text (l : StringLiteral) : ∃ c s, l.text = c :: s ∧
    (c = '"' ∨ c.isAlpha = true) := by
  cases l with
  | plain mark hmark pieces =>
      simp only [plainMarks, List.mem_cons, List.not_mem_nil, or_false] at hmark
      rcases hmark with rfl | rfl | rfl | rfl | rfl <;> exact ⟨_, _, rfl, by decide⟩
  | raw mark hmark delimiter content hopen hclose h =>
      simp only [rawMarks, List.mem_cons, List.not_mem_nil, or_false] at hmark
      rcases hmark with rfl | rfl | rfl | rfl | rfl <;> exact ⟨_, _, rfl, by decide⟩

theorem getLast?_text (l : StringLiteral) : l.text.getLast? = some '"' := by
  cases l <;> simp [text, List.getLast?_append, List.getLast?_cons]

end StringLiteral

end EmbeddedBuffers
