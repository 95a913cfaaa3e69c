import EmbeddedBuffers.Proofs.Source.DirectiveLines
import EmbeddedBuffers.Proofs.Source.Steps

/-!
# What the readers of a scan depend on

Directive lines, words, headers, calls and endings that are read off the front of a text are the
same when the text behind them is exchanged, if that text starts a word. Main statements:
`Directive.Line.read_exchange`, `Source.word_exchange`, `Source.Header.read_exchange`,
`Source.Call.inside?_exchange` and `Scan.ending_exchange`.
-/

namespace EmbeddedBuffers

/-! ## Directive lines -/

namespace Directive.Line

/-- A directive line ends with its line, if not with the text. -/
theorem head?_rest {s : List Char} (h : (read s).rest ≠ []) : (read s).rest.head? = some '\n' := by
  fun_induction read s with
  | case1 => exact absurd rfl h
  | case2 => rfl
  | case3 rest ih => exact ih h
  | case4 rest ih => exact ih h
  | case5 rest =>
      have hhead := List.head?_dropWhile_not (· != '\n') rest
      change (rest.dropWhile (· != '\n')) ≠ [] at h
      show (rest.dropWhile (· != '\n')).head? = _
      cases hdrop : rest.dropWhile (· != '\n') with
      | nil => exact absurd hdrop h
      | cons c after =>
          rw [hdrop] at hhead
          simpa using hhead
  | case6 => exact absurd rfl h
  | case7 rest comment after hcomment ih => exact ih h
  | case8 c rest _ _ _ _ _ literal after hliteral ih => exact ih h
  | case9 c rest _ _ _ _ _ hliteral ih => exact ih h

/-- **A directive line stays the same when the lines behind it are exchanged.** -/
theorem read_exchange {s r : List Char} (h : (read s).rest = '\n' :: r) (r' : List Char) :
    read ((read s).written ++ '\n' :: r') = ⟨(read s).meaning, (read s).written, '\n' :: r'⟩ := by
  have replaces : ∀ b, Replaces (b ++ '\n' :: r') (b ++ '\n' :: r) := by
    rintro (- | ⟨c, b⟩)
    · exact ⟨List.cons_ne_nil _ _, fun _ => rfl⟩
    · exact .of_append (List.cons_ne_nil c b) _ _
  fun_induction read s with
  | case1 => cases h
  | case2 rest => rw [List.nil_append, read]
  | case3 rest ih =>
      show read ('\\' :: '\n' :: ((read rest).written ++ '\n' :: r')) = _
      rw [read, ih h]
      rfl
  | case4 rest ih =>
      show read ('\\' :: '\r' :: '\n' :: ((read rest).written ++ '\n' :: r')) = _
      rw [read, ih h]
      rfl
  | case5 rest =>
      have hline : lineRest ((lineRest rest).1 ++ '\n' :: r) = ((lineRest rest).1, '\n' :: r) := by
        rw [← h, lineRest_eq]
      show read ('/' :: '/' :: ((lineRest rest).1 ++ '\n' :: r')) = _
      rw [read, Source.lineRest_exchange hline ⟨List.cons_ne_nil _ _, fun _ => rfl⟩]
  | case6 => cases h
  | case7 rest comment after hcomment ih =>
      have hblock : blockComment? (comment ++ after) = some (comment, after) := by
        rw [blockComment?_eq hcomment, hcomment]
      show read ('/' :: '*' :: (comment ++ (read after).written ++ '\n' :: r')) = _
      rw [List.append_assoc, read.eq_6]
      split
      · next heq =>
        rw [Source.blockComment?_exchange hblock] at heq
        cases heq
      · next heq =>
        rw [Source.blockComment?_exchange hblock] at heq
        cases heq
        rw [ih h]
        rfl
  | case8 c rest _ _ _ _ _ literal after hliteral ih =>
      have hquote : c = '"' ∨ c = '\'' := by
        by_contra hplain
        rw [dif_neg hplain] at hliteral
        cases hliteral
      rw [dif_pos hquote] at hliteral
      obtain ⟨hsplit, hne⟩ := Literal.split?_eq hliteral
      obtain ⟨d, tail, rfl⟩ := List.exists_cons_of_ne_nil hne
      obtain rfl : d = c := (List.cons.inj hsplit).1
      have hafter : (read after).written ++ '\n' :: r = after := by
        rw [← h]
        exact read_eq after
      have hexchange : Literal.split? (d :: tail ++ ((read after).written ++ '\n' :: r')) =
          some (d :: tail, (read after).written ++ '\n' :: r') := by
        refine Literal.split?_exchange ?_ (replaces (read after).written)
        rw [hafter, hsplit, hliteral]
      rw [List.cons_append] at hexchange
      show read (d :: tail ++ (read after).written ++ '\n' :: r') = _
      rw [List.append_assoc, List.cons_append, read_literal hquote hexchange, ih h]
      rfl
  | case9 c rest hfeed hbreak hreturn hline hblock hliteral ih =>
      have hquote : ¬ (c = '"' ∨ c = '\'') := by
        intro hquote
        rw [dif_pos hquote, Literal.split?_quote hquote] at hliteral
        cases hliteral
      have hrest : rest = (read rest).written ++ '\n' :: r := by
        rw [← h]
        exact (read_eq rest).symm
      show read (c :: ((read rest).written ++ '\n' :: r')) = _
      rw [read_plain hfeed hquote, ih h]
      · rfl
      -- What would start another piece ends with the line feed at the latest.
      all_goals
        intro after hc heq
        generalize (read rest).written = written at hrest heq
        rcases written with - | ⟨d, - | ⟨e, written⟩⟩ <;> cases heq
      · exact hbreak _ hc hrest
      · exact hbreak _ hc hrest
      · exact hbreak _ hc hrest
      · exact hreturn _ hc hrest
      · exact hreturn _ hc hrest
      · exact hline _ hc hrest
      · exact hline _ hc hrest
      · exact hblock _ hc hrest
      · exact hblock _ hc hrest

end Directive.Line

namespace Source

/-! ## Words -/

/-- Two texts that start words, the first with a letter or a digit. -/
structure StartWords (t t' : List Char) : Prop where
  first : ∃ c rest, t = c :: rest ∧ c.isAlphanum = true
  second : ∃ c rest, t' = c :: rest ∧ Text.isNameChar c = true

variable {t t' : List Char}

theorem StartWords.head?_isNameChar (h : StartWords t t') {c : Char}
    (hc : t.head? = some c ∨ t'.head? = some c) : Text.isNameChar c = true := by
  obtain ⟨⟨d, rest, rfl, hd⟩, ⟨d', rest', rfl, hd'⟩⟩ := h
  rcases hc with hc | hc <;> cases hc
  · rw [Text.isNameChar, hd]
    rfl
  · exact hd'

theorem StartWords.ne_nil (h : StartWords t t') : t ≠ [] ∧ t' ≠ [] := by
  obtain ⟨⟨d, rest, rfl, -⟩, ⟨d', rest', rfl, -⟩⟩ := h
  exact ⟨List.cons_ne_nil _ _, List.cons_ne_nil _ _⟩

/-- Behind any piece one of them may stand in the place of the other. -/
theorem StartWords.replaces (h : StartWords t t') (b : List Char) :
    Replaces (b ++ t') (b ++ t) := by
  cases b with
  | nil =>
      refine .of_head? h.ne_nil.1 fun hfeed => ?_
      exact absurd (h.head?_isNameChar (Or.inl hfeed)) (by decide)
  | cons c b => exact .of_append (List.cons_ne_nil c b) _ _

/-- What a character of no word follows starts with that character. -/
theorem StartWords.head?_eq (h : StartWords t t') {b : List Char} {d : Char}
    (hd : Text.isNameChar d = false) :
    (b ++ t).head? = some d ↔ (b ++ t').head? = some d := by
  cases b with
  | nil =>
      constructor <;>
        · intro heq
          rw [h.head?_isNameChar (by simp [heq.symm])] at hd
          cases hd
  | cons c b => exact Iff.rfl

/-- Whether a number goes on with a character before a text. -/
def goesOn (c : Char) (rest : List Char) : Bool :=
  Text.isNameChar c || c == '.' || (c == '\'' && (rest.head?.map Char.isAlphanum).getD false)

theorem numberRest_cons {c : Char} {rest : List Char} (h : goesOn c rest = true) :
    numberRest (c :: rest) = (c :: (numberRest rest).1, (numberRest rest).2) := by
  rw [numberRest]
  exact if_pos h

theorem numberRest_stop {c : Char} {rest : List Char} (h : goesOn c rest = false) :
    numberRest (c :: rest) = ([], c :: rest) := by
  rw [numberRest]
  exact if_neg (by rw [← goesOn, h]; exact Bool.false_ne_true)

/-- What follows a number does not go on with it. -/
theorem goesOn_of_numberRest {s w r : List Char} {c : Char} (h : numberRest s = (w, c :: r)) :
    goesOn c r = false := by
  induction s generalizing w with
  | nil => cases h
  | cons d rest ih =>
      cases hd : goesOn d rest with
      | true =>
          rw [numberRest_cons hd] at h
          have hrest : (numberRest rest).2 = c :: r := congrArg Prod.snd h
          exact ih (Prod.ext rfl hrest)
      | false =>
          rw [numberRest_stop hd] at h
          cases h
          exact hd

/-- A quote within a number is followed by a character of the number. -/
theorem goesOn_exchange {c : Char} {s w r r' : List Char} (h : goesOn c s = true)
    (hnumber : numberRest s = (w, r)) : goesOn c (w ++ r') = true := by
  by_cases hplain : (Text.isNameChar c || c == '.') = true
  · rw [goesOn, hplain, Bool.true_or]
  · unfold goesOn at h ⊢
    rw [Bool.eq_false_iff.2 hplain, Bool.false_or, Bool.and_eq_true] at h ⊢
    refine ⟨h.1, ?_⟩
    cases s with
    | nil => exact absurd h.2 Bool.false_ne_true
    | cons d s =>
        have hd : d.isAlphanum = true := h.2
        rw [numberRest_cons (by rw [goesOn, Text.isNameChar, hd]; rfl)] at hnumber
        cases hnumber
        exact hd

theorem numberRest_exchange {s w r r' : List Char} (h : numberRest s = (w, r))
    (hr' : numberRest r' = ([], r')) : numberRest (w ++ r') = (w, r') := by
  induction s generalizing w with
  | nil =>
      cases h
      exact hr'
  | cons c s ih =>
      cases hc : goesOn c s with
      | true =>
          obtain ⟨word, after, hword⟩ : ∃ word after, numberRest s = (word, after) := ⟨_, _, rfl⟩
          rw [numberRest_cons hc, hword] at h
          cases h
          rw [List.cons_append, numberRest_cons (goesOn_exchange hc hword), ih hword]
      | false =>
          rw [numberRest_stop hc] at h
          cases h
          exact hr'

/-- **A word ends before a word starts**, and stays the same when what starts there is exchanged. -/
theorem word_exchange (ht : StartWords t t') {c : Char} {a w b : List Char}
    (hc : Text.isNameChar c = true) (h : word (c :: a) = (w, b ++ t)) :
    b ≠ [] ∧ word (w ++ (b ++ t')) = (w, b ++ t') := by
  have hsplit := word_eq (c :: a)
  rw [h] at hsplit
  unfold word at h
  dsimp only at h
  split at h
  · next hdigit =>
    obtain ⟨e, after, hte, he⟩ := ht.first
    have hnever : ∀ rest, goesOn e rest = true := by
      intro rest
      rw [goesOn, Text.isNameChar, he]
      rfl
    have hb : b ≠ [] := by
      rintro rfl
      rw [List.nil_append, hte] at h
      have hstop := goesOn_of_numberRest h
      rw [hnever] at hstop
      cases hstop
    obtain ⟨d, b, rfl⟩ := List.exists_cons_of_ne_nil hb
    refine ⟨List.cons_ne_nil _ _, ?_⟩
    have hstop := goesOn_of_numberRest h
    -- A quote before the word would go on with the number.
    have hstop' : goesOn d (b ++ t') = false := by
      cases b with
      | nil =>
          change goesOn d t = false at hstop
          rw [hte] at hstop
          unfold goesOn at hstop ⊢
          rw [List.head?_cons, Option.map_some, he, Option.getD_some, Bool.and_true] at hstop
          rw [Bool.or_eq_false_iff] at hstop ⊢
          exact ⟨hstop.1, by rw [hstop.2, Bool.false_and]⟩
      | cons f b => exact hstop
    have hexchange := numberRest_exchange h (numberRest_stop hstop')
    rw [numberRest_cons (by rw [goesOn, hc]; rfl)] at h
    obtain ⟨w', rfl⟩ : ∃ w', w = c :: w' := ⟨_, (congrArg Prod.fst h).symm⟩
    rw [List.cons_append, word, if_pos hdigit]
    exact hexchange
  · next hname =>
    obtain ⟨htake, hdrop⟩ := Prod.mk.inj h
    have hstop := Text.head?_of_span hdrop
    have hb : b ≠ [] := by
      rintro rfl
      obtain ⟨e, after, hte, he⟩ := ht.first
      have hname := hstop e (by rw [List.nil_append, hte]; rfl)
      rw [ht.head?_isNameChar (Or.inl (by rw [hte]; rfl))] at hname
      cases hname
    refine ⟨hb, ?_⟩
    have hw : ∀ d ∈ w, Text.isNameChar d = true := by
      rw [← htake]
      exact fun d hd => List.mem_takeWhile_imp hd
    obtain ⟨htake', hdrop'⟩ := Text.span_append (b := b ++ t') hw fun d hd => by
      obtain ⟨e, b, rfl⟩ := List.exists_cons_of_ne_nil hb
      exact hstop d hd
    obtain ⟨w', rfl⟩ : ∃ w', w = c :: w' := by
      rw [← htake, List.takeWhile_cons_of_pos hc]
      exact ⟨_, rfl⟩
    rw [List.cons_append, word, if_neg hname]
    exact Prod.ext htake' hdrop'

/-! ## Headers -/

namespace Header

theorem written_ne_nil {c : Char} {s text : List Char} : (read text (c :: s)).written ≠ [] := by
  rw [read.eq_def]
  dsimp only
  split
  · next comment after hcomment =>
    intro h
    have hnil : comment ++ (read text after).written = [] := by
      cases hread : read text after <;> rw [hread] at h <;> exact h
    exact (comment?_eq hcomment).2 (List.append_eq_nil_iff.1 hnil).1
  · split
    · exact List.cons_ne_nil _ _
    · split
      · split
        · exact List.append_ne_nil_of_right_ne_nil _ (List.cons_ne_nil _ _)
        · exact List.cons_ne_nil _ _
      · intro h
        cases hread : read ((byteChars c).reverse ++ text) s <;> rw [hread] at h <;> cases h

/-- The same header with another text behind it. -/
def withRest (h : Header) (r : List Char) : Header :=
  match h with
  | .block names written _ => .block names written r
  | .statement written _ => .statement written r

theorem cons_withRest (piece : List Char) (h : Header) (r : List Char) :
    (h.cons piece).withRest r = (h.withRest r).cons piece := by
  cases h <;> rfl

theorem rest_cons (piece : List Char) (h : Header) : (h.cons piece).rest = h.rest := by
  cases h <;> rfl

theorem written_cons (piece : List Char) (h : Header) :
    (h.cons piece).written = piece ++ h.written := by
  cases h <;> rfl

theorem read_comment {text s comment after : List Char}
    (h : comment? s = some (comment, after)) : read text s = (read text after).cons comment := by
  cases s with
  | nil => cases h
  | cons c s =>
      rw [read.eq_def]
      dsimp only
      split
      · next heq =>
        rw [h] at heq
        cases heq
        rfl
      · next heq =>
        rw [h] at heq
        cases heq

/-- What becomes of a character at which no comment starts. -/
theorem read_cons {c : Char} {s text : List Char} (h : comment? (c :: s) = none) :
    read text (c :: s) =
      if c = '\x7b' then .block (headerNames text.reverse) [c] s
      else if c = ';' ∨ c = '=' then
        match Text.splitOnce ';' (c :: s) with
        | some (before, after) => .statement (before ++ [';']) after
        | none => .statement (c :: s) []
      else (read ((byteChars c).reverse ++ text) s).cons [c] := by
  rw [read.eq_def]
  dsimp only
  split
  · next heq =>
    rw [h] at heq
    cases heq
  · rfl

/-- **A header that is not the last stays the same when the text behind it is exchanged.** -/
theorem read_exchange {text s : List Char} (h : (read text s).rest ≠ []) (r' : List Char) :
    read text ((read text s).written ++ r') = (read text s).withRest r' := by
  fun_induction read text s with
  | case1 => exact absurd rfl h
  | case2 text c s comment after hcomment ih =>
      rw [rest_cons] at h
      obtain ⟨hsplit, -⟩ := comment?_eq hcomment
      have hafter := read_eq text after
      have hne : (read text after).written ≠ [] := by
        cases after with
        | nil =>
            rw [read] at h
            exact absurd rfl h
        | cons d after => exact written_ne_nil
      have hexchange : comment? (comment ++ ((read text after).written ++ r')) =
          some (comment, (read text after).written ++ r') := by
        refine comment?_exchange ?_ (Replaces.of_append hne (read text after).rest r')
        rw [hafter, hsplit, hcomment]
      rw [written_cons, List.append_assoc, read_comment hexchange, ih h, cons_withRest]
  | case3 text s hcomment =>
      show read text ('\x7b' :: r') = _
      rw [read_cons (comment?_eq_none (by simp)), if_pos rfl]
      rfl
  | case4 text c s hcomment hbrace hends before after hsplit =>
      have hnone : comment? (c :: (List.drop 1 (before ++ [';'] ++ r'))) = none := by
        refine comment?_eq_none ?_
        rcases hends with rfl | rfl <;> simp
      have heq := Text.splitOnce_eq hsplit
      have hhead : before ++ [';'] ++ r' = c :: List.drop 1 (before ++ [';'] ++ r') := by
        cases before with
        | nil => rw [← (List.cons.inj heq).1]; rfl
        | cons d before => rw [← (List.cons.inj heq).1]; rfl
      show read text (before ++ [';'] ++ r') = .statement (before ++ [';']) r'
      rw [hhead, read_cons hnone, if_neg hbrace, if_pos hends, ← hhead, List.append_assoc,
        List.singleton_append, Text.splitOnce_append (Text.notMem_of_splitOnce hsplit)]
  | case5 => exact absurd rfl h
  | case6 text c s hcomment hbrace hends ih =>
      rw [rest_cons] at h
      have hs := read_eq ((byteChars c).reverse ++ text) s
      cases s with
      | nil =>
          rw [read] at h
          exact absurd rfl h
      | cons d s =>
          obtain ⟨e, written, hwritten⟩ :=
            List.exists_cons_of_ne_nil (@written_ne_nil d s ((byteChars c).reverse ++ text))
          have hnone : comment?
              (c :: ((read ((byteChars c).reverse ++ text) (d :: s)).written ++ r')) = none := by
            refine comment?_eq_none_exchange hcomment ?_
            rw [hwritten] at hs ⊢
            rw [← hs]
            rfl
          rw [written_cons, List.singleton_append, List.cons_append, read_cons hnone, if_neg hbrace,
            if_neg hends, ih h, cons_withRest]

end Header

/-! ## Calls -/

namespace Call

/-- A call ends with the parenthesis that closes it. -/
theorem exists_written {depth : Nat} {inWord : Bool} {s : List Char} {call : Call}
    (h : inside? depth inWord s = some call) : ∃ before, call.written = before ++ [')'] := by
  have extended : ∀ {o : Option Call} {meaning piece : List Char} {call : Call},
      (∀ {call}, o = some call → ∃ before, call.written = before ++ [')']) →
      o.map (cons meaning piece) = some call → ∃ before, call.written = before ++ [')'] := by
    intro o meaning piece call ih h
    obtain ⟨call', hcall, rfl⟩ := Option.map_eq_some_iff.1 h
    obtain ⟨before, hbefore⟩ := ih hcall
    refine ⟨piece ++ before, ?_⟩
    show piece ++ call'.written = _
    rw [hbefore, List.append_assoc]
  fun_induction inside? depth inWord s generalizing call with
  | case1 => cases h
  | case2 depth inWord c s literal after hliteral ih => exact extended ih h
  | case3 depth inWord c s hliteral comment after hcomment ih => exact extended ih h
  | case4 =>
      cases h
      exact ⟨[], rfl⟩
  | case5 inWord s hliteral hcomment depth ih => exact extended ih h
  | case6 depth inWord s hliteral hcomment hopen ih => exact extended ih h
  | case7 depth inWord c s hliteral hcomment hclose hopen ih => exact extended ih h

/-- Behind a call one text may stand in the place of another. -/
theorem replaces {depth : Nat} {inWord : Bool} {s : List Char} {call : Call}
    (h : inside? depth inWord s = some call) (r' : List Char) :
    Replaces (call.written ++ r') s := by
  obtain ⟨before, hbefore⟩ := exists_written h
  rw [← Scan.inside?_eq h]
  refine .of_append ?_ _ _
  rw [hbefore]
  exact List.append_ne_nil_of_right_ne_nil _ (List.cons_ne_nil _ _)

theorem of_literalAt? {inWord : Bool} {c : Char} {s literal after : List Char}
    (h : literalAt? inWord (c :: s) = some (literal, after)) :
    inWord = false ∧ (c == '"' || c == '\'' || c.isAlpha) = true ∧
      Literal.split? (c :: s) = some (literal, after) := by
  unfold literalAt? at h
  split at h
  · next heq => cases heq
  · next heq =>
    cases heq
    split at h
    · next hstarts =>
      rw [Bool.and_eq_true, Bool.not_eq_true'] at hstarts
      exact ⟨hstarts.1, hstarts.2, h⟩
    · cases h

theorem literalAt?_exchange {inWord : Bool} {s literal after after' : List Char}
    (h : literalAt? inWord s = some (literal, after)) (hreplaces : Replaces after' after) :
    literalAt? inWord (literal ++ after') = some (literal, after') := by
  cases s with
  | nil => cases h
  | cons c s =>
      obtain ⟨rfl, hstarts, hsplit⟩ := of_literalAt? h
      obtain ⟨happend, hne⟩ := Literal.split?_eq hsplit
      obtain ⟨d, literal, rfl⟩ := List.exists_cons_of_ne_nil hne
      obtain rfl : d = c := (List.cons.inj happend).1
      rw [← happend] at hsplit
      have hexchange := Literal.split?_exchange hsplit hreplaces
      rw [List.cons_append] at hexchange ⊢
      rw [literalAt?, hstarts]
      exact hexchange

/-- No literal starts within a call that started none with another text behind the call. -/
theorem literalAt?_eq_none_exchange {inWord : Bool} {c : Char} {a r : List Char}
    (h : literalAt? inWord (c :: (a ++ ')' :: r)) = none) (r' : List Char) :
    literalAt? inWord (c :: (a ++ ')' :: r')) = none := by
  unfold literalAt? at h ⊢
  dsimp only at h ⊢
  split at h
  · next hstarts =>
    rw [if_pos hstarts]
    exact @Literal.split?_eq_none_exchange (c :: a) ')' rfl r r' h
  · next hstarts => rw [if_neg hstarts]

theorem inside?_of_comment {depth : Nat} {inWord : Bool} {s comment after : List Char}
    (h : comment? s = some (comment, after)) :
    inside? depth inWord s = (inside? depth false after).map (cons [' '] comment) := by
  cases s with
  | nil => cases h
  | cons c s =>
      have hslash : c = '/' := by
        unfold comment? at h
        split at h
        · next heq => exact (List.cons.inj heq).1
        · next heq => exact (List.cons.inj heq).1
        · cases h
      have hliteral : literalAt? inWord (c :: s) = none :=
        literalAt?_eq_none (by rw [hslash]; decide)
      rw [inside?.eq_def]
      dsimp only
      split
      · next heq =>
        rw [hliteral] at heq
        cases heq
      · split
        · next heq =>
          rw [h] at heq
          cases heq
          rfl
        · next heq =>
          rw [h] at heq
          cases heq

/-- **A call stays the same when the text behind it is exchanged.** -/
theorem inside?_exchange {depth : Nat} {inWord : Bool} {s : List Char} {call : Call}
    (h : inside? depth inWord s = some call) (r' : List Char) :
    inside? depth inWord (call.written ++ r') = some { call with rest := r' } := by
  -- At a character of the call neither a literal nor a comment starts with the other text.
  have plain : ∀ {inWord : Bool} {c : Char} {s : List Char} {depth : Nat} {inWord' : Bool}
      {call : Call}, literalAt? inWord (c :: s) = none → comment? (c :: s) = none →
      inside? depth inWord' s = some call →
      literalAt? inWord (c :: (call.written ++ r')) = none ∧
        comment? (c :: (call.written ++ r')) = none := by
    intro inWord c s depth inWord' call hliteral hcomment hcall
    obtain ⟨before, hbefore⟩ := exists_written hcall
    have hs := Scan.inside?_eq hcall
    rw [hbefore, List.append_assoc, List.singleton_append] at hs ⊢
    rw [← hs] at hliteral hcomment
    refine ⟨literalAt?_eq_none_exchange hliteral r', comment?_eq_none_exchange hcomment ?_⟩
    cases before <;> rfl
  fun_induction inside? depth inWord s generalizing call with
  | case1 => cases h
  | case2 depth inWord c s literal after hliteral ih =>
      obtain ⟨call, hcall, rfl⟩ := Option.map_eq_some_iff.1 h
      obtain ⟨rfl, -, -⟩ := of_literalAt? hliteral
      show inside? depth false (literal ++ call.written ++ r') = _
      rw [List.append_assoc, inside?_of_literal (literalAt?_exchange hliteral (replaces hcall r')),
        ih hcall]
      rfl
  | case3 depth inWord c s hliteral comment after hcomment ih =>
      obtain ⟨call, hcall, rfl⟩ := Option.map_eq_some_iff.1 h
      rw [← (comment?_eq hcomment).1] at hcomment
      show inside? depth inWord (comment ++ call.written ++ r') = _
      rw [List.append_assoc, inside?_of_comment (comment?_exchange hcomment (replaces hcall r')),
        ih hcall]
      rfl
  | case4 inWord s hliteral hcomment =>
      cases h
      show inside? 0 inWord (')' :: r') = _
      rw [inside?_cons (literalAt?_eq_none rfl) (comment?_eq_none (by simp)), if_pos rfl]
  | case5 inWord s depth hliteral hcomment ih =>
      obtain ⟨call, hcall, rfl⟩ := Option.map_eq_some_iff.1 h
      obtain ⟨hliteral', hcomment'⟩ := plain hliteral hcomment hcall
      show inside? (depth + 1) inWord (')' :: (call.written ++ r')) = _
      rw [inside?_cons hliteral' hcomment', if_pos rfl]
      dsimp only
      rw [ih hcall]
      rfl
  | case6 depth inWord s hliteral hcomment hopen ih =>
      obtain ⟨call, hcall, rfl⟩ := Option.map_eq_some_iff.1 h
      obtain ⟨hliteral', hcomment'⟩ := plain hliteral hcomment hcall
      show inside? depth inWord ('(' :: (call.written ++ r')) = _
      rw [inside?_cons hliteral' hcomment', if_neg (by decide), if_pos rfl, ih hcall]
      rfl
  | case7 depth inWord c s hliteral hcomment hclose hopen ih =>
      obtain ⟨call, hcall, rfl⟩ := Option.map_eq_some_iff.1 h
      obtain ⟨hliteral', hcomment'⟩ := plain hliteral hcomment hcall
      show inside? depth inWord (c :: (call.written ++ r')) = _
      rw [inside?_cons hliteral' hcomment', if_neg hclose, if_neg hopen, ih hcall]
      rfl

theorem read?_exchange {s : List Char} {call : Call} (h : read? s = some call) (r' : List Char) :
    read? (call.written ++ r') = some { call with rest := r' } := by
  unfold read? at h
  split at h
  · obtain ⟨call, hcall, rfl⟩ := Option.map_eq_some_iff.1 h
    show (inside? 0 false (call.written ++ r')).map _ = _
    rw [inside?_exchange hcall]
    rfl
  · cases h

end Call

end Source

/-! ## What ends a declaration -/

namespace Scan

variable {t t' : List Char}

/-- The ending of a declaration stays the same when the text behind it is exchanged. -/
theorem ending_exchange (ht : Source.StartWords t t') {s w b : List Char}
    (h : ending s = (w, b ++ t)) : ending (w ++ (b ++ t')) = (w, b ++ t') := by
  have hgap : ∀ c ∈ s.takeWhile (fun c => c == ' ' || c == '\t'), (c == ' ' || c == '\t') = true :=
    fun c hc => List.mem_takeWhile_imp (p := fun c => c == ' ' || c == '\t') hc
  unfold ending at h
  dsimp only at h
  split at h
  · cases h
    obtain ⟨htake, hdrop⟩ := Text.span_append (b := ';' :: (b ++ t')) hgap (by rintro _ ⟨⟩; rfl)
    rw [List.append_assoc, List.singleton_append, ending, htake, hdrop]
    rfl
  · next hsemicolon =>
    obtain ⟨hw, hdrop⟩ := Prod.mk.inj h
    have hstop := Text.head?_of_span hdrop
    have hother : ∀ d, Text.isNameChar d = false → (b ++ t').head? = some d →
        (b ++ t).head? = some d := fun d hd => (ht.head?_eq hd).2
    obtain ⟨htake', hdrop'⟩ := Text.span_append (b := b ++ t') hgap fun c hc => by
      rw [Bool.or_eq_false_iff, beq_eq_false_iff_ne, beq_eq_false_iff_ne]
      constructor
      · rintro rfl
        exact absurd (hstop _ (hother ' ' (by decide) hc)) (by decide)
      · rintro rfl
        exact absurd (hstop _ (hother '\t' (by decide) hc)) (by decide)
    rw [← hw, ending, htake', hdrop']
    split
    · next rest heq =>
      obtain ⟨rest', hrest'⟩ :=
        List.head?_eq_some_iff.1 (hother ';' (by decide) (by rw [heq]; rfl))
      exact absurd (hdrop.trans hrest') (hsemicolon rest')
    · rfl

end Scan

end EmbeddedBuffers
