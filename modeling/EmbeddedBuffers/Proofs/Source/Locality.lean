import EmbeddedBuffers.Proofs.Source.Words

/-!
# What a literal and a comment depend on

A literal or a comment that ends before the end of its text is closed, or a line feed follows it. So
it stays what it is when the text behind it is exchanged. Whether one starts at all depends on its
first characters alone. Main statements: `Literal.split?_exchange`, `Literal.split?_isSome_iff` and
`comment?_exchange`.
-/

namespace EmbeddedBuffers

/-- A text that may stand in the place of another one behind a literal or a comment: one that is not
closed goes on to the end of the text, or of the line. -/
structure Replaces (r' r : List Char) : Prop where
  ne_nil : r ≠ []
  feed : r.head? = some '\n' → r'.head? = some '\n'

/-- What starts with the same character. -/
theorem Replaces.of_append {b : List Char} (hb : b ≠ []) (r r' : List Char) :
    Replaces (b ++ r') (b ++ r) := by
  obtain ⟨c, b, rfl⟩ := List.exists_cons_of_ne_nil hb
  exact ⟨List.cons_ne_nil _ _, id⟩

theorem Replaces.of_head? {r r' : List Char} (hne : r ≠ []) (h : r.head? ≠ some '\n') :
    Replaces r' r := ⟨hne, fun heq => absurd heq h⟩

/-! ## Marks in a text -/

namespace Text

/-- Whether a text starts with a mark is decided within the length of the mark. -/
theorem strip?_append_right {lead a : List Char} (h : lead.length ≤ a.length) (r : List Char) :
    strip? lead (a ++ r) = (strip? lead a).map (· ++ r) := by
  induction lead generalizing a with
  | nil => rfl
  | cons c lead ih =>
      cases a with
      | nil => exact absurd h (Nat.not_succ_le_zero _)
      | cons d a =>
          rw [List.cons_append, strip?, strip?]
          split
          · exact ih (Nat.le_of_succ_le_succ h)
          · rfl

/-- The first occurrence of a mark stays the first when the text behind it is exchanged. -/
theorem splitAtText_exchange {sep a r : List Char} (hsep : sep ≠ [])
    (h : splitAtText sep (a ++ sep ++ r) = some (a, r)) (r' : List Char) :
    splitAtText sep (a ++ sep ++ r') = some (a, r') := by
  induction a with
  | nil =>
      obtain ⟨c, sep, rfl⟩ := List.exists_cons_of_ne_nil hsep
      rw [List.nil_append, List.cons_append, splitAtText, ← List.cons_append, strip?_append]
  | cons c a ih =>
      have hlength : sep.length ≤ (c :: (a ++ sep)).length := by
        rw [List.length_cons, List.length_append]
        omega
      rw [List.cons_append, List.cons_append, splitAtText, ← List.cons_append,
        strip?_append_right hlength] at h ⊢
      cases hstrip : strip? sep (c :: (a ++ sep)) with
      | some after =>
          rw [hstrip] at h
          cases h
      | none =>
          rw [hstrip] at h
          obtain ⟨⟨before, after⟩, hsplit, heq⟩ := Option.map_eq_some_iff.1 h
          cases heq
          show (splitAtText sep (a ++ sep ++ r')).map _ = _
          rw [ih hsplit]
          rfl

theorem notMem_of_splitOnce {c : Char} {s a b : List Char} (h : splitOnce c s = some (a, b)) :
    c ∉ a := by
  unfold splitOnce at h
  split at h
  · cases h
  · cases h
    intro hmem
    have hne := List.mem_takeWhile_imp hmem
    exact absurd hne (by simp)

end Text

/-! ## Literals -/

namespace Literal

variable {a r r' : List Char}

theorem plainBody_exchange {q : Char} (h : plainBody q (a ++ r) = (a, r)) (hr : Replaces r' r) :
    plainBody q (a ++ r') = (a, r') := by
  induction hn : a.length using Nat.strongRecOn generalizing a with
  | ind n ih =>
      cases a with
      | nil =>
          obtain ⟨c, rest, rfl⟩ := List.exists_cons_of_ne_nil hr.ne_nil
          rw [List.nil_append] at h ⊢
          unfold plainBody at h
          split at h
          · next heq => cases heq
          · next heq => cases h
          · next heq => cases h
          · next c' rest' hlast hmore heq =>
            cases heq
            split at h
            · next hfeed =>
              obtain ⟨rest', rfl⟩ := List.head?_eq_some_iff.1 (hr.feed (by rw [hfeed]; rfl))
              rw [plainBody.eq_4 _ _ _ (fun hc => absurd hc (by decide))
                (fun _ _ hc => absurd hc (by decide)), if_pos rfl]
            · split at h <;> cases h
      | cons c a =>
          rw [List.cons_append] at h ⊢
          by_cases hslash : c = '\\'
          · subst hslash
            cases a with
            | nil =>
                obtain ⟨d, rest, rfl⟩ := List.exists_cons_of_ne_nil hr.ne_nil
                rw [List.nil_append, plainBody] at h
                exact absurd (congrArg List.length (congrArg Prod.fst h)) (by simp)
            | cons d a =>
                rw [List.cons_append, plainBody] at h ⊢
                have hbody : plainBody q (a ++ r) = (a, r) := by
                  have hfst := congrArg Prod.fst h
                  have hsnd := congrArg Prod.snd h
                  simp only [List.cons.injEq, true_and] at hfst
                  exact Prod.ext hfst hsnd
                rw [ih a.length (by rw [← hn, List.length_cons, List.length_cons]; omega) hbody rfl]
          · rw [plainBody.eq_4 _ _ _ (fun hc _ => hslash hc) (fun _ _ hc _ => hslash hc)] at h ⊢
            split at h
            · cases h
            · next hfeed =>
              split at h
              · next hq =>
                rw [if_neg hfeed, if_pos hq]
                have hfst := congrArg Prod.fst h
                have ha : a = [] := (List.cons.inj hfst).2.symm
                rw [ha]
                rfl
              · next hq =>
                have hbody : plainBody q (a ++ r) = (a, r) := by
                  have hfst := congrArg Prod.fst h
                  have hsnd := congrArg Prod.snd h
                  simp only [List.cons.injEq, true_and] at hfst
                  exact Prod.ext hfst hsnd
                rw [if_neg hfeed, if_neg hq, ih a.length (by rw [← hn, List.length_cons]; omega)
                  hbody rfl]

theorem rawBody_exchange (h : rawBody (a ++ r) = (a, r)) (hr : Replaces r' r) :
    rawBody (a ++ r') = (a, r') := by
  unfold rawBody at h
  split at h
  · exact absurd (congrArg Prod.snd h).symm hr.ne_nil
  · next delimiter rest hopen =>
    dsimp only at h
    split at h
    · exact absurd (congrArg Prod.snd h).symm hr.ne_nil
    · next content after hclose =>
      cases h
      have hdelimiter := Text.notMem_of_splitOnce hopen
      have hrest := Text.splitAtText_eq hclose
      rw [← hrest] at hclose
      have hexchange := Text.splitAtText_exchange (by simp) hclose r'
      unfold rawBody
      have htext : (delimiter ++ '(' :: content ++ (')' :: delimiter ++ ['"'])) ++ r' =
          delimiter ++ '(' :: (content ++ (')' :: delimiter ++ ['"']) ++ r') := by
        simp only [List.append_assoc, List.cons_append]
      rw [htext, Text.splitOnce_append hdelimiter]
      dsimp only
      rw [hexchange]

/-- What a literal is made of: a mark, a quote, and the text up to the closing quote. -/
inductive Opens : List Char → List Char → List Char → Prop
  | raw {mark body rest : List Char} (hmark : mark ∈ rawMarks)
      (hbody : rawBody (body ++ rest) = (body, rest)) :
      Opens (mark ++ '"' :: (body ++ rest)) (mark ++ '"' :: body) rest
  | plain {mark body rest : List Char} {q : Char} (hmark : mark ∈ [] :: plainMarks)
      (hquote : q = '"' ∨ q = '\'') (hbody : plainBody q (body ++ rest) = (body, rest)) :
      Opens (mark ++ q :: (body ++ rest)) (mark ++ q :: body) rest

theorem opens_of_rawAfter? {mark s w rest : List Char} (hmark : mark ∈ rawMarks)
    (h : rawAfter? mark s = some (w, rest)) : Opens s w rest := by
  unfold rawAfter? at h
  split at h
  · next body hs =>
    obtain ⟨x, y, hbody⟩ : ∃ x y, rawBody body = (x, y) := ⟨_, _, rfl⟩
    have hsplit := rawBody_eq body
    rw [hbody] at h hsplit
    cases h
    rw [Text.strip?_eq_some hs, ← hsplit]
    exact .raw hmark (hsplit ▸ hbody)
  · cases h

theorem opens_of_plainAfter? {mark s w rest : List Char} (hmark : mark ∈ [] :: plainMarks)
    (h : plainAfter? mark s = some (w, rest)) : Opens s w rest := by
  unfold plainAfter? at h
  split at h
  · next q body hs =>
    split at h
    · next hquote =>
      obtain ⟨x, y, hbody⟩ : ∃ x y, plainBody q body = (x, y) := ⟨_, _, rfl⟩
      have hsplit := plainBody_eq q body
      rw [hbody] at h hsplit
      cases h
      rw [Text.strip?_eq_some hs, ← hsplit]
      exact .plain hmark hquote (hsplit ▸ hbody)
    · cases h
  · cases h

theorem split?_eq_some_iff {s w rest : List Char} :
    split? s = some (w, rest) ↔ Opens s w rest := by
  constructor
  · intro h
    unfold split? at h
    split at h
    · next p hp =>
      cases h
      obtain ⟨mark, hmark, hmark'⟩ := List.exists_of_findSome?_eq_some hp
      exact opens_of_rawAfter? hmark hmark'
    · split at h
      · next p hp =>
        cases h
        obtain ⟨mark, hmark, hmark'⟩ := List.exists_of_findSome?_eq_some hp
        exact opens_of_plainAfter? (List.mem_cons_of_mem _ hmark) hmark'
      · exact opens_of_plainAfter? List.mem_cons_self h
  · rintro (⟨hmark, hbody⟩ | ⟨hmark, hquote, hbody⟩)
    · exact StringLiteral.split?_raw hmark hbody
    · exact StringLiteral.split?_plain hmark hquote hbody

/-- **A literal stays the same when the text behind it is exchanged.** -/
theorem split?_exchange (h : split? (a ++ r) = some (a, r)) (hr : Replaces r' r) :
    split? (a ++ r') = some (a, r') := by
  rw [split?_eq_some_iff] at h ⊢
  generalize hs : a ++ r = s at h
  cases h with
  | raw hmark hbody =>
      rw [List.append_assoc, List.cons_append]
      exact .raw hmark (rawBody_exchange hbody hr)
  | plain hmark hquote hbody =>
      rw [List.append_assoc, List.cons_append]
      exact .plain hmark hquote (plainBody_exchange hbody hr)

/-- What literals start with. -/
def openings : List (List Char) :=
  rawMarks.map (· ++ ['"']) ++
    ([] :: plainMarks).flatMap fun mark => [mark ++ ['"'], mark ++ ['\'']]

/-- **Whether a literal starts is decided by its first characters.** -/
theorem split?_isSome_iff {s : List Char} : (split? s).isSome ↔ ∃ o ∈ openings, o <+: s := by
  constructor
  · intro h
    obtain ⟨⟨w, rest⟩, hsplit⟩ := Option.isSome_iff_exists.1 h
    cases split?_eq_some_iff.1 hsplit with
    | @raw mark body rest hmark hbody =>
        refine ⟨mark ++ ['"'], List.mem_append_left _ (List.mem_map_of_mem hmark),
          body ++ rest, ?_⟩
        rw [List.append_assoc, List.singleton_append]
    | @plain mark body rest q hmark hquote hbody =>
        refine ⟨mark ++ [q], List.mem_append_right _ (List.mem_flatMap.2 ⟨mark, hmark, ?_⟩),
          body ++ rest, ?_⟩
        · rcases hquote with rfl | rfl <;> simp
        · rw [List.append_assoc, List.singleton_append]
  · rintro ⟨o, ho, rest, rfl⟩
    rcases List.mem_append.1 ho with ho | ho
    · obtain ⟨mark, hmark, rfl⟩ := List.mem_map.1 ho
      obtain ⟨body, after, hbody⟩ : ∃ body after, rawBody rest = (body, after) := ⟨_, _, rfl⟩
      rw [List.append_assoc, List.singleton_append, StringLiteral.split?_raw hmark hbody]
      rfl
    · obtain ⟨mark, hmark, ho⟩ := List.mem_flatMap.1 ho
      have hquote : ∃ q, (q = '"' ∨ q = '\'') ∧ o = mark ++ [q] := by
        simp only [List.mem_cons, List.not_mem_nil, or_false] at ho
        rcases ho with rfl | rfl
        · exact ⟨_, Or.inl rfl, rfl⟩
        · exact ⟨_, Or.inr rfl, rfl⟩
      obtain ⟨q, hq, rfl⟩ := hquote
      obtain ⟨body, after, hbody⟩ : ∃ body after, plainBody q rest = (body, after) := ⟨_, _, rfl⟩
      rw [List.append_assoc, List.singleton_append, StringLiteral.split?_plain hmark hq hbody]
      rfl

/-- An opening holds letters, digits and a quote at its end. -/
theorem forall_mem_openings : ∀ o ∈ openings, ∀ c ∈ o,
    Text.isNameChar c = true ∨ c = '"' ∨ c = '\'' := by decide

/-- No literal starts with a character that no opening starts with. -/
theorem split?_eq_none_of_head {c : Char} (hc : ∀ o ∈ openings, o.head? ≠ some c)
    (rest : List Char) : split? (c :: rest) = none := by
  have hne : ∀ o ∈ openings, o ≠ [] := by decide
  rw [← Option.not_isSome_iff_eq_none, split?_isSome_iff]
  rintro ⟨o, ho, t, ht⟩
  obtain ⟨d, o', rfl⟩ := List.exists_cons_of_ne_nil (hne o ho)
  exact hc _ ho (congrArg some (List.cons.inj ht).1)

/-- What stands in front of the quote of an opening belongs to a word. -/
theorem isNameChar_of_mem_opening : ∀ o ∈ openings, ∀ c ∈ o.dropLast, Text.isNameChar c = true := by
  decide

/-- No literal starts at a text that reaches the end of a word before the part that is exchanged. -/
theorem split?_eq_none_exchange {a : List Char} {c : Char} (hc : Text.isNameChar c = false)
    {r r' : List Char} (h : split? (a ++ c :: r) = none) : split? (a ++ c :: r') = none := by
  rw [← Option.not_isSome_iff_eq_none, split?_isSome_iff] at h ⊢
  rintro ⟨o, ho, hopens⟩
  refine h ⟨o, ho, ?_⟩
  have hmark : ∀ r, a ++ [c] <+: a ++ c :: r := fun r => ⟨r, List.append_assoc ..⟩
  -- The opening ends with the character at the latest, so it is within what both texts start with.
  have hshort : o <+: a ++ [c] := by
    rcases List.prefix_or_prefix_of_prefix hopens (hmark r') with hshort | ⟨t, rfl⟩
    · exact hshort
    · cases t with
      | nil => simp
      | cons d t =>
          have hmem : c ∈ (a ++ [c] ++ d :: t).dropLast := by
            rw [List.dropLast_append_of_ne_nil (List.cons_ne_nil d t)]
            simp
          rw [isNameChar_of_mem_opening _ ho c hmem] at hc
          cases hc
  exact hshort.trans (hmark r)

/-- No literal starts with four characters of a word. -/
theorem split?_eq_none_of_word {w rest : List Char} (hw : ∀ c ∈ w, Text.isNameChar c = true)
    (hlength : 4 ≤ w.length) : split? (w ++ rest) = none := by
  have hall : ∀ o ∈ openings, o.length ≤ 4 ∧ ¬ ∀ c ∈ o, Text.isNameChar c = true := by decide
  rw [← Option.not_isSome_iff_eq_none, split?_isSome_iff]
  rintro ⟨o, ho, hopens⟩
  obtain ⟨hshort, hquote⟩ := hall o ho
  have hwithin := List.prefix_of_prefix_length_le hopens (List.prefix_append w rest)
    (Nat.le_trans hshort hlength)
  exact hquote fun c hc => hw c (hwithin.subset hc)

end Literal

/-! ## Comments -/

namespace Source

variable {a r r' : List Char}

theorem lineRest_exchange (h : lineRest (a ++ r) = (a, r)) (hr : Replaces r' r) :
    lineRest (a ++ r') = (a, r') := by
  obtain ⟨c, rest, rfl⟩ := List.exists_cons_of_ne_nil hr.ne_nil
  have hplain : ∀ d ∈ a, (d != '\n') = true := by
    have htake : (a ++ c :: rest).takeWhile (· != '\n') = a := congrArg Prod.fst h
    intro d hd
    rw [← htake] at hd
    exact List.mem_takeWhile_imp (p := (· != '\n')) hd
  have hfeed : c = '\n' := by
    have hdrop : (a ++ c :: rest).dropWhile (· != '\n') = c :: rest := congrArg Prod.snd h
    have hhead := List.head?_dropWhile_not (· != '\n') (a ++ c :: rest)
    rw [hdrop] at hhead
    simpa using hhead
  obtain ⟨rest', rfl⟩ := List.head?_eq_some_iff.1 (hr.feed (by rw [hfeed]; rfl))
  rw [lineRest, List.takeWhile_append_of_pos hplain, List.dropWhile_append_of_pos hplain]
  show (a ++ [], _) = _
  rw [List.append_nil]
  rfl

theorem blockComment?_exchange (h : blockComment? (a ++ r) = some (a, r)) (r' : List Char) :
    blockComment? (a ++ r') = some (a, r') := by
  obtain ⟨⟨body, after⟩, hsplit, heq⟩ := Option.map_eq_some_iff.1 h
  cases heq
  rw [blockComment?, Text.splitAtText_exchange (by decide) hsplit]
  rfl

/-- **A comment stays the same when the text behind it is exchanged.** -/
theorem comment?_exchange (h : comment? (a ++ r) = some (a, r)) (hr : Replaces r' r) :
    comment? (a ++ r') = some (a, r') := by
  unfold comment? at h
  split at h
  · next rest heq =>
    obtain ⟨body, after, hbody⟩ : ∃ body after, lineRest rest = (body, after) := ⟨_, _, rfl⟩
    have hsplit := lineRest_eq rest
    rw [hbody] at h hsplit
    obtain ⟨ha, hrest⟩ := Prod.mk.inj (Option.some.inj h)
    subst ha
    subst hrest
    rw [← hsplit] at hbody
    rw [List.cons_append, List.cons_append, comment?, lineRest_exchange hbody hr]
  · next rest heq =>
    split at h
    · next body after hblock =>
      obtain ⟨ha, hrest⟩ := Prod.mk.inj (Option.some.inj h)
      subst ha
      subst hrest
      rw [← blockComment?_eq hblock] at hblock
      rw [List.cons_append, List.cons_append, comment?, blockComment?_exchange hblock]
    · exact absurd (Prod.mk.inj (Option.some.inj h)).2.symm hr.ne_nil
  · cases h

theorem head?_of_comment? {c : Char} {s : List Char} (h : comment? (c :: s) = none)
    (hc : c = '/') (d : Char) (hd : s.head? = some d) : d ≠ '/' ∧ d ≠ '*' := by
  obtain ⟨rest, rfl⟩ := List.head?_eq_some_iff.1 hd
  subst hc
  constructor
  · rintro rfl
    cases h
  · rintro rfl
    rw [comment?] at h
    split at h <;> cases h

/-- Whether a comment starts is decided by the first two characters. -/
theorem comment?_eq_none_exchange {c : Char} (h : comment? (c :: r) = none)
    (hr : r.head? = r'.head?) : comment? (c :: r') = none :=
  comment?_eq_none fun hc d hd => head?_of_comment? h hc d (hr.trans hd)

end Source

end EmbeddedBuffers
