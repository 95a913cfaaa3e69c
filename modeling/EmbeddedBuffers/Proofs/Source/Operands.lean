import EmbeddedBuffers.Proofs.Source.Words

/-!
# Arguments as they are written

An argument as a tree: bare words, adjacent string literals, or a list in braces, nested to any
depth. Main statements: `Operand.readAll_listText`, by which the text between the parentheses of a
call is read as the arguments that it is made of, and `Call.read?_listText`, by which a call with
such a text ends at its parenthesis.
-/

namespace EmbeddedBuffers.Source

/-- An argument of a declaration. -/
inductive Operand
  | words (first : Word) (more : List Word)
  | strings (first : StringLiteral) (more : List StringLiteral)
  | list (items : List Operand)

namespace Operand

mutual

def text : Operand → List Char
  | .words first more => Text.spaced (first.text :: more.map Word.text)
  | .strings first more => Text.spaced (first.text :: more.map StringLiteral.text)
  | .list items => '\x7b' :: (listText items ++ ['\x7d'])

/-- Arguments with a comma and a space between them. -/
def listText : List Operand → List Char
  | [] => []
  | [a] => a.text
  | a :: b :: rest => a.text ++ ',' :: ' ' :: listText (b :: rest)

end

mutual

/-- The argument that is meant. -/
def meaning : Operand → Argument
  | .words first more => .words (String.ofList (Text.spaced (first.text :: more.map Word.text)))
  | .strings first more => .string (String.ofList ((first :: more).flatMap StringLiteral.meaning))
  | .list items => .list (meanings items)

def meanings : List Operand → List Argument
  | [] => []
  | a :: rest => a.meaning :: meanings rest

end

theorem length_meanings (items : List Operand) : (meanings items).length = items.length := by
  induction items with
  | nil => rfl
  | cons a items ih => rw [meanings, List.length_cons, List.length_cons, ih]

/-! ## Pieces -/

mutual

theorem passed : (o : Operand) → Passed false o.text
  | .words first more => by
      rw [text]
      refine passed_spaced (passed_word first) fun t ht => ?_
      obtain ⟨w, -, rfl⟩ := List.mem_map.1 ht
      exact passed_word w
  | .strings first more => by
      rw [text]
      refine passed_spaced (passed_literal first) fun t ht => ?_
      obtain ⟨l, -, rfl⟩ := List.mem_map.1 ht
      exact passed_literal l
  | .list items => by
      rw [text]
      exact (passed_listText items).braced

theorem passed_listText : (items : List Operand) → Passed true (listText items)
  | [] => passed_nil
  | [a] => by
      rw [listText]
      exact a.passed.inBraces
  | a :: b :: rest => by
      rw [listText]
      exact a.passed.inBraces.listed (passed_listText (b :: rest))

end

theorem trimmed_word (w : Word) : Text.Trimmed w.text :=
  Text.trimmed_of_all fun c hc => (ne_of_isPlain (w.plain c hc)).2.1

theorem literal_ne_nil (l : StringLiteral) : l.text ≠ [] := by
  obtain ⟨c, s, hl, -⟩ := l.exists_cons_text
  exact hl ▸ List.cons_ne_nil c s

theorem not_isBlank_of_isAlpha {c : Char} (h : c = '"' ∨ c.isAlpha = true) :
    Text.isBlank c = false := by
  rcases h with rfl | h
  · decide
  · have hn := Text.isAlpha_iff.1 h
    simp only [Text.isBlank, Bool.or_eq_false_iff, Bool.and_eq_false_iff, decide_eq_false_iff_not,
      beq_eq_false_iff_ne]
    omega

theorem trimmed_literal (l : StringLiteral) : Text.Trimmed l.text := by
  constructor
  · intro c hc
    obtain ⟨d, s, hl, hd⟩ := l.exists_cons_text
    rw [hl] at hc
    cases hc
    exact not_isBlank_of_isAlpha hd
  · intro c hc
    rw [l.getLast?_text] at hc
    cases hc
    decide

theorem text_ne_nil (o : Operand) : o.text ≠ [] := by
  cases o with
  | words first more =>
      rw [text]
      exact Text.spaced_ne_nil first.ne_nil
  | strings first more =>
      rw [text]
      exact Text.spaced_ne_nil (literal_ne_nil first)
  | list items =>
      rw [text]
      exact List.cons_ne_nil _ _

theorem trimmed_text (o : Operand) : Text.Trimmed o.text := by
  cases o with
  | words first more =>
      rw [text, ← List.map_cons (f := Word.text)]
      refine Text.trimmed_spaced (fun t ht => ?_) fun t ht => ?_ <;>
        obtain ⟨w, -, rfl⟩ := List.mem_map.1 ht
      · exact w.ne_nil
      · exact trimmed_word w
  | strings first more =>
      rw [text, ← List.map_cons (f := StringLiteral.text)]
      refine Text.trimmed_spaced (fun t ht => ?_) fun t ht => ?_ <;>
        obtain ⟨l, -, rfl⟩ := List.mem_map.1 ht
      · exact literal_ne_nil l
      · exact trimmed_literal l
  | list items =>
      rw [text]
      have hopen : Text.Trimmed ['\x7b'] := Text.trimmed_of_all (by decide)
      have hclose : Text.Trimmed ['\x7d'] := Text.trimmed_of_all (by decide)
      exact Text.trimmed_append hopen hclose (List.cons_ne_nil _ _) (List.cons_ne_nil _ _) _

/-! ## Cutting -/

theorem exists_cons_text (o : Operand) : ∃ c s, o.text = c :: s ∧ Text.isBlank c = false := by
  obtain ⟨c, s, hs⟩ := List.exists_cons_of_ne_nil o.text_ne_nil
  exact ⟨c, s, hs, o.trimmed_text.head c (by rw [hs]; rfl)⟩

theorem exists_cons_listText (a : Operand) (rest : List Operand) :
    ∃ c s, listText (a :: rest) = c :: s ∧ Text.isBlank c = false := by
  obtain ⟨c, s, hs, hc⟩ := a.exists_cons_text
  cases rest with
  | nil => exact ⟨c, s, by rw [listText, hs], hc⟩
  | cons b rest => exact ⟨c, _, by rw [listText, hs, List.cons_append], hc⟩

theorem isAllBlank_listText (a : Operand) (rest : List Operand) :
    Text.isAllBlank (listText (a :: rest)) = false := by
  obtain ⟨c, s, hs, hc⟩ := exists_cons_listText a rest
  rw [hs, Text.isAllBlank, List.all_cons, hc, Bool.false_and]

/-- The parts of a list of arguments: a space is in front of all but the first. -/
def cutParts : List Operand → List (List Char)
  | [] => [[]]
  | a :: rest => a.text :: rest.map fun o => ' ' :: o.text

theorem cut_listText (a : Operand) (rest : List Operand) :
    Argument.cut [] false (listText (a :: rest)) = .ok (cutParts (a :: rest)) := by
  induction rest generalizing a with
  | nil =>
      have hcut := a.passed.cut [] [] separated_nil (fun h => (nomatch h))
      rw [List.append_nil] at hcut
      rw [listText, hcut, Argument.cut]
      simp [Except.map, Argument.extendFirst, cutParts]
  | cons b rest ih =>
      rw [listText, a.passed.cut [] _ (separated_cons (Or.inr (Or.inl rfl)) _) (fun h => (nomatch h)),
        cut_topComma, cut_space, ih]
      simp [Except.map, Argument.extendFirst, cutParts]

theorem isAllBlank_part (o : Operand) : Text.isAllBlank (' ' :: o.text) = false := by
  obtain ⟨c, s, hs, hc⟩ := o.exists_cons_text
  rw [hs, Text.isAllBlank, List.all_cons, List.all_cons, hc, Bool.false_and, Bool.and_false]

/-- No comma ends the list. -/
theorem dropTrailing_cutParts (a : Operand) (rest : List Operand) :
    Argument.dropTrailing (cutParts (a :: rest)) = cutParts (a :: rest) := by
  refine if_neg fun ⟨_, hlast⟩ => ?_
  cases h : rest.getLast? with
  | none =>
      rw [List.getLast?_eq_none_iff.1 h] at hlast
      have := isAllBlank_listText a []
      rw [listText] at this
      simp [cutParts, this] at hlast
  | some o =>
      rw [cutParts, List.getLast?_cons, List.getLast?_map, h] at hlast
      simp [isAllBlank_part] at hlast

/-! ## Reading -/

/-- A word or a literal in front of others is followed by a place where one may end. -/
theorem exists_spaced (first : List Char) (more : List (List Char)) :
    ∃ tail, Separated tail ∧ Text.spaced (first :: more) = first ++ tail := by
  cases more with
  | nil => exact ⟨[], separated_nil, by rw [List.append_nil]; rfl⟩
  | cons second more => exact ⟨_, separated_cons (Or.inl rfl) _, rfl⟩

theorem joined_literal (whole : String) (l : StringLiteral) (tail : List Char) :
    Argument.joined whole (l.text ++ tail) =
      (Argument.joined whole tail).map (l.meaning ++ ·) := by
  obtain ⟨c, s, hl, hc⟩ := l.exists_cons_text
  have hsplit := l.split?_text tail
  have hcontents := l.contents_text
  have hblank : Text.isAsciiBlank c = false := by
    rw [Bool.eq_false_iff]
    intro h
    have := Text.isBlank_of_isAsciiBlank h
    rw [not_isBlank_of_isAlpha hc] at this
    cases this
  rw [hl] at hsplit hcontents ⊢
  rw [List.cons_append] at hsplit ⊢
  rw [Argument.joined.eq_def]
  dsimp only
  rw [hblank, if_neg Bool.false_ne_true]
  split
  · next heq =>
    rw [hsplit] at heq
    cases heq
  · next heq =>
    rw [hsplit] at heq
    cases heq
    rw [hcontents]

theorem joined_space (whole : String) (s : List Char) :
    Argument.joined whole (' ' :: s) = Argument.joined whole s := by
  rw [Argument.joined.eq_def]
  exact if_pos rfl

/-- Adjacent literals mean their contents one after the other. -/
theorem joined_spaced (whole : String) (first : StringLiteral) (more : List StringLiteral) :
    Argument.joined whole (Text.spaced (first.text :: more.map StringLiteral.text)) =
      .ok ((first :: more).flatMap StringLiteral.meaning) := by
  induction more generalizing first with
  | nil =>
      have hjoined := joined_literal whole first []
      rw [List.append_nil] at hjoined
      rw [List.map_nil, Text.spaced, hjoined, Argument.joined]
      simp [Except.map]
  | cons second more ih =>
      rw [List.map_cons, Text.spaced, joined_literal, joined_space, ih]
      simp [Except.map]

theorem read_words {raw text : List Char} (h : Text.trim raw = text) (hne : text ≠ [])
    (hbrace : text.head? ≠ some '\x7b')
    (hsplit : text.head? = some '\'' ∨ Literal.split? text = none) :
    Argument.read raw = .ok (.words (String.ofList (Text.squeeze text))) := by
  rw [Argument.read]
  split
  · next heq => exact absurd (h.symm.trans heq) hne
  · next heq =>
    rw [h] at heq
    rw [heq] at hbrace
    exact absurd rfl hbrace
  · next heq =>
    rw [h] at heq
    subst heq
    refine if_neg ?_
    rintro ⟨hquote, hsome⟩
    rcases hsplit with hhead | hsplit
    · exact hquote (Option.some.inj hhead)
    · rw [hsplit] at hsome
      cases hsome

theorem read_strings {raw text contents : List Char} {c : Char} {s : List Char}
    (h : Text.trim raw = text) (htext : text = c :: s) (hc : c = '"' ∨ c.isAlpha = true)
    (hsplit : (Literal.split? text).isSome = true)
    (hjoined : Argument.joined (String.ofList text) text = .ok contents) :
    Argument.read raw = .ok (.string (String.ofList contents)) := by
  have hbrace : c ≠ '\x7b' := by
    rintro rfl
    exact absurd hc (by decide)
  have hquote : c ≠ '\'' := by
    rintro rfl
    exact absurd hc (by decide)
  rw [Argument.read]
  split
  · next heq => cases htext.symm.trans (h.symm.trans heq)
  · next heq =>
    cases htext.symm.trans (h.symm.trans heq)
    exact absurd rfl hbrace
  · next heq =>
    obtain rfl := h.symm.trans heq
    cases htext
    rw [if_pos ⟨hquote, hsplit⟩, hjoined]

theorem read_list {raw inner : List Char} (h : Text.trim raw = '\x7b' :: (inner ++ ['\x7d'])) :
    Argument.read raw =
      if Text.isAllBlank inner then .ok (.list [])
      else
        match Argument.cut [] false inner with
        | .error s => .error s
        | .ok parts => ((Argument.dropTrailing parts).mapM Argument.read).map .list := by
  rw [Argument.read]
  split
  · next heq => cases h.symm.trans heq
  · next heq =>
    cases h.symm.trans heq
    split
    · next heq =>
      rw [Text.stripEnd?_append] at heq
      cases heq
    · next heq =>
      rw [Text.stripEnd?_append] at heq
      cases heq
      split
      · rfl
      · split
        · next heq => rw [heq]
        · next heq =>
          rw [heq]
          dsimp only
          rw [List.mapM_subtype (g := Argument.read) (fun _ _ => rfl), List.unattach_attach]
  · next hne heq => exact (hne (List.cons.inj (h.symm.trans heq)).1.symm).elim

theorem trim_text (o : Operand) {before : List Char}
    (hbefore : ∀ c ∈ before, Text.isBlank c = true) : Text.trim (before ++ o.text) = o.text := by
  simpa using Text.trim_append o.trimmed_text hbefore (List.forall_mem_nil _)

theorem mapM_cutParts {a : Operand} {rest : List Operand}
    (ha : Argument.read a.text = .ok a.meaning)
    (hrest : (rest.map fun o => ' ' :: o.text).mapM Argument.read = .ok (meanings rest)) :
    (cutParts (a :: rest)).mapM Argument.read = .ok (meanings (a :: rest)) := by
  rw [cutParts, List.mapM_cons, ha, hrest]
  rfl

mutual

/-- **An argument is read as what it means.** -/
theorem read_text : (o : Operand) → ∀ before : List Char,
    (∀ c ∈ before, Text.isBlank c = true) → Argument.read (before ++ o.text) = .ok o.meaning
  | .words first more, before, hbefore => by
      have htrim := trim_text (.words first more) hbefore
      have hne := text_ne_nil (.words first more)
      rw [text] at htrim hne ⊢
      obtain ⟨tail, htail, hspaced⟩ := exists_spaced first.text (more.map Word.text)
      have hbrace : (Text.spaced (first.text :: more.map Word.text)).head? ≠ some '\x7b' := by
        obtain ⟨c, s, hs⟩ := List.exists_cons_of_ne_nil first.ne_nil
        rw [hspaced, hs]
        rintro ⟨⟩
        exact absurd (first.plain '\x7b' (by simp [hs])) (by decide)
      have hsplit : Literal.split? (Text.spaced (first.text :: more.map Word.text)) = none := by
        rw [hspaced]
        exact split?_plain_eq_none first.plain htail
      have hsqueeze : Text.squeeze (Text.spaced ((first :: more).map Word.text)) =
          Text.spaced ((first :: more).map Word.text) := by
        refine Text.squeeze_spaced (fun t ht => ?_) fun t ht c hc => ?_ <;>
          obtain ⟨w, -, rfl⟩ := List.mem_map.1 ht
        · exact w.ne_nil
        · exact (ne_of_isPlain (w.plain c hc)).2.1
      rw [List.map_cons] at hsqueeze
      rw [read_words htrim hne hbrace (Or.inr hsplit), hsqueeze, meaning]
  | .strings first more, before, hbefore => by
      have htrim := trim_text (.strings first more) hbefore
      rw [text] at htrim ⊢
      obtain ⟨tail, -, hspaced⟩ := exists_spaced first.text (more.map StringLiteral.text)
      obtain ⟨c, s, hl, hc⟩ := first.exists_cons_text
      have hsplit : (Literal.split?
          (Text.spaced (first.text :: more.map StringLiteral.text))).isSome = true := by
        rw [hspaced, first.split?_text]
        rfl
      have hcons : Text.spaced (first.text :: more.map StringLiteral.text) = c :: (s ++ tail) := by
        rw [hspaced, hl]
        rfl
      rw [read_strings htrim hcons hc hsplit (joined_spaced _ first more), meaning]
  | .list [], before, hbefore => by
      have htrim := trim_text (.list []) hbefore
      rw [text] at htrim ⊢
      rw [read_list htrim, meaning]
      rfl
  | .list (a :: rest), before, hbefore => by
      have htrim := trim_text (.list (a :: rest)) hbefore
      have ha := read_text a [] (List.forall_mem_nil _)
      rw [text] at htrim ⊢
      rw [read_list htrim, meaning, isAllBlank_listText, if_neg Bool.false_ne_true, cut_listText]
      dsimp only
      rw [dropTrailing_cutParts, mapM_cutParts ha (mapM_parts rest)]
      rfl

theorem mapM_parts : (items : List Operand) →
    (items.map fun o => ' ' :: o.text).mapM Argument.read = .ok (meanings items)
  | [] => rfl
  | a :: rest => by
      have ha := read_text a [' '] (by decide)
      rw [List.map_cons, List.mapM_cons, ← List.singleton_append, ha, mapM_parts rest]
      rfl

end

/-- **The text between the parentheses of a call is read as its arguments.** -/
theorem readAll_listText (a : Operand) (rest : List Operand) :
    Argument.readAll (listText (a :: rest)) = .ok (meanings (a :: rest)) := by
  have ha := read_text a [] (List.forall_mem_nil _)
  rw [Argument.readAll, isAllBlank_listText, if_neg Bool.false_ne_true, cut_listText]
  exact mapM_cutParts ha (mapM_parts rest)

end Operand

/-- **A call ends at the parenthesis after its arguments.** -/
theorem Call.read?_listText (items : List Operand) (rest : List Char) :
    Call.read? ('(' :: (Operand.listText items ++ ')' :: rest)) =
      some ⟨Operand.listText items, '(' :: (Operand.listText items ++ [')']), rest⟩ := by
  have hclose : Call.inside? 0 false (')' :: rest) = some ⟨[], [')'], rest⟩ := by
    rw [Call.inside?_cons (Call.literalAt?_eq_none (by decide)) (comment?_eq_none (by simp)),
      if_pos rfl]
  rw [Call.read?, (Operand.passed_listText items).inside _ _ (separated_cons (by simp) _), hclose]
  simp [Call.cons]

end EmbeddedBuffers.Source
