import EmbeddedBuffers.Declaration.Argument
import EmbeddedBuffers.Proofs.Source.StringLiterals
import EmbeddedBuffers.Proofs.Text.Trimming
import EmbeddedBuffers.Source.Call

/-!
# Pieces of a call

What a call is read past character by character, and what a cut at commas leaves in one piece:
words without quotes, brackets, commas and comments, string literals, and texts built of them with
spaces, commas and braces. Main statements: `passed_word`, `passed_literal`, `Passed.spaced`,
`Passed.listed` and `Passed.braced`.
-/

namespace EmbeddedBuffers.Source

/-! ## Words -/

/-- A character outside literals that separates nothing. -/
def isPlain (c : Char) : Bool :=
  decide (c.toNat < 128) && !Text.isBlank c &&
    !(['"', '\'', '(', ')', '\x7b', '\x7d', '[', ']', ','].contains c)

/-- Whether a comment starts somewhere in a text. -/
def opensComment : List Char → Bool
  | '/' :: '/' :: _ => true
  | '/' :: '*' :: _ => true
  | _ :: rest => opensComment rest
  | [] => false

/-- A word outside literals. -/
structure Word where
  text : List Char
  ne_nil : text ≠ []
  plain : ∀ c ∈ text, isPlain c = true
  noComment : opensComment text = false

theorem ne_of_isPlain {c : Char} (h : isPlain c = true) : c.toNat < 128 ∧ Text.isBlank c = false ∧
    c ≠ '"' ∧ c ≠ '\'' ∧ c ≠ '(' ∧ c ≠ ')' ∧ c ≠ '\x7b' ∧ c ≠ '\x7d' ∧ c ≠ '[' ∧ c ≠ ']' ∧
      c ≠ ',' := by
  simp only [isPlain, Bool.and_eq_true, decide_eq_true_eq, Bool.not_eq_true', List.contains_cons,
    List.contains_nil, Bool.or_false, Bool.or_eq_false_iff, beq_eq_false_iff_ne] at h
  exact ⟨h.1.1, h.1.2, h.2⟩

/-- A character of a name is a plain one. -/
theorem isPlain_of_isNameChar {c : Char} (h : Text.isNameChar c = true) : isPlain c = true := by
  have hall : ∀ n < 128, Text.isNameChar (Char.ofNat n) = true →
      isPlain (Char.ofNat n) = true := by decide
  exact Text.forall_of_lt (p := fun c => Text.isNameChar c = true → isPlain c = true) hall
    (Text.lt_of_isNameChar h) h

theorem opensComment_cons {c : Char} {s : List Char} (h : opensComment (c :: s) = false) :
    opensComment s = false ∧ (c = '/' → ∀ d, s.head? = some d → d ≠ '/' ∧ d ≠ '*') := by
  unfold opensComment at h
  split at h
  · cases h
  · cases h
  · next c' rest h₁ h₂ heq =>
    obtain ⟨rfl, rfl⟩ := List.cons.inj heq
    refine ⟨h, ?_⟩
    rintro rfl d hd
    obtain ⟨t, rfl⟩ := List.head?_eq_some_iff.1 hd
    exact ⟨fun hd => h₁ t rfl (by rw [hd]), fun hd => h₂ t rfl (by rw [hd])⟩
  · next heq => cases heq

theorem opensComment_of_not_mem {s : List Char} (h : '/' ∉ s) : opensComment s = false := by
  fun_induction opensComment s with
  | case1 => simp at h
  | case2 => simp at h
  | case3 c rest h₁ h₂ ih => exact ih fun hmem => h (List.mem_cons_of_mem _ hmem)
  | case4 => rfl

theorem comment?_eq_none {c : Char} {s : List Char}
    (h : c = '/' → ∀ d, s.head? = some d → d ≠ '/' ∧ d ≠ '*') : comment? (c :: s) = none := by
  unfold comment?
  split
  · next heq =>
    obtain ⟨rfl, rfl⟩ := List.cons.inj heq
    exact absurd rfl (h rfl _ rfl).1
  · next heq =>
    obtain ⟨rfl, rfl⟩ := List.cons.inj heq
    exact absurd rfl (h rfl _ rfl).2
  · rfl

/-! ## One character of a call -/

/-- Where a word and a literal may end: at the end of the text or before one of these. -/
def Separated (rest : List Char) : Prop :=
  ∀ c, rest.head? = some c → c = ' ' ∨ c = ',' ∨ c = ')' ∨ c = '\x7d'

theorem separated_nil : Separated [] := fun _ h => (nomatch h)

theorem separated_cons {c : Char} (h : c = ' ' ∨ c = ',' ∨ c = ')' ∨ c = '\x7d')
    (s : List Char) : Separated (c :: s) := by
  rintro _ ⟨⟩
  exact h

/-- Where there is no quote up to a place where a word may end, no literal starts. -/
theorem split?_eq_none_of_separated {v rest : List Char}
    (hv : ∀ c ∈ v, c ≠ '"' ∧ c ≠ '\'') (hrest : Separated rest) :
    Literal.split? (v ++ rest) = none := by
  refine Literal.split?_eq_none fun c hc => ?_
  have hmem : c ∈ v ∨ rest.head? = some c := by
    induction v with
    | nil =>
        cases rest with
        | nil => cases hc
        | cons d rest =>
            have hd : Text.isNameChar d = false := by
              rcases hrest d rfl with rfl | rfl | rfl | rfl <;> decide
            rw [List.nil_append, List.dropWhile_cons_of_neg (by simp [hd])] at hc
            exact Or.inr hc
    | cons d v ih =>
        obtain ⟨-, hv⟩ := List.forall_mem_cons.1 hv
        rw [List.cons_append, List.dropWhile_cons] at hc
        split at hc
        · exact (ih hv hc).imp_left (List.mem_cons_of_mem _)
        · exact Or.inl (List.mem_of_mem_head? (by simpa using hc))
  rcases hmem with hmem | hhead
  · exact hv c hmem
  · rcases hrest c hhead with rfl | rfl | rfl | rfl <;> decide

theorem split?_plain_eq_none {v rest : List Char} (hv : ∀ c ∈ v, isPlain c = true)
    (hrest : Separated rest) : Literal.split? (v ++ rest) = none :=
  split?_eq_none_of_separated
    (fun c hc => ⟨(ne_of_isPlain (hv c hc)).2.2.1, (ne_of_isPlain (hv c hc)).2.2.2.1⟩) hrest

theorem map_cons_cons (o : Option Call) (a a' b b' : List Char) :
    (o.map (Call.cons b b')).map (Call.cons a a') = o.map (Call.cons (a ++ b) (a' ++ b')) := by
  cases o <;> simp [Call.cons]

theorem map_cons_nil (o : Option Call) : o.map (Call.cons [] []) = o := by
  cases o <;> simp [Call.cons]

namespace Call

/-- What becomes of a character at which neither a literal nor a comment starts. -/
theorem inside?_cons {depth : Nat} {inWord : Bool} {c : Char} {rest : List Char}
    (hliteral : literalAt? inWord (c :: rest) = none) (hcomment : comment? (c :: rest) = none) :
    inside? depth inWord (c :: rest) =
      if c = ')' then
        match depth with
        | 0 => some ⟨[], [c], rest⟩
        | depth + 1 => (inside? depth false rest).map (cons [c] [c])
      else if c = '(' then (inside? (depth + 1) false rest).map (cons [c] [c])
      else (inside? depth (Text.isNameChar c) rest).map (cons [c] [c]) := by
  rw [inside?.eq_def]
  dsimp only
  split
  · next heq =>
    rw [hliteral] at heq
    cases heq
  · split
    · next heq =>
      rw [hcomment] at heq
      cases heq
    · rfl

theorem inside?_of_literal {depth : Nat} {s literal after : List Char}
    (h : literalAt? false s = some (literal, after)) :
    inside? depth false s = (inside? depth false after).map (cons literal literal) := by
  cases s with
  | nil => cases h
  | cons c rest =>
      rw [inside?.eq_def]
      dsimp only
      split
      · next heq =>
        rw [h] at heq
        cases heq
        rfl
      · next heq =>
        rw [h] at heq
        cases heq

theorem literalAt?_eq_none {inWord : Bool} {c : Char} {rest : List Char}
    (h : (c == '"' || c == '\'' || c.isAlpha) = false) :
    literalAt? inWord (c :: rest) = none := by
  rw [literalAt?, h, Bool.and_false]
  rfl

/-- A space, a comma and a brace separate words. -/
theorem inside?_separator {c : Char} (h : c = ' ' ∨ c = ',' ∨ c = '\x7b' ∨ c = '\x7d')
    (depth : Nat) (inWord : Bool) (rest : List Char) :
    inside? depth inWord (c :: rest) = (inside? depth false rest).map (cons [c] [c]) := by
  have hname : Text.isNameChar c = false := by
    rcases h with rfl | rfl | rfl | rfl <;> decide
  have hliteral : literalAt? inWord (c :: rest) = none := by
    refine literalAt?_eq_none ?_
    rcases h with rfl | rfl | rfl | rfl <;> decide
  have hcomment : comment? (c :: rest) = none := by
    refine comment?_eq_none ?_
    rcases h with rfl | rfl | rfl | rfl <;> simp
  rw [inside?_cons hliteral hcomment, hname]
  rcases h with rfl | rfl | rfl | rfl <;> rfl

/-- Where a word may end it makes no difference whether there is one. -/
theorem inside?_separated {rest : List Char} (h : Separated rest) (depth : Nat) (inWord : Bool) :
    inside? depth inWord rest = inside? depth false rest := by
  cases rest with
  | nil => rw [inside?, inside?]
  | cons c rest =>
      have hnone : ∀ inWord, literalAt? inWord (c :: rest) = none := by
        intro inWord
        refine literalAt?_eq_none ?_
        rcases h c rfl with rfl | rfl | rfl | rfl <;> decide
      have hcomment : comment? (c :: rest) = none := by
        refine comment?_eq_none ?_
        rcases h c rfl with rfl | rfl | rfl | rfl <;> simp
      rw [inside?_cons (hnone inWord) hcomment, inside?_cons (hnone false) hcomment]

/-- A plain word is read past character by character. -/
theorem inside?_plain {v rest : List Char} (hv : ∀ c ∈ v, isPlain c = true)
    (hcomment : opensComment v = false) (hrest : Separated rest) (depth : Nat) (inWord : Bool) :
    inside? depth inWord (v ++ rest) = (inside? depth false rest).map (cons v v) := by
  induction v generalizing inWord with
  | nil => rw [List.nil_append, map_cons_nil, inside?_separated hrest]
  | cons c v ih =>
      obtain ⟨hcommentv, hc⟩ := opensComment_cons hcomment
      have hliteral : literalAt? inWord (c :: (v ++ rest)) = none := by
        rw [literalAt?, ← List.cons_append, split?_plain_eq_none hv hrest, ite_self]
      have hnone : comment? (c :: (v ++ rest)) = none := by
        refine comment?_eq_none fun heq d hd => ?_
        cases v with
        | nil => rcases hrest d hd with rfl | rfl | rfl | rfl <;> decide
        | cons e v => exact hc heq d hd
      obtain ⟨hplain, hv⟩ := List.forall_mem_cons.1 hv
      obtain ⟨-, -, -, -, hopen, hclose, -⟩ := ne_of_isPlain hplain
      rw [List.cons_append, inside?_cons hliteral hnone, if_neg hclose, if_neg hopen,
        ih hv hcommentv, map_cons_cons]
      rfl

theorem inside?_literal (l : StringLiteral) (depth : Nat) (rest : List Char) :
    inside? depth false (l.text ++ rest) =
      (inside? depth false rest).map (cons l.text l.text) := by
  refine inside?_of_literal ?_
  obtain ⟨c, s, hl, hc⟩ := l.exists_cons_text
  have hsplit := l.split?_text rest
  rw [hl] at hsplit ⊢
  rw [List.cons_append] at hsplit ⊢
  rw [literalAt?, if_pos (by rcases hc with rfl | hc <;> simp_all), hsplit]

end Call

/-! ## One character of a cut -/

open Argument

theorem map_extendFirst (r : Except Stop (List (List Char))) (a b : List Char) :
    (r.map (extendFirst b)).map (extendFirst a) = r.map (extendFirst (a ++ b)) := by
  rcases r with e | parts
  · rfl
  · cases parts <;> simp [Except.map, extendFirst]

theorem map_extendFirst_nil (opened : List Char) (inWord : Bool) (s : List Char) :
    (cut opened inWord s).map (extendFirst []) = cut opened inWord s := by
  cases h : cut opened inWord s with
  | error e => rfl
  | ok parts =>
      obtain ⟨p, ps, rfl⟩ := List.exists_cons_of_ne_nil (intercalate_cut opened inWord s parts h).1
      rfl

/-- What becomes of a character at which no literal starts. -/
theorem cut_cons {opened : List Char} {inWord : Bool} {c : Char} {rest : List Char}
    (hliteral : (if inWord then none else Literal.split? (c :: rest)) = none)
    (hascii : c.toNat < 128) : cut opened inWord (c :: rest) =
      if c = ',' ∧ opened = [] then (cut [] false rest).map ([] :: ·)
      else if (partner? c).isSome then (cut (c :: opened) false rest).map (extendFirst [c])
      else if isClosing c then
        match opened with
        | [] => .error (Fault.unbalanced c).stop
        | o :: opened =>
          if partner? o = some c then (cut opened false rest).map (extendFirst [c])
          else .error (Fault.unbalanced c).stop
      else (cut opened (Text.isNameChar c) rest).map (extendFirst [c]) := by
  rw [cut.eq_def]
  dsimp only
  split
  · next heq =>
    rw [hliteral] at heq
    cases heq
  · exact if_neg (by omega)

theorem cut_literal (l : StringLiteral) (opened rest : List Char) :
    cut opened false (l.text ++ rest) = (cut opened false rest).map (extendFirst l.text) := by
  obtain ⟨c, s, hl, -⟩ := l.exists_cons_text
  have hsplit := l.split?_text rest
  rw [hl] at hsplit ⊢
  rw [List.cons_append] at hsplit ⊢
  rw [cut.eq_def]
  dsimp only
  split
  · next heq =>
    rw [if_neg Bool.false_ne_true, hsplit] at heq
    cases heq
    rfl
  · next heq =>
    rw [if_neg Bool.false_ne_true, hsplit] at heq
    cases heq

theorem split?_separator {c : Char}
    (h : c = ' ' ∨ c = ',' ∨ c = ')' ∨ c = '{' ∨ c = '}') (rest : List Char) :
    Literal.split? (c :: rest) = none := by
  refine Literal.split?_eq_none fun d hd => ?_
  rw [List.dropWhile_cons_of_neg (by rcases h with rfl | rfl | rfl | rfl | rfl <;> decide)] at hd
  cases hd
  rcases h with rfl | rfl | rfl | rfl | rfl <;> decide

theorem cut_separated {rest : List Char} (h : Separated rest) (opened : List Char)
    (inWord : Bool) : cut opened inWord rest = cut opened false rest := by
  cases rest with
  | nil => cases opened <;> simp [cut]
  | cons c rest =>
      have hc := h c rfl
      have hnone : ∀ inWord : Bool,
          (if inWord then none else Literal.split? (c :: rest)) = none := by
        intro inWord
        rw [split?_separator (by rcases hc with h | h | h | h <;> simp [h]), ite_self]
      have hascii : c.toNat < 128 := by
        rcases hc with rfl | rfl | rfl | rfl <;> decide
      rw [cut_cons (hnone inWord) hascii, cut_cons (hnone false) hascii]

/-- A blank of ASCII. -/
def isNarrowBlank (c : Char) : Bool := Text.isBlank c && decide (c.toNat < 128)

/-- A character that a cut passes: a plain one or a blank. -/
def isQuiet (c : Char) : Bool := isPlain c || isNarrowBlank c

theorem isQuiet_of_isPlain {c : Char} (h : isPlain c = true) : isQuiet c = true := by
  rw [isQuiet, h, Bool.true_or]

theorem isQuiet_of_isNarrowBlank {c : Char} (h : isNarrowBlank c = true) : isQuiet c = true := by
  rw [isQuiet, h, Bool.or_true]

theorem ne_of_isQuiet {c : Char} (h : isQuiet c = true) : c.toNat < 128 ∧ c ≠ '"' ∧ c ≠ '\'' ∧
    c ≠ '(' ∧ c ≠ ')' ∧ c ≠ '\x7b' ∧ c ≠ '\x7d' ∧ c ≠ '[' ∧ c ≠ ']' ∧ c ≠ ',' := by
  rcases Bool.or_eq_true_iff.1 h with hplain | hblank
  · obtain ⟨hascii, -, hne⟩ := ne_of_isPlain hplain
    exact ⟨hascii, hne⟩
  · obtain ⟨hblank, hascii⟩ := Bool.and_eq_true_iff.1 hblank
    refine ⟨of_decide_eq_true hascii, ?_, ?_, ?_, ?_, ?_, ?_, ?_, ?_, ?_⟩ <;>
      · rintro rfl
        exact absurd hblank (by decide)

/-- What becomes of a quiet character at which no literal starts. -/
theorem cut_cons_of_isQuiet {opened : List Char} {inWord : Bool} {c : Char} {rest : List Char}
    (hliteral : (if inWord then none else Literal.split? (c :: rest)) = none)
    (hc : isQuiet c = true) : cut opened inWord (c :: rest) =
      (cut opened (Text.isNameChar c) rest).map (extendFirst [c]) := by
  obtain ⟨hascii, -, -, h₁, h₂, h₃, h₄, h₅, h₆, h₇⟩ := ne_of_isQuiet hc
  have hpartner : (partner? c).isSome = false := by
    unfold partner?
    split <;> simp_all
  have hclosing : isClosing c = false := by simp [isClosing, h₂, h₄, h₆]
  rw [cut_cons hliteral hascii, if_neg (by simp [h₇]), hpartner, hclosing,
    if_neg Bool.false_ne_true, if_neg Bool.false_ne_true]

theorem cut_quiet {v rest : List Char} (hv : ∀ c ∈ v, isQuiet c = true) (hrest : Separated rest)
    (opened : List Char) (inWord : Bool) :
    cut opened inWord (v ++ rest) = (cut opened false rest).map (extendFirst v) := by
  induction v generalizing inWord with
  | nil => rw [List.nil_append, map_extendFirst_nil, cut_separated hrest]
  | cons c v ih =>
      have hnone : (if inWord then none else Literal.split? (c :: (v ++ rest))) = none := by
        split
        · rfl
        · exact split?_eq_none_of_separated
            (fun d hd => ⟨(ne_of_isQuiet (hv d hd)).2.1, (ne_of_isQuiet (hv d hd)).2.2.1⟩) hrest
      obtain ⟨hc, hv⟩ := List.forall_mem_cons.1 hv
      rw [List.cons_append, cut_cons_of_isQuiet hnone hc, ih hv, map_extendFirst]
      rfl

/-- Blanks are passed whatever follows them. -/
theorem cut_blanks {blanks : List Char} (h : ∀ c ∈ blanks, isNarrowBlank c = true)
    (opened rest : List Char) :
    cut opened false (blanks ++ rest) = (cut opened false rest).map (extendFirst blanks) := by
  induction blanks with
  | nil => rw [List.nil_append, map_extendFirst_nil]
  | cons c blanks ih =>
      obtain ⟨hc, hblanks⟩ := List.forall_mem_cons.1 h
      have hname : Text.isNameChar c = false := by
        rw [Bool.eq_false_iff]
        intro hname
        have hblank := (Bool.and_eq_true_iff.1 hc).1
        rw [Text.isBlank_of_isNameChar hname] at hblank
        cases hblank
      have hquiet := ne_of_isQuiet (isQuiet_of_isNarrowBlank hc)
      have hnone : Literal.split? (c :: (blanks ++ rest)) = none := by
        refine Literal.split?_eq_none fun d hd => ?_
        rw [List.dropWhile_cons_of_neg (by simp [hname])] at hd
        cases hd
        exact ⟨hquiet.2.1, hquiet.2.2.1⟩
      rw [List.cons_append, cut_cons_of_isQuiet (by rw [hnone, ite_self])
        (isQuiet_of_isNarrowBlank hc), hname, ih hblanks, map_extendFirst]
      rfl

/-! ## Pieces -/

/-- A text that a call is read past as it stands, and that a cut leaves in one piece, if
`inBraces` only within brackets. -/
structure Passed (inBraces : Bool) (text : List Char) : Prop where
  inside : ∀ depth rest, Separated rest → Call.inside? depth false (text ++ rest) =
    (Call.inside? depth false rest).map (Call.cons text text)
  cut : ∀ opened rest, Separated rest → (inBraces = true → opened ≠ []) →
    Argument.cut opened false (text ++ rest) =
      (Argument.cut opened false rest).map (extendFirst text)

theorem passed_word (w : Word) : Passed false w.text where
  inside depth _ hrest := Call.inside?_plain w.plain w.noComment hrest depth false
  cut opened _ hrest _ :=
    cut_quiet (fun c hc => isQuiet_of_isPlain (w.plain c hc)) hrest opened false

theorem passed_literal (l : StringLiteral) : Passed false l.text where
  inside depth rest _ := Call.inside?_literal l depth rest
  cut opened rest _ _ := cut_literal l opened rest

theorem passed_nil : Passed true [] where
  inside _ _ _ := by rw [List.nil_append, map_cons_nil]
  cut _ _ _ _ := by rw [List.nil_append, map_extendFirst_nil]

theorem cut_space (opened rest : List Char) :
    cut opened false (' ' :: rest) = (cut opened false rest).map (extendFirst [' ']) :=
  cut_blanks (by decide : ∀ c ∈ [' '], isNarrowBlank c = true) opened rest

/-- A comma within brackets separates nothing. -/
theorem cut_comma {opened : List Char} (h : opened ≠ []) (rest : List Char) :
    cut opened false (',' :: rest) = (cut opened false rest).map (extendFirst [',']) := by
  rw [cut_cons (by rw [split?_separator (by simp), ite_self]) (by decide), if_neg (by simp [h])]
  rfl

/-- A comma outside brackets starts another part. -/
theorem cut_topComma (rest : List Char) :
    cut [] false (',' :: rest) = (cut [] false rest).map ([] :: ·) := by
  rw [cut_cons (by rw [split?_separator (by simp), ite_self]) (by decide), if_pos ⟨rfl, rfl⟩]

theorem cut_open (opened rest : List Char) : cut opened false ('\x7b' :: rest) =
    (cut ('\x7b' :: opened) false rest).map (extendFirst ['\x7b']) := by
  rw [cut_cons (by rw [split?_separator (by simp), ite_self]) (by decide), if_neg (by simp)]
  rfl

theorem cut_close (opened rest : List Char) : cut ('\x7b' :: opened) false ('\x7d' :: rest) =
    (cut opened false rest).map (extendFirst ['\x7d']) := by
  rw [cut_cons (by rw [split?_separator (by simp), ite_self]) (by decide), if_neg (by simp)]
  rfl

namespace Passed

variable {b : Bool} {s t : List Char}

theorem inBraces (h : Passed false s) : Passed true s :=
  ⟨h.inside, fun opened rest hrest _ => h.cut opened rest hrest (fun hf => (nomatch hf))⟩

/-- Two pieces with a space between them. -/
theorem spaced (hs : Passed b s) (ht : Passed b t) : Passed b (s ++ ' ' :: t) where
  inside depth rest hrest := by
    rw [List.append_assoc, List.cons_append, hs.inside _ _ (separated_cons (Or.inl rfl) _),
      Call.inside?_separator (Or.inl rfl), ht.inside _ _ hrest, map_cons_cons, map_cons_cons]
    simp only [List.append_assoc, List.singleton_append]
  cut opened rest hrest hopened := by
    rw [List.append_assoc, List.cons_append,
      hs.cut _ _ (separated_cons (Or.inl rfl) _) hopened, cut_space,
      ht.cut _ _ hrest hopened, map_extendFirst, map_extendFirst]
    simp only [List.append_assoc, List.singleton_append]

/-- Two items of a list, which are one piece only in its braces. -/
theorem listed (hs : Passed true s) (ht : Passed true t) :
    Passed true (s ++ ',' :: ' ' :: t) where
  inside depth rest hrest := by
    rw [List.append_assoc, List.cons_append, List.cons_append,
      hs.inside _ _ (separated_cons (Or.inr (Or.inl rfl)) _),
      Call.inside?_separator (Or.inr (Or.inl rfl)),
      Call.inside?_separator (Or.inl rfl), ht.inside _ _ hrest, map_cons_cons, map_cons_cons,
      map_cons_cons]
    simp only [List.append_assoc, List.cons_append, List.nil_append]
  cut opened rest hrest hopened := by
    rw [List.append_assoc, List.cons_append, List.cons_append,
      hs.cut _ _ (separated_cons (Or.inr (Or.inl rfl)) _) hopened, cut_comma (hopened rfl), cut_space,
      ht.cut _ _ hrest hopened, map_extendFirst, map_extendFirst, map_extendFirst]
    simp only [List.append_assoc, List.cons_append, List.nil_append]

/-- Braces make one piece of what stands between them. -/
theorem braced (hs : Passed true s) : Passed false ('\x7b' :: (s ++ ['\x7d'])) where
  inside depth rest hrest := by
    rw [List.cons_append, List.append_assoc, List.singleton_append,
      Call.inside?_separator (by simp), hs.inside _ _ (separated_cons (by simp) _),
      Call.inside?_separator (by simp), map_cons_cons, map_cons_cons]
    rfl
  cut opened rest hrest _ := by
    rw [List.cons_append, List.append_assoc, List.singleton_append, cut_open,
      hs.cut _ _ (separated_cons (by simp) _) (fun _ => List.cons_ne_nil _ _), cut_close,
      map_extendFirst, map_extendFirst]
    rfl

end Passed

/-- Words and literals with spaces between them. -/
theorem passed_spaced {first : List Char} {more : List (List Char)} (hfirst : Passed false first)
    (hmore : ∀ text ∈ more, Passed false text) : Passed false (Text.spaced (first :: more)) := by
  induction more generalizing first with
  | nil => exact hfirst
  | cons second more ih =>
      obtain ⟨hsecond, hmore⟩ := List.forall_mem_cons.1 hmore
      exact hfirst.spaced (ih hsecond hmore)

end EmbeddedBuffers.Source
