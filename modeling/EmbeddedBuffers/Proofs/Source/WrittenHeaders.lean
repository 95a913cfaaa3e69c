import EmbeddedBuffers.Proofs.Source.ByteNames
import EmbeddedBuffers.Proofs.Source.Readers

/-!
# Headers as they are written

The header of a namespace as a source writes it: identifiers of any characters with double colons
between them, attributes, the word `inline`, blanks and comments. A scan keeps its names if they are
in ASCII, stand behind a blank or nothing once the comments are dropped, and if what stands in front
of them has neither a double colon nor a character that ends a header; and it keeps no others. Main
statement: `WrittenHeader.read_eq_iff`.
-/

namespace EmbeddedBuffers.Source

/-! ## The grammar -/

/-- What separates the words of a header: a blank, a comment that is closed, or a comment up to the
end of its line, with the line feed. -/
inductive Spacer
  | blank (c : Char) (h : Text.isBlank c = true) (ascii : c.toNat < 128)
  | block (text : List Char) (closed : blockComment? text = some (text, []))
  | line (text : List Char) (oneLine : '\n' ∉ text)

def Spacer.text : Spacer → List Char
  | .blank c _ _ => [c]
  | .block text _ => '/' :: '*' :: text
  | .line text _ => '/' :: '/' :: (text ++ ['\n'])

/-- What is left of it when comments are dropped. -/
def Spacer.bare : Spacer → List Char
  | .blank c _ _ => [c]
  | .block _ _ => []
  | .line _ _ => ['\n']

/-- An attribute in its double brackets. -/
structure Attribute where
  body : List Char
  ascii : ∀ c ∈ body, c.toNat < 128
  noComment : opensComment body = false

def Attribute.text (a : Attribute) : List Char := '[' :: '[' :: (a.body ++ [']', ']'])

/-- What may stand in front of a name. -/
inductive Mark
  | spacer (s : Spacer)
  | bracketed (a : Attribute)

def Mark.text : Mark → List Char
  | .spacer s => s.text
  | .bracketed a => a.text

def Mark.bare : Mark → List Char
  | .spacer s => s.bare
  | .bracketed a => a.text

/-- A name in a header, with what stands in front of it and behind it. -/
structure Naming where
  marks : List Mark
  /-- What stands between the word `inline` and the name, if that word is there. -/
  inlined : Option (Spacer × List Spacer)
  name : List Char
  after : List Spacer
  ne_nil : name ≠ []
  chars : ∀ c ∈ name, isNamingChar c = true
  notInline : name ≠ "inline".toList

namespace Naming

def inlineText (n : Naming) : List Char :=
  n.inlined.elim [] fun (s, more) => "inline".toList ++ (s :: more).flatMap Spacer.text

def inlineBare (n : Naming) : List Char :=
  n.inlined.elim [] fun (s, more) => "inline".toList ++ (s :: more).flatMap Spacer.bare

def text (n : Naming) : List Char :=
  n.marks.flatMap Mark.text ++ n.inlineText ++ n.name ++ n.after.flatMap Spacer.text

/-- What stands in front of the name when comments are dropped. -/
def lead (n : Naming) : List Char := n.marks.flatMap Mark.bare ++ n.inlineBare

def bare (n : Naming) : List Char := n.lead ++ n.name ++ n.after.flatMap Spacer.bare

end Naming

/-- What a source writes between the word `namespace` and the brace of the block. -/
inductive WrittenHeader
  | anonymous (marks : List Mark)
  | named (first : Naming) (more : List Naming)

namespace WrittenHeader

def text : WrittenHeader → List Char
  | .anonymous marks => marks.flatMap Mark.text
  | .named first more => colonized ((first :: more).map Naming.text)

def bare : WrittenHeader → List Char
  | .anonymous marks => marks.flatMap Mark.bare
  | .named first more => colonized ((first :: more).map Naming.bare)

/-- The names that are written. -/
def names : WrittenHeader → List String
  | .anonymous _ => []
  | .named first more => (first :: more).map fun n => String.ofList n.name

end WrittenHeader

/-- A character that ends a header, as the brace of the block does. -/
def endsHeader (c : Char) : Bool := c == '\x7b' || c == ';' || c == '='

/-- A name that a scan keeps. -/
structure Naming.Kept (n : Naming) : Prop where
  ascii : ∀ c ∈ n.name, c.toNat < 128
  apart : ∀ c ∈ n.lead.getLast?, Text.isBlank c = true
  undivided : ¬[':', ':'] <:+: n.lead
  unended : ∀ c ∈ n.lead, endsHeader c = false

/-- The names of a header are kept, and a header without a name gives none to its block. -/
def WrittenHeader.Kept : WrittenHeader → Prop
  | .anonymous marks => ∀ c ∈ marks.flatMap Mark.bare, Text.isBlank c = true
  | .named first more => ∀ n ∈ first :: more, n.Kept

/-! ## Reading past comments -/

/-- How a piece of a header is read, whatever stands behind it: its comments are dropped, and what
is left is read byte by byte, up to a character that ends the header. -/
structure Passes (text bare : List Char) : Prop where
  reads : (∀ c ∈ bare, endsHeader c = false) → ∀ before rest,
    Header.read before (text ++ rest) =
      (Header.read ((bytes bare).reverse ++ before) rest).cons text
  ends : (∃ c ∈ bare, endsHeader c = true) → ∀ before rest names written after,
    Header.read before (text ++ rest) = .block names written after → written.length ≤ text.length

namespace Passes

variable {text text' bare bare' : List Char}

theorem cons_nil (h : Header) : h.cons [] = h := by cases h <;> rfl

theorem exists_of_cons {piece written rest : List Char} {names : List String} {h : Header}
    (heq : h.cons piece = .block names written rest) :
    ∃ written', h = .block names written' rest ∧ written = piece ++ written' := by
  cases h with
  | block names' written' rest' =>
      cases heq
      exact ⟨written', rfl, rfl⟩
  | statement => cases heq

theorem nil : Passes [] [] where
  reads _ before rest := (cons_nil _).symm
  ends h := by simp at h

theorem append (h : Passes text bare) (h' : Passes text' bare') :
    Passes (text ++ text') (bare ++ bare') where
  reads hbare before rest := by
    obtain ⟨hfirst, hsecond⟩ := List.forall_mem_append.1 hbare
    rw [List.append_assoc, h.reads hfirst, h'.reads hsecond, Header.cons_cons, bytes_append,
      List.reverse_append, List.append_assoc]
  ends hbare before rest names written after hread := by
    rw [List.append_assoc] at hread
    rw [List.length_append]
    by_cases hfirst : ∃ c ∈ bare, endsHeader c = true
    · have := h.ends hfirst _ _ _ _ _ hread
      omega
    · push Not at hfirst
      simp only [ne_eq, Bool.not_eq_true] at hfirst
      rw [h.reads hfirst] at hread
      obtain ⟨written', hread', rfl⟩ := exists_of_cons hread
      have hsecond : ∃ c ∈ bare', endsHeader c = true := by
        obtain ⟨c, hc, hends⟩ := hbare
        refine ⟨c, (List.mem_append.1 hc).resolve_left fun hmem => ?_, hends⟩
        rw [hfirst c hmem] at hends
        cases hends
      have := h'.ends hsecond _ _ _ _ _ hread'
      rw [List.length_append]
      omega

/-- A character at which no comment starts. -/
theorem cons {c : Char} (hc : ∀ rest, comment? (c :: (text ++ rest)) = none)
    (h : Passes text bare) : Passes (c :: text) (c :: bare) where
  reads hbare before rest := by
    obtain ⟨hend, hmore⟩ := List.forall_mem_cons.1 hbare
    simp only [endsHeader, Bool.or_eq_false_iff, beq_eq_false_iff_ne] at hend
    rw [List.cons_append, Header.read_cons (hc rest), if_neg hend.1.1, if_neg (by simp [hend]),
      h.reads hmore, Header.cons_cons, bytes_cons, List.reverse_append, List.append_assoc]
    rfl
  ends hbare before rest names written after hread := by
    rw [List.cons_append, Header.read_cons (hc rest)] at hread
    split at hread
    · cases hread
      exact Nat.succ_le_succ (Nat.zero_le _)
    next hbrace =>
    split at hread
    · split at hread <;> cases hread
    next hend =>
    obtain ⟨written', hread', rfl⟩ := exists_of_cons hread
    have hmore : ∃ c ∈ bare, endsHeader c = true := by
      obtain ⟨d, hd, hends⟩ := hbare
      rcases List.mem_cons.1 hd with rfl | hd
      · simp [endsHeader, hbrace] at hends
        exact absurd hends hend
      · exact ⟨d, hd, hends⟩
    exact Nat.succ_le_succ (h.ends hmore _ _ _ _ _ hread')

/-- A comment, whatever stands behind it. -/
theorem comment {w : List Char}
    (hc : ∀ rest, comment? (w ++ (text ++ rest)) = some (w, text ++ rest))
    (h : Passes text bare) : Passes (w ++ text) bare where
  reads hbare before rest := by
    rw [List.append_assoc, Header.read_comment (hc rest), h.reads hbare, Header.cons_cons]
  ends hbare before rest names written after hread := by
    rw [List.append_assoc, Header.read_comment (hc rest)] at hread
    obtain ⟨written', hread', rfl⟩ := exists_of_cons hread
    have := h.ends hbare _ _ _ _ _ hread'
    simp only [List.length_append]
    omega

theorem word {w : List Char} (hw : ∀ c ∈ w, c ≠ '/') : Passes w w := by
  induction w with
  | nil => exact .nil
  | cons c w ih =>
      obtain ⟨hc, hw⟩ := List.forall_mem_cons.1 hw
      exact .cons (fun _ => comment?_eq_none fun heq => absurd heq hc) (ih hw)

theorem spacer (s : Spacer) : Passes s.text s.bare := by
  cases s with
  | blank c h ascii =>
      refine .word (List.forall_mem_singleton.2 ?_)
      rintro rfl
      exact absurd h (by decide)
  | block text closed =>
      have hcomment : ∀ rest, comment? ('/' :: '*' :: text ++ ([] ++ rest)) =
          some ('/' :: '*' :: text, [] ++ rest) := by
        intro rest
        have hclosed := blockComment?_exchange (r := []) (by rw [List.append_nil, closed]) rest
        show comment? ('/' :: '*' :: (text ++ rest)) = some ('/' :: '*' :: text, rest)
        rw [comment?, hclosed]
      have hpasses := Passes.comment hcomment .nil
      rwa [List.append_nil] at hpasses
  | line text oneLine =>
      refine .comment (w := '/' :: '/' :: text) (fun rest => ?_) (.word (by decide))
      have hfeed : ∀ c ∈ text, (c != '\n') = true := by
        intro c hc
        exact bne_iff_ne.2 fun heq => oneLine (heq ▸ hc)
      obtain ⟨htake, hdrop⟩ := Text.span_append (b := '\n' :: rest) hfeed (by simp)
      show comment? ('/' :: '/' :: (text ++ '\n' :: rest)) = some ('/' :: '/' :: text, '\n' :: rest)
      rw [comment?, lineRest, htake, hdrop]

theorem bracketed (a : Attribute) : Passes a.text a.text := by
  have hbody : ∀ body, opensComment body = false →
      Passes (body ++ [']', ']']) (body ++ [']', ']']) := by
    intro body hnone
    induction body with
    | nil => exact .word (by decide)
    | cons c body ih =>
        obtain ⟨hmore, hslash⟩ := opensComment_cons hnone
        refine .cons (fun rest => comment?_eq_none fun hc d hd => ?_) (ih hmore)
        cases body with
        | nil =>
            cases hd
            decide
        | cons e body => exact hslash hc d hd
  exact .append (.word (w := ['[', '[']) (by decide)) (hbody a.body a.noComment)

theorem mark (x : Mark) : Passes x.text x.bare := by
  cases x with
  | spacer s => exact .spacer s
  | bracketed a => exact .bracketed a

theorem flatMap {α : Type} {f g : α → List Char} {l : List α} (h : ∀ a ∈ l, Passes (f a) (g a)) :
    Passes (l.flatMap f) (l.flatMap g) := by
  induction l with
  | nil => exact .nil
  | cons a l ih =>
      obtain ⟨ha, hl⟩ := List.forall_mem_cons.1 h
      exact .append ha (ih hl)

theorem naming (n : Naming) : Passes n.text n.bare := by
  have hname : ∀ c ∈ n.name, c ≠ '/' := by
    rintro c hc rfl
    exact absurd (n.chars _ hc) (by decide)
  have hinline : Passes n.inlineText n.inlineBare := by
    unfold Naming.inlineText Naming.inlineBare
    cases n.inlined with
    | none => exact .nil
    | some gap => exact .append (.word (by decide)) (.flatMap fun s _ => .spacer s)
  exact .append (.append (.append (.flatMap fun x _ => .mark x) hinline) (.word hname))
    (.flatMap fun s _ => .spacer s)

/-- **What is left of a header without its comments is what is read of it.** -/
theorem header (h : WrittenHeader) : Passes h.text h.bare := by
  cases h with
  | anonymous marks => exact .flatMap fun x _ => .mark x
  | named first more =>
      show Passes (colonized ((first :: more).map Naming.text))
        (colonized ((first :: more).map Naming.bare))
      induction more generalizing first with
      | nil => exact .naming first
      | cons second more ih =>
          exact .append (.naming first) (.append (.word (w := [':', ':']) (by decide)) (ih second))

end Passes

/-! ## Parts between double colons -/

theorem colonParts_ne_nil (part s : List Char) : colonParts part s ≠ [] := by
  fun_induction colonParts part s with
  | case1 => exact List.cons_ne_nil _ _
  | case2 => exact List.cons_ne_nil _ _
  | case3 _ _ _ _ ih => exact ih

/-- A text has either no double colon and is one part, or a part in front of its first one. -/
theorem colonParts_cases (part s : List Char) :
    ¬[':', ':'] <:+: s ∧ colonParts part s = [part.reverse ++ s] ∨
      ∃ before behind, s = before ++ ':' :: ':' :: behind ∧
        colonParts part s = (part.reverse ++ before) :: colonParts [] behind := by
  fun_induction colonParts part s with
  | case1 part => exact .inl ⟨by simp, by rw [List.append_nil]⟩
  | case2 part rest ih => exact .inr ⟨[], rest, rfl, by rw [List.append_nil]⟩
  | case3 part c rest hcolons ih =>
      rcases ih with ⟨hnone, hparts⟩ | ⟨before, behind, rfl, hparts⟩
      · refine .inl ⟨fun hinfix => ?_, by rw [hparts]; simp⟩
        rcases List.infix_cons_iff.1 hinfix with ⟨t, ht⟩ | hinfix
        · obtain ⟨hc, hrest⟩ := List.cons.inj ht
          exact hcolons t hc.symm hrest.symm
        · exact hnone hinfix
      · exact .inr ⟨c :: before, behind, rfl, by rw [hparts]; simp⟩

theorem colonParts_of_not_mem {s : List Char} (h : ':' ∉ s) (part : List Char) :
    colonParts part s = [part.reverse ++ s] := by
  have happend := colonParts_append h part []
  rw [List.append_nil] at happend
  rw [happend, colonParts, List.reverse_append, List.reverse_reverse]

/-- No double colon arises where what stands behind starts with no colon. -/
theorem not_colons_append {c : Char} {rest z : List Char}
    (h : ∀ r, c = ':' → rest = ':' :: r → False) (hz : ∀ r, z ≠ ':' :: r) :
    ∀ r, c = ':' → rest ++ z = ':' :: r → False := by
  intro r hc hrest
  cases rest with
  | nil => exact hz r hrest
  | cons d rest => exact h rest hc (by rw [(List.cons.inj hrest).1])

/-- What has no colon belongs to the last part. -/
theorem exists_last_part (part s : List Char) : ∃ first last, ∀ t, ':' ∉ t →
    colonParts part (s ++ t) = first ++ [last ++ t] := by
  fun_induction colonParts part s with
  | case1 part => exact ⟨[], part.reverse, fun t ht => colonParts_of_not_mem ht part⟩
  | case2 part rest ih =>
      obtain ⟨first, last, h⟩ := ih
      refine ⟨part.reverse :: first, last, fun t ht => ?_⟩
      rw [List.cons_append, List.cons_append, colonParts, h t ht]
      rfl
  | case3 part c rest hcolons ih =>
      obtain ⟨first, last, h⟩ := ih
      refine ⟨first, last, fun t ht => ?_⟩
      have hhead : ∀ r, t ≠ ':' :: r := fun r heq => ht (heq ▸ List.mem_cons_self)
      rw [List.cons_append, colonParts.eq_3 _ _ _ (not_colons_append hcolons hhead), h t ht]

/-- A double colon behind anything but a colon divides. -/
theorem colonParts_double {y : List Char} (hne : y ≠ []) (hy : ':' ∉ y) (part x rest : List Char) :
    colonParts part (x ++ (y ++ ':' :: ':' :: rest)) =
      colonParts part (x ++ y) ++ colonParts [] rest := by
  obtain ⟨d, y, rfl⟩ := List.exists_cons_of_ne_nil hne
  have hd : ':' ≠ d := fun heq => hy (heq ▸ List.mem_cons_self)
  have hhead : ∀ z r, d :: z ≠ ':' :: r := fun z r heq => hd (List.cons.inj heq).1.symm
  fun_induction colonParts part x with
  | case1 part =>
      rw [List.nil_append, List.nil_append, colonParts_append hy, colonParts_of_not_mem hy,
        colonParts, List.reverse_append, List.reverse_reverse]
      rfl
  | case2 part x ih =>
      rw [List.cons_append, List.cons_append, colonParts, ih]
      rfl
  | case3 part c x hcolons ih =>
      rw [List.cons_append, List.cons_append, List.cons_append,
        colonParts.eq_3 _ _ _ (not_colons_append hcolons (hhead _)),
        colonParts.eq_3 _ _ _ (not_colons_append hcolons (hhead _)), ← List.cons_append, ih]

theorem colonParts_colonized {ws : List (List Char)} (hne : ws ≠ [])
    (h : ∀ w ∈ ws, ∃ x y, w = x ++ y ∧ y ≠ [] ∧ ':' ∉ y) :
    colonParts [] (colonized ws) = ws.flatMap (colonParts []) := by
  induction ws with
  | nil => exact absurd rfl hne
  | cons w ws ih =>
      obtain ⟨⟨x, y, rfl, hy, hcolon⟩, hmore⟩ := List.forall_mem_cons.1 h
      cases ws with
      | nil => rw [colonized, List.flatMap_singleton]
      | cons v ws =>
          rw [colonized, List.append_assoc, colonParts_double hy hcolon,
            ih (List.cons_ne_nil _ _) hmore]
          rfl

/-! ## The names that are read -/

/-- Lists of some elements each that together are one for each are singletons. -/
theorem flatMap_eq_map_iff {α β : Type} {f : α → List β} {g : α → β} {l : List α}
    (hne : ∀ a ∈ l, f a ≠ []) : l.flatMap f = l.map g ↔ ∀ a ∈ l, f a = [g a] := by
  have hlength : ∀ l : List α, (∀ a ∈ l, f a ≠ []) → l.length ≤ (l.flatMap f).length := by
    intro l hne
    induction l with
    | nil => exact Nat.le_refl 0
    | cons a l ih =>
        obtain ⟨ha, hl⟩ := List.forall_mem_cons.1 hne
        have hpos := List.length_pos_iff.2 ha
        have hmore := ih hl
        rw [List.flatMap_cons, List.length_append, List.length_cons]
        omega
  constructor
  · intro heq
    induction l with
    | nil => exact List.forall_mem_nil _
    | cons a l ih =>
        obtain ⟨ha, hl⟩ := List.forall_mem_cons.1 hne
        obtain ⟨b, bs, hb⟩ := List.exists_cons_of_ne_nil ha
        rw [List.flatMap_cons, List.map_cons, hb, List.cons_append] at heq
        obtain ⟨rfl, hmore⟩ := List.cons.inj heq
        have hnil : bs = [] := by
          have htotal := congrArg List.length hmore
          have hle := hlength l hl
          rw [List.length_append, List.length_map] at htotal
          exact List.length_eq_zero_iff.1 (by omega)
        subst hnil
        exact List.forall_mem_cons.2 ⟨hb, ih hl hmore⟩
  · intro h
    clear hne
    induction l with
    | nil => rfl
    | cons a l ih =>
        obtain ⟨ha, hl⟩ := List.forall_mem_cons.1 h
        rw [List.flatMap_cons, ha, ih hl]
        rfl

theorem Spacer.blank_of_mem {s : Spacer} {c : Char} (hc : c ∈ s.bare) :
    Text.isBlank c = true ∧ c.toNat < 128 := by
  cases s with
  | blank d h ascii =>
      obtain rfl := List.mem_singleton.1 hc
      exact ⟨h, ascii⟩
  | block text closed => cases hc
  | line text oneLine =>
      obtain rfl := List.mem_singleton.1 hc
      decide

theorem Spacer.blank_of_mem_flatMap {gap : List Spacer} {c : Char}
    (hc : c ∈ gap.flatMap Spacer.bare) : Text.isBlank c = true ∧ c.toNat < 128 := by
  obtain ⟨s, -, hmem⟩ := List.mem_flatMap.1 hc
  exact blank_of_mem hmem

theorem Attribute.ascii_text (a : Attribute) : ∀ c ∈ a.text, c.toNat < 128 := by
  refine List.forall_mem_cons.2 ⟨by decide, List.forall_mem_cons.2 ⟨by decide, ?_⟩⟩
  exact List.forall_mem_append.2 ⟨a.ascii, by decide⟩

theorem Mark.ascii {x : Mark} : ∀ c ∈ x.bare, c.toNat < 128 := by
  cases x with
  | spacer s => exact fun c hc => (Spacer.blank_of_mem hc).2
  | bracketed a => exact a.ascii_text

/-- A text that ends with what may stand in front of a name. -/
def Fronts (s : List Char) : Prop := ∃ front stop, s = front ++ stop ∧ Stands front stop

theorem Fronts.spacer {t : List Char} (h : Fronts t) (s : Spacer) : Fronts (t ++ s.bare) := by
  cases s with
  | blank c hc ascii => exact ⟨t, [c], rfl, .blank hc ascii⟩
  | block text closed =>
      show Fronts (t ++ [])
      rwa [List.append_nil]
  | line text oneLine => exact ⟨t, ['\n'], rfl, .blank (by decide) (by decide)⟩

theorem Fronts.mark {t : List Char} (h : Fronts t) (x : Mark) : Fronts (t ++ x.bare) := by
  cases x with
  | spacer s => exact h.spacer s
  | bracketed a =>
      refine ⟨t ++ '[' :: '[' :: (a.body ++ [']']), [']'], ?_, .bracket⟩
      show t ++ '[' :: '[' :: (a.body ++ [']', ']']) = _
      simp

theorem Fronts.flatMap {α : Type} {f : α → List Char} (hf : ∀ t a, Fronts t → Fronts (t ++ f a))
    (l : List α) {t : List Char} (h : Fronts t) : Fronts (t ++ l.flatMap f) := by
  induction l generalizing t with
  | nil => rwa [List.flatMap_nil, List.append_nil]
  | cons a l ih =>
      rw [List.flatMap_cons, ← List.append_assoc]
      exact ih (hf t a h)

/-- Each colon stands behind a bracket. -/
def Bracketed (s : List Char) : Prop := ∀ u v, s = u ++ ':' :: v → '[' ∈ u

theorem bracketed_of_not_mem {s : List Char} (h : ':' ∉ s) : Bracketed s := by
  rintro u v rfl
  exact absurd (List.mem_append_right u List.mem_cons_self) h

theorem Bracketed.append {s t : List Char} (hs : Bracketed s) (ht : Bracketed t) :
    Bracketed (s ++ t) := by
  intro u v heq
  rcases List.append_eq_append_iff.1 heq with ⟨x, rfl, hx⟩ | ⟨x, rfl, hx⟩
  · exact List.mem_append_right _ (ht x v hx)
  · cases x with
    | nil => exact absurd (ht [] v hx.symm) List.not_mem_nil
    | cons c x =>
        obtain ⟨rfl, -⟩ := List.cons.inj hx
        exact hs u x rfl

/-- The first part of it has the bracket, so it stands for a name. -/
theorem Bracketed.filterMap_ne_nil {s : List Char} (hs : Bracketed s) (hmem : '[' ∈ s) :
    (colonParts [] s).filterMap partName? ≠ [] := by
  have hsome : ∀ part rest, '[' ∈ part → (part :: rest).filterMap partName? ≠ [] := by
    intro part rest hpart
    obtain ⟨name, hname⟩ := Option.isSome_iff_exists.1
      (isSome_partName?_of_mem hpart (by decide) (by decide))
    rw [List.filterMap_cons_some hname]
    exact List.cons_ne_nil _ _
  rcases colonParts_cases [] s with ⟨-, hparts⟩ | ⟨before, behind, hsplit, hparts⟩
  · exact hparts ▸ hsome _ _ hmem
  · exact hparts ▸ hsome _ _ (hs before _ hsplit)

theorem Mark.bracketed_bare (x : Mark) : Bracketed x.bare := by
  cases x with
  | spacer s =>
      refine bracketed_of_not_mem fun hmem => ?_
      exact absurd (Spacer.blank_of_mem (s := s) hmem).1 (by decide)
  | bracketed a =>
      intro u v heq
      cases u with
      | nil => cases heq
      | cons c u =>
          obtain ⟨rfl, -⟩ := List.cons.inj heq
          exact List.mem_cons_self

theorem Mark.bracketed_marks (marks : List Mark) : Bracketed (marks.flatMap Mark.bare) := by
  induction marks with
  | nil => exact bracketed_of_not_mem List.not_mem_nil
  | cons x marks ih => exact x.bracketed_bare.append ih

theorem Mark.ascii_marks (marks : List Mark) :
    ∀ c ∈ marks.flatMap Mark.bare, c.toNat < 128 := by
  intro c hc
  obtain ⟨x, -, hmem⟩ := List.mem_flatMap.1 hc
  exact Mark.ascii c hmem

namespace Naming

variable (n : Naming)

theorem lead_ascii : ∀ c ∈ n.lead, c.toNat < 128 := by
  refine List.forall_mem_append.2 ⟨Mark.ascii_marks n.marks, ?_⟩
  unfold inlineBare
  cases n.inlined with
  | none => exact List.forall_mem_nil _
  | some gap =>
      exact List.forall_mem_append.2 ⟨by decide, fun c hc => (Spacer.blank_of_mem_flatMap hc).2⟩

theorem lead_fronts : Fronts n.lead := by
  have hmarks : Fronts (n.marks.flatMap Mark.bare) :=
    Fronts.flatMap (fun t x ht => ht.mark x) n.marks ⟨[], [], rfl, .start⟩
  unfold lead inlineBare
  cases n.inlined with
  | none =>
      show Fronts (_ ++ [])
      rwa [List.append_nil]
  | some gap =>
      show Fronts (_ ++ ("inline".toList ++ _))
      rw [← List.append_assoc]
      exact Fronts.flatMap (fun t s ht => ht.spacer s) _ ⟨_, _, rfl, .inline⟩

theorem lead_bracketed : Bracketed n.lead := by
  refine (Mark.bracketed_marks n.marks).append (bracketed_of_not_mem ?_)
  unfold inlineBare
  cases n.inlined with
  | none => exact List.not_mem_nil
  | some gap =>
      refine fun hmem => (List.mem_append.1 hmem).elim (fun h => absurd h (by decide)) fun h => ?_
      exact absurd (Spacer.blank_of_mem_flatMap h).1 (by decide)

/-- What stands behind the lead as the header is read: the name and what separates it from the next
double colon. -/
def tail : List Char := bytes n.name ++ n.after.flatMap Spacer.bare

theorem bytes_bare : bytes n.bare = n.lead ++ n.tail := by
  have hafter : ∀ c ∈ n.after.flatMap Spacer.bare, c.toNat < 128 :=
    fun c hc => (Spacer.blank_of_mem_flatMap hc).2
  rw [bare, bytes_append, bytes_append, bytes_of_ascii n.lead_ascii, bytes_of_ascii hafter,
    List.append_assoc]
  rfl

theorem colon_not_mem_tail : ':' ∉ n.tail := by
  intro hmem
  rcases List.mem_append.1 hmem with hmem | hmem
  · obtain ⟨c, hc, hbyte⟩ := mem_bytes.1 hmem
    have hchar := n.chars c hc
    rw [← eq_of_mem_byteChars hbyte (by decide)] at hchar
    exact absurd hchar (by decide)
  · exact absurd (Spacer.blank_of_mem_flatMap hmem).1 (by decide)

/-- A double colon in a part stands in its lead. -/
theorem exists_lead_eq {before behind : List Char}
    (h : n.lead ++ n.tail = before ++ ':' :: ':' :: behind) :
    ∃ v, n.lead = before ++ ':' :: ':' :: v := by
  have htail := n.colon_not_mem_tail
  rcases List.append_eq_append_iff.1 h with ⟨x, -, hx⟩ | ⟨x, hx, hbehind⟩
  · exact absurd (hx ▸ List.mem_append_right x List.mem_cons_self) htail
  · cases x with
    | nil =>
        rw [List.nil_append] at hbehind
        exact absurd (hbehind ▸ List.mem_cons_self) htail
    | cons c x =>
        obtain ⟨rfl, hmore⟩ := List.cons.inj hbehind
        cases x with
        | nil =>
            have hmore : ':' :: behind = n.tail := hmore
            exact absurd (hmore ▸ List.mem_cons_self) htail
        | cons d x =>
            obtain ⟨rfl, -⟩ := List.cons.inj hmore
            exact ⟨x, hx⟩

/-- The names that a scan reads of it. -/
def recorded : List String := (colonParts [] (bytes n.bare)).filterMap partName?

theorem placed {front stop : List Char} (h : Stands front stop) :
    Placed front stop n.name (n.after.flatMap Spacer.bare) where
  stands := h
  ne_nil := n.ne_nil
  chars := n.chars
  notInline := n.notInline
  after _ hc := (Spacer.blank_of_mem_flatMap hc).1

/-- The last part between double colons has the name in it and stands for some name. -/
theorem exists_parts : ∃ first part name, colonParts [] (bytes n.bare) = first ++ [part] ∧
    partName? part = some name := by
  obtain ⟨front, stop, hlead, hstands⟩ := n.lead_fronts
  obtain ⟨first, last, hlast⟩ := exists_last_part [] front
  have hnil : front = [] → last = [] := by
    rintro rfl
    have hempty := hlast [] List.not_mem_nil
    rw [List.nil_append, List.append_nil, colonParts] at hempty
    exact (List.append_eq_singleton_iff.1 hempty.symm).elim
      (fun h => List.singleton_inj.1 h.2) fun h => absurd h.2 (List.cons_ne_nil _ _)
  have hplaced := n.placed (hstands.of_front hnil)
  obtain ⟨name, hname⟩ := Option.isSome_iff_exists.1 hplaced.isSome
  refine ⟨first, _, name, ?_, hname⟩
  have hcolon : ':' ∉ stop ++ n.tail := fun hmem =>
    (List.mem_append.1 hmem).elim hstands.not_mem_colon n.colon_not_mem_tail
  rw [n.bytes_bare, hlead, List.append_assoc, hlast _ hcolon, tail]
  simp

/-- Where a part of the lead ends before a double colon, it has a bracket and stands for a name. -/
theorem isSome_of_divided {before behind : List Char}
    (h : n.lead ++ n.tail = before ++ ':' :: ':' :: behind) : (partName? before).isSome = true := by
  obtain ⟨v, hv⟩ := n.exists_lead_eq h
  exact isSome_partName?_of_mem (n.lead_bracketed before _ hv) (by decide) (by decide)

theorem recorded_ne_nil : n.recorded ≠ [] := by
  obtain ⟨first, part, name, hparts, hname⟩ := n.exists_parts
  rw [recorded, hparts, List.filterMap_append, List.filterMap_cons_some hname]
  exact List.append_ne_nil_of_right_ne_nil _ (List.cons_ne_nil _ _)

/-- Where one name is recorded, no double colon divides the naming. -/
theorem undivided_of_recorded {name : String} (h : n.recorded = [name]) :
    colonParts [] (bytes n.bare) = [bytes n.bare] := by
  obtain ⟨first, part, name', hparts, hname⟩ := n.exists_parts
  rcases colonParts_cases [] (bytes n.bare) with ⟨-, hone⟩ | ⟨before, behind, hsplit, hmore⟩
  · exact hone
  · obtain ⟨other, hother⟩ := Option.isSome_iff_exists.1
      (n.isSome_of_divided (n.bytes_bare.symm.trans hsplit))
    rw [List.reverse_nil, List.nil_append] at hmore
    rw [recorded, hmore, List.filterMap_cons_some hother] at h
    rw [hmore] at hparts
    cases first with
    | nil => exact absurd (List.cons.inj hparts).2 (colonParts_ne_nil [] behind)
    | cons p first =>
        rw [(List.cons.inj hparts).2] at h
        simp [hname] at h

theorem undivided_iff :
    ¬[':', ':'] <:+: n.lead ↔ colonParts [] (bytes n.bare) = [bytes n.bare] := by
  rcases colonParts_cases [] (bytes n.bare) with ⟨hnone, hone⟩ | ⟨before, behind, hsplit, hmore⟩
  · refine iff_of_true (fun hinfix => hnone ?_) hone
    rw [n.bytes_bare]
    exact hinfix.trans (List.prefix_append _ _).isInfix
  · obtain ⟨v, hv⟩ := n.exists_lead_eq (n.bytes_bare.symm.trans hsplit)
    refine iff_of_false (fun h => h ⟨before, v, by rw [hv]; simp⟩) fun hone => ?_
    rw [hmore] at hone
    exact colonParts_ne_nil [] behind (List.cons.inj hone).2

/-- **What a scan records of a naming is its name exactly if it is kept**, up to characters that end
the header. -/
theorem recorded_eq_iff : n.recorded = [String.ofList n.name] ↔ (∀ c ∈ n.name, c.toNat < 128) ∧
    (∀ c ∈ n.lead.getLast?, Text.isBlank c = true) ∧ ¬[':', ':'] <:+: n.lead := by
  obtain ⟨front, stop, hlead, hstands⟩ := n.lead_fronts
  have hfront : ∀ c ∈ front, c.toNat < 128 :=
    fun c hc => n.lead_ascii c (hlead ▸ List.mem_append_left _ hc)
  have hname := (n.placed hstands).partName?_eq_some_iff hfront
    fun c hc => (Spacer.blank_of_mem_flatMap hc).2
  have hpart : front ++ stop ++ bytes n.name ++ n.after.flatMap Spacer.bare = bytes n.bare := by
    rw [n.bytes_bare, hlead, List.append_assoc]
    rfl
  rw [n.undivided_iff, hlead, hstands.getLast?]
  rw [hpart] at hname
  constructor
  · intro hrecorded
    have hone := n.undivided_of_recorded hrecorded
    rw [recorded, hone] at hrecorded
    cases hread : partName? (bytes n.bare) with
    | none => simp [hread] at hrecorded
    | some name =>
        simp only [List.filterMap_cons_some hread, List.filterMap_nil, List.cons.injEq,
          and_true] at hrecorded
        obtain ⟨hascii, hapart⟩ := hname.1 (hread.trans (congrArg some hrecorded))
        exact ⟨hascii, hapart, hone⟩
  · rintro ⟨hascii, hapart, hone⟩
    rw [recorded, hone, List.filterMap_cons_some (hname.2 ⟨hascii, hapart⟩)]
    rfl

end Naming

/-! ## Headers -/

namespace WrittenHeader

theorem bytes_colonized (ws : List (List Char)) :
    bytes (colonized ws) = colonized (ws.map bytes) := by
  induction ws with
  | nil => rfl
  | cons w ws ih =>
      cases ws with
      | nil => rfl
      | cons v ws =>
          have hcolons : bytes (':' :: ':' :: colonized (v :: ws)) =
              ':' :: ':' :: bytes (colonized (v :: ws)) := by
            rw [bytes_cons, bytes_cons, byteChars_of_lt (by decide)]
            rfl
          rw [colonized, bytes_append, hcolons, ih]
          rfl

/-- What is recorded of the namings, one after the other. -/
theorem headerNames_named (first : Naming) (more : List Naming) :
    headerNames (bytes (named first more).bare) = (first :: more).flatMap Naming.recorded := by
  have hparts : ∀ w ∈ (first :: more).map fun n => bytes n.bare,
      ∃ x y, w = x ++ y ∧ y ≠ [] ∧ ':' ∉ y := by
    intro w hw
    obtain ⟨n, -, rfl⟩ := List.mem_map.1 hw
    refine ⟨n.lead, n.tail, n.bytes_bare, ?_, n.colon_not_mem_tail⟩
    exact List.append_ne_nil_of_left_ne_nil (n.placed .start).bytes_ne.1 _
  rw [bare, bytes_colonized, List.map_map, headerNames_eq]
  show (colonParts [] (colonized ((first :: more).map fun n => bytes n.bare))).filterMap
    partName? = _
  rw [colonParts_colonized (by simp) hparts, List.flatMap_map, List.filterMap_flatMap]
  rfl

/-- A header without a name gives none to its block exactly if nothing but blanks stands in it. -/
theorem headerNames_anonymous (marks : List Mark) :
    headerNames (bytes (anonymous marks).bare) = [] ↔ (anonymous marks).Kept := by
  show headerNames (bytes (marks.flatMap Mark.bare)) = [] ↔
    ∀ c ∈ marks.flatMap Mark.bare, Text.isBlank c = true
  rw [bytes_of_ascii (Mark.ascii_marks marks), headerNames_eq]
  constructor
  · intro hnone c hc
    by_contra hblank
    obtain ⟨x, hx, hmem⟩ := List.mem_flatMap.1 hc
    have hbracket : '[' ∈ marks.flatMap Mark.bare := by
      cases x with
      | spacer s => exact absurd (Spacer.blank_of_mem hmem).1 hblank
      | bracketed a => exact List.mem_flatMap.2 ⟨_, hx, List.mem_cons_self⟩
    exact (Mark.bracketed_marks marks).filterMap_ne_nil hbracket hnone
  · intro hblank
    have hcolon : ':' ∉ marks.flatMap Mark.bare := fun hmem => absurd (hblank _ hmem) (by decide)
    have hnone : partName? (marks.flatMap Mark.bare) = none := by
      rw [partName?, Text.words_blanks hblank]
      rfl
    rw [colonParts_of_not_mem hcolon, List.reverse_nil, List.nil_append,
      List.filterMap_cons_none hnone]
    rfl

theorem mem_colonized {ws : List (List Char)} {w : List Char} {c : Char} (hw : w ∈ ws)
    (hc : c ∈ w) : c ∈ colonized ws := by
  induction ws with
  | nil => cases hw
  | cons v ws ih =>
      cases ws with
      | nil =>
          obtain rfl := List.mem_singleton.1 hw
          exact hc
      | cons u ws =>
          rcases List.mem_cons.1 hw with rfl | hw
          · exact List.mem_append_left _ hc
          · exact List.mem_append_right _ (List.mem_cons_of_mem _ (List.mem_cons_of_mem _ (ih hw)))

theorem exists_of_mem_colonized {ws : List (List Char)} {c : Char} (hc : c ∈ colonized ws) :
    c = ':' ∨ ∃ w ∈ ws, c ∈ w := by
  induction ws with
  | nil => cases hc
  | cons v ws ih =>
      cases ws with
      | nil => exact .inr ⟨v, List.mem_cons_self, hc⟩
      | cons u ws =>
          rw [colonized, List.mem_append, List.mem_cons, List.mem_cons] at hc
          rcases hc with hc | hc | hc | hc
          · exact .inr ⟨v, List.mem_cons_self, hc⟩
          · exact .inl hc
          · exact .inl hc
          · obtain hcolon | ⟨w, hw, hmem⟩ := ih hc
            · exact .inl hcolon
            · exact .inr ⟨w, List.mem_cons_of_mem _ hw, hmem⟩

/-- What is of a class that ends no header. -/
theorem endsHeader_of_class {p : Char → Bool} {c : Char} (hc : p c = true)
    (hp : p '\x7b' = false ∧ p ';' = false ∧ p '=' = false) : endsHeader c = false := by
  have hne : ∀ d, p d = false → c ≠ d := fun d hd heq => by
    rw [← heq, hc] at hd
    cases hd
  simp [endsHeader, hne _ hp.1, hne _ hp.2.1, hne _ hp.2.2]

/-- Nothing ends a header that is kept but the brace behind it. -/
theorem Kept.unended {h : WrittenHeader} (hkept : h.Kept) : ∀ c ∈ h.bare, endsHeader c = false := by
  intro c hc
  cases h with
  | anonymous marks => exact endsHeader_of_class (hkept c hc) (by decide)
  | named first more =>
      rcases exists_of_mem_colonized hc with rfl | ⟨w, hw, hmem⟩
      · decide
      obtain ⟨n, hn, rfl⟩ := List.mem_map.1 hw
      rcases List.mem_append.1 hmem with hmem | hmem
      · rcases List.mem_append.1 hmem with hmem | hmem
        · exact (hkept n hn).unended c hmem
        · exact endsHeader_of_class (n.chars c hmem) (by decide)
      · exact endsHeader_of_class (Spacer.blank_of_mem_flatMap hmem).1 (by decide)

theorem headerNames_eq_iff (h : WrittenHeader) (hends : ∀ c ∈ h.bare, endsHeader c = false) :
    headerNames (bytes h.bare) = h.names ↔ h.Kept := by
  cases h with
  | anonymous marks => exact headerNames_anonymous marks
  | named first more =>
      have hunended : ∀ n ∈ first :: more, ∀ c ∈ n.lead, endsHeader c = false := by
        intro n hn c hc
        refine hends c (mem_colonized (List.mem_map_of_mem hn) ?_)
        exact List.mem_append_left _ (List.mem_append_left _ hc)
      rw [headerNames_named, names, flatMap_eq_map_iff fun n _ => n.recorded_ne_nil]
      refine forall₂_congr fun n hn => ?_
      rw [n.recorded_eq_iff]
      exact ⟨fun ⟨hascii, hapart, hone⟩ => ⟨hascii, hapart, hone, hunended n hn⟩,
        fun h => ⟨h.ascii, h.apart, h.undivided⟩⟩

/-- **A header is read as it is written exactly if it is kept.** -/
theorem read_eq_iff (h : WrittenHeader) (rest : List Char) :
    Header.read [] (h.text ++ '\x7b' :: rest) = .block h.names (h.text ++ ['\x7b']) rest ↔
      h.Kept := by
  by_cases hends : ∀ c ∈ h.bare, endsHeader c = false
  · rw [(Passes.header h).reads hends, List.append_nil,
      Header.read_cons (comment?_eq_none (by simp)), if_pos rfl, List.reverse_reverse, Header.cons,
      ← h.headerNames_eq_iff hends]
    simp
  · refine iff_of_false (fun hread => ?_) fun hkept => hends hkept.unended
    push Not at hends
    simp only [ne_eq, Bool.not_eq_false] at hends
    have hlength := (Passes.header h).ends hends _ _ _ _ _ hread
    rw [List.length_append, List.length_singleton] at hlength
    omega

end WrittenHeader

end EmbeddedBuffers.Source
