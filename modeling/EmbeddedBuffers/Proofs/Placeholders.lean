import EmbeddedBuffers.Macros
import EmbeddedBuffers.Proofs.Results
import EmbeddedBuffers.Proofs.Source.Locality
import Mathlib.Data.List.Infix

/-!
# Placeholders in a text

A text with placeholders is a template: pieces that hold no mark of a placeholder, and between them
the names whose values are put in. There is only one way to see a text as such a template, and a
text has a value exactly if all its names are defined. Main statement: `substitute_single_pass`.
-/

namespace EmbeddedBuffers.Macros

/-- What opens a placeholder. -/
def mark : List Char := ['$', '\x7b']

/-- A text as pieces and placeholders: what stands in front of the first placeholder, and for every
placeholder its name and what stands between it and the next one. -/
structure Template where
  front : List Char
  holes : List (List Char × List Char)

namespace Template

/-- A placeholder as it is written, and what stands behind it. -/
def holeText (hole : List Char × List Char) : List Char :=
  mark ++ hole.1 ++ ['\x7d'] ++ hole.2

def text (t : Template) : List Char := t.front ++ t.holes.flatMap holeText

/-- No piece between placeholders holds the mark of another one, and every name ends at the first
closing brace behind its mark. -/
structure Plain (t : Template) : Prop where
  front : ¬mark <:+: t.front
  between : ∀ hole ∈ t.holes, ¬mark <:+: hole.2
  closes : ∀ hole ∈ t.holes, '\x7d' ∉ hole.1

instance (t : Template) : Decidable t.Plain :=
  decidable_of_iff (¬mark <:+: t.front ∧ (∀ hole ∈ t.holes, ¬mark <:+: hole.2) ∧
      ∀ hole ∈ t.holes, '\x7d' ∉ hole.1)
    ⟨fun ⟨front, between, closes⟩ => ⟨front, between, closes⟩,
      fun h => ⟨h.front, h.between, h.closes⟩⟩

/-- The template with the values of its names; a macro without a value counts as `1`. -/
def filled (m : Macros) (t : Template) : List Char :=
  t.front ++ t.holes.flatMap fun hole =>
    ((m.get? (String.ofList hole.1)).map (·.text.toList)).getD [] ++ hole.2

/-- The names of all placeholders are defined. -/
def Defined (m : Macros) (t : Template) : Prop :=
  ∀ hole ∈ t.holes, m.isDefined (String.ofList hole.1) = true

instance (m : Macros) (t : Template) : Decidable (t.Defined m) :=
  inferInstanceAs (Decidable (∀ hole ∈ t.holes, m.isDefined (String.ofList hole.1) = true))

end Template

/-! ## Marks -/

variable {m : Macros} {whole whole' : String} {a b s x : List Char}

theorem not_mark_infix_nil : ¬mark <:+: [] := by decide

theorem not_mark_infix_cons {c : Char} (hs : ¬mark <:+: s)
    (hc : ¬(c = '$' ∧ s.head? = some '\x7b')) : ¬mark <:+: c :: s := by
  rw [List.infix_cons_iff, not_or]
  refine ⟨?_, hs⟩
  rintro ⟨rest, hrest⟩
  cases hrest
  exact hc ⟨rfl, rfl⟩

theorem not_mark_infix_of_cons {c : Char} (h : ¬mark <:+: c :: s) : ¬mark <:+: s :=
  fun hs => h (List.infix_cons hs)

/-- A piece without a mark is all that stands in front of the first mark. -/
theorem splitAtText_mark (hs : ¬mark <:+: s) (rest : List Char) :
    Text.splitAtText mark (s ++ (mark ++ rest)) = some (s, rest) := by
  induction s with
  | nil =>
      have hstrip : Text.strip? mark ('$' :: '\x7b' :: rest) = some rest :=
        Text.strip?_append mark rest
      show Text.splitAtText mark ('$' :: '\x7b' :: rest) = _
      rw [Text.splitAtText, hstrip]
  | cons c s ih =>
      have hstrip : Text.strip? mark (c :: (s ++ (mark ++ rest))) = none := by
        cases hstrip : Text.strip? mark (c :: (s ++ (mark ++ rest))) with
        | none => rfl
        | some after =>
            have heq := Text.strip?_eq_some hstrip
            cases s with
            | nil => cases heq
            | cons d s =>
                cases heq
                exact absurd ⟨[], s, rfl⟩ hs
      rw [List.cons_append, Text.splitAtText, hstrip, ih (not_mark_infix_of_cons hs)]
      rfl

theorem splitAtText_eq_none (hs : ¬mark <:+: s) : Text.splitAtText mark s = none := by
  cases h : Text.splitAtText mark s with
  | none => rfl
  | some p => exact absurd ⟨p.1, p.2, Text.splitAtText_eq h⟩ hs

/-! ## One way to see a text as a template -/

namespace Template

variable {t t' : Template}

theorem text_cons (front : List Char) (hole : List Char × List Char)
    (holes : List (List Char × List Char)) :
    text ⟨front, hole :: holes⟩ =
      front ++ (mark ++ (hole.1 ++ '\x7d' :: text ⟨hole.2, holes⟩)) := by
  simp [text, holeText]

theorem text_nil (front : List Char) : text ⟨front, []⟩ = front := List.append_nil front

theorem Plain.tail {front : List Char} {hole : List Char × List Char}
    {holes : List (List Char × List Char)} (h : Plain ⟨front, hole :: holes⟩) :
    Plain ⟨hole.2, holes⟩ where
  front := h.between hole List.mem_cons_self
  between := fun other hother => h.between other (List.mem_cons_of_mem _ hother)
  closes := fun other hother => h.closes other (List.mem_cons_of_mem _ hother)

/-- Two templates of one text are the same: the first mark ends the front, the first closing brace
behind it the name, and what is left is a template with one placeholder less. -/
theorem Plain.eq_of_text (ht : t.Plain) (ht' : t'.Plain) (h : t.text = t'.text) : t = t' := by
  obtain ⟨front, holes⟩ := t
  -- on the placeholders of the one template; a text without a mark has none in either
  induction holes generalizing front t' with
  | nil =>
      obtain ⟨front', _ | ⟨hole', holes'⟩⟩ := t'
      · rw [text_nil, text_nil] at h
        rw [h]
      · rw [text_nil, text_cons] at h
        have hnone := splitAtText_eq_none ht.front
        rw [h, splitAtText_mark ht'.front] at hnone
        cases hnone
  | cons hole holes ih =>
      obtain ⟨front', _ | ⟨hole', holes'⟩⟩ := t'
      · rw [text_nil, text_cons] at h
        have hnone := splitAtText_eq_none ht'.front
        rw [← h, splitAtText_mark ht.front] at hnone
        cases hnone
      · rw [text_cons, text_cons] at h
        have hfront := splitAtText_mark ht.front (hole.1 ++ '\x7d' :: text ⟨hole.2, holes⟩)
        rw [h, splitAtText_mark ht'.front] at hfront
        injection hfront with hfront
        injection hfront with hfront hrest
        have hname := Text.splitOnce_append (ht.closes hole List.mem_cons_self)
          (text ⟨hole.2, holes⟩)
        rw [← hrest, Text.splitOnce_append (ht'.closes hole' List.mem_cons_self)] at hname
        injection hname with hname
        injection hname with hname hbehind
        have htail := ih ht'.tail hole.2 ht.tail hbehind.symm
        obtain ⟨name, between⟩ := hole
        obtain ⟨name', between'⟩ := hole'
        injection htail with hbetween hholes
        simp_all

end Template

/-! ## One step of the substitution -/

theorem expand_nil : m.expand whole [] = .ok [] := by rw [expand]

theorem expand_cons {c : Char} (hc : ¬(c = '$' ∧ s.head? = some '\x7b')) :
    m.expand whole (c :: s) = (m.expand whole s).map (c :: ·) := by
  rw [expand]
  rintro rest rfl rfl
  exact hc ⟨rfl, rfl⟩

theorem expand_mark {name after : List Char} {v : MacroValue} (hname : '\x7d' ∉ name)
    (hv : m.get? (String.ofList name) = some v) :
    m.expand whole (mark ++ (name ++ '\x7d' :: after)) =
      (m.expand whole after).map (v.text.toList ++ ·) := by
  have hsplit := Text.splitOnce_append hname after
  show m.expand whole ('$' :: '\x7b' :: (name ++ '\x7d' :: after)) = _
  rw [expand]
  split
  · next hnone => rw [hsplit] at hnone; cases hnone
  · next name' after' hsome =>
      rw [hsplit] at hsome
      cases hsome
      rw [hv]

/-- A text with a value in front of another one is done when the other one starts, unless the two
together hold a mark that neither holds alone. -/
theorem expand_append (ha : m.expand whole a = .ok x)
    (hab : ¬(a.getLast? = some '$' ∧ b.head? = some '\x7b')) :
    m.expand whole' (a ++ b) = (m.expand whole' b).map (x ++ ·) := by
  fun_induction expand m whole a generalizing x with
  | case1 =>
      cases ha
      exact (congrFun Except.map_id (m.expand whole' b)).symm
  | case2 rest hsplit => cases ha
  | case3 rest name after hsplit hget => cases ha
  | case4 rest name after hsplit v hget ih =>
      -- the brace that ends the name stands in the first text already
      obtain ⟨y, hy, rfl⟩ := map_eq_ok.1 ha
      have heq := Text.splitOnce_eq hsplit
      have hlast : ¬(after.getLast? = some '$' ∧ b.head? = some '\x7b') := by
        rintro ⟨hafter, hb⟩
        refine hab ⟨?_, hb⟩
        simp [← heq, List.getLast?_cons, List.getLast?_append, hafter]
      have hrest : '$' :: '\x7b' :: rest ++ b = mark ++ (name ++ '\x7d' :: (after ++ b)) := by
        simp [mark, ← heq]
      rw [hrest, expand_mark (Text.notMem_of_splitOnce hsplit) hget, ih hy hlast, map_map]
      simp only [List.append_assoc]
  | case5 c rest hc ih =>
      obtain ⟨y, hy, rfl⟩ := map_eq_ok.1 ha
      have hlast : ¬(rest.getLast? = some '$' ∧ b.head? = some '\x7b') := by
        rintro ⟨hrest, hb⟩
        refine hab ⟨?_, hb⟩
        rw [List.getLast?_cons, hrest]
        rfl
      -- a mark that starts here would lie in the first text, or where the two meet
      have hc' : ¬(c = '$' ∧ (rest ++ b).head? = some '\x7b') := by
        rintro ⟨rfl, hhead⟩
        cases rest with
        | nil => exact hab ⟨rfl, hhead⟩
        | cons d rest =>
            cases hhead
            exact hc rest rfl rfl
      rw [List.cons_append, expand_cons hc', ih hy hlast, map_map]
      rfl

/-- Where no placeholder starts, nothing is replaced. -/
theorem expand_plain (hs : ¬mark <:+: s) : m.expand whole s = .ok s := by
  induction s with
  | nil => exact expand_nil
  | cons c s ih =>
      have hc : ¬(c = '$' ∧ s.head? = some '\x7b') := by
        rintro ⟨rfl, hhead⟩
        cases s with
        | nil => cases hhead
        | cons d s =>
            cases hhead
            exact hs ⟨[], s, rfl⟩
      rw [expand_cons hc, ih (not_mark_infix_of_cons hs)]
      rfl

/-! ## The value of a template -/

namespace Template

variable {t t' : Template}

theorem filled_cons (m : Macros) (front : List Char) (hole : List Char × List Char)
    (holes : List (List Char × List Char)) :
    filled m ⟨front, hole :: holes⟩ =
      front ++ (((m.get? (String.ofList hole.1)).map (·.text.toList)).getD [] ++
        filled m ⟨hole.2, holes⟩) := by
  simp [filled]

/-- A template whose names are all defined is filled in. -/
theorem Plain.expand_text (ht : t.Plain) (hm : t.Defined m) :
    m.expand whole t.text = .ok (t.filled m) := by
  obtain ⟨front, holes⟩ := t
  induction holes generalizing front with
  | nil =>
      rw [text_nil, filled, List.flatMap_nil, List.append_nil]
      exact expand_plain ht.front
  | cons hole holes ih =>
      obtain ⟨v, hv⟩ := Option.isSome_iff_exists.1 (hm hole List.mem_cons_self)
      have htail := ih hole.2 ht.tail fun other hother => hm other (List.mem_cons_of_mem _ hother)
      have hfront : m.expand whole front = .ok front := expand_plain ht.front
      rw [text_cons, filled_cons, expand_append hfront (by simp [mark]),
        expand_mark (ht.closes hole List.mem_cons_self) hv, htail, hv]
      rfl

/-- A text that has a value is a template whose names are all defined. -/
theorem exists_of_expand {out : List Char} (h : m.expand whole s = .ok out) :
    ∃ t : Template, t.Plain ∧ t.text = s ∧ t.Defined m ∧ t.filled m = out := by
  fun_induction expand m whole s generalizing out with
  | case1 =>
      cases h
      exact ⟨⟨[], []⟩, ⟨not_mark_infix_nil, by simp, by simp⟩, rfl, by simp [Defined], rfl⟩
  | case2 rest hsplit => cases h
  | case3 rest name after hsplit hget => cases h
  | case4 rest name after hsplit v hget ih =>
      obtain ⟨y, hy, rfl⟩ := map_eq_ok.1 h
      obtain ⟨⟨front, holes⟩, ht, htext, hdefined, hfilled⟩ := ih hy
      refine ⟨⟨[], (name, front) :: holes⟩, ⟨not_mark_infix_nil, ?_, ?_⟩, ?_, ?_, ?_⟩
      · rintro hole (_ | ⟨_, hhole⟩)
        exacts [ht.front, ht.between hole hhole]
      · rintro hole (_ | ⟨_, hhole⟩)
        exacts [Text.notMem_of_splitOnce hsplit, ht.closes hole hhole]
      · rw [text_cons, htext, Text.splitOnce_eq hsplit]
        rfl
      · rintro hole (_ | ⟨_, hhole⟩)
        exacts [Option.isSome_iff_exists.2 ⟨v, hget⟩, hdefined hole hhole]
      · rw [filled_cons, hfilled, hget]
        rfl
  | case5 c rest hc ih =>
      obtain ⟨y, hy, rfl⟩ := map_eq_ok.1 h
      obtain ⟨⟨front, holes⟩, ht, rfl, hdefined, rfl⟩ := ih hy
      refine ⟨⟨c :: front, holes⟩, ⟨not_mark_infix_cons ht.front ?_, ht.between, ht.closes⟩, rfl,
        hdefined, rfl⟩
      rintro ⟨rfl, hhead⟩
      cases front with
      | nil => cases hhead
      | cons d front =>
          cases hhead
          exact hc _ rfl rfl

end Template

theorem substitute_eq_ok {text out : String} :
    m.substitute text = .ok out ↔ m.expand text text.toList = .ok out.toList := by
  unfold substitute
  split
  · next s hs =>
      rw [hs, Except.ok.injEq, Except.ok.injEq, ← String.toList_inj, String.toList_ofList]
  · next fault hfault =>
      rw [hfault]
      exact iff_of_false (fun h => by cases h) (fun h => by cases h)

/-- Substitution is one pass from left to right. A text has a value exactly if it is a template with
defined names, and the value is the template with the names' values in their places, unchanged
whatever they hold; no text is two templates. A text without a mark is its own value, and the value
of two texts in a row is that of the one and then that of the other, unless the first one ends
where a mark could begin. -/
theorem substitute_single_pass (m : Macros) :
    (∀ text out : String, m.substitute text = .ok out ↔
      ∃ t : Template, t.Plain ∧ t.text = text.toList ∧ t.Defined m ∧ t.filled m = out.toList) ∧
    (∀ t t' : Template, t.Plain → t'.Plain → t.text = t'.text → t = t') ∧
    (∀ text : String, ¬mark <:+: text.toList → m.substitute text = .ok text) ∧
    ∀ a b x y : String, a.toList.getLast? ≠ some '$' → m.substitute a = .ok x →
      m.substitute b = .ok y → m.substitute (a ++ b) = .ok (x ++ y) := by
  refine ⟨fun text out => ?_, fun t t' => Template.Plain.eq_of_text, fun text htext => ?_,
    fun a b x y hlast ha hb => ?_⟩
  · rw [substitute_eq_ok]
    refine ⟨Template.exists_of_expand, ?_⟩
    rintro ⟨t, ht, htext, hdefined, hfilled⟩
    rw [← htext, ht.expand_text hdefined, hfilled]
  · exact substitute_eq_ok.2 (expand_plain htext)
  · rw [substitute_eq_ok] at ha hb ⊢
    -- the text that an unclosed placeholder is reported in does not matter to a value
    have hb' : m.expand (a ++ b) (b.toList ++ []) = .ok y.toList := by
      rw [expand_append hb (by simp), expand_nil, Except.map, List.append_nil]
    rw [List.append_nil] at hb'
    rw [String.toList_append, expand_append ha fun h => hlast h.1, hb', String.toList_append]
    rfl

/-- A name whose value holds a mark, and a name without a value. -/
def marked : Macros := ⟨[("A", .value "$\x7bB\x7d"), ("B", .defined)]⟩

/-- A dollar sign in front of a mark, and a value with a mark: the value is not searched. -/
theorem substitute_single_pass_marked :
    marked.substitute "x$\x7bA\x7d$$\x7bB\x7d\x7d" = .ok "x$\x7bB\x7d$1\x7d" ∧
    (∃! t : Template, t.Plain ∧ t.text = "x$\x7bA\x7d$$\x7bB\x7d\x7d".toList) ∧
    marked.substitute "5$ \x7bA\x7d" = .ok "5$ \x7bA\x7d" ∧
    marked.substitute ("x$\x7bA\x7d" ++ "$$\x7bB\x7d\x7d") = .ok ("x$\x7bB\x7d" ++ "$1\x7d") := by
  obtain ⟨hvalue, hunique, hplain, happend⟩ := substitute_single_pass marked
  have hwhole : marked.substitute "x$\x7bA\x7d$$\x7bB\x7d\x7d" = .ok "x$\x7bB\x7d$1\x7d" :=
    (hvalue _ _).2 ⟨⟨['x'], [(['A'], ['$']), (['B'], ['\x7d'])]⟩, by decide⟩
  have hfirst : marked.substitute "x$\x7bA\x7d" = .ok "x$\x7bB\x7d" :=
    (hvalue _ _).2 ⟨⟨['x'], [(['A'], [])]⟩, by decide⟩
  have hsecond : marked.substitute "$$\x7bB\x7d\x7d" = .ok "$1\x7d" :=
    (hvalue _ _).2 ⟨⟨['$'], [(['B'], ['\x7d'])]⟩, by decide⟩
  refine ⟨hwhole, ?_, hplain _ (by decide), happend _ _ _ _ (by decide) hfirst hsecond⟩
  refine ⟨⟨['x'], [(['A'], ['$']), (['B'], ['\x7d'])]⟩, by decide, ?_⟩
  rintro t ⟨ht, htext⟩
  exact hunique _ _ ht (by decide) htext

/-- Two texts that meet in a mark hold a placeholder that neither holds alone. -/
example : marked.substitute "$" = .ok "$" ∧ marked.substitute "\x7bB\x7d" = .ok "\x7bB\x7d" ∧
    marked.substitute "$\x7bB\x7d" = .ok "1" := by
  decide +kernel

end EmbeddedBuffers.Macros
