import EmbeddedBuffers.Proofs.Source.Words

/-!
# Directives on one line

A condition that stands on one line without comments is read as it is written, and the name in
front of it decides what becomes of the stack of groups. Main statements:
`Directive.Line.read_append`, and `Directive.apply_opening`, `Directive.apply_switch`,
`Directive.apply_else` and `Directive.apply_endif`.
-/

namespace EmbeddedBuffers

namespace Literal

/-- A literal that is not closed ends with its line, unless a backslash takes the line feed
along. -/
theorem plainBody_line {q : Char} {v : List Char} (hfeed : '\n' ∉ v)
    (hlast : v.getLast? ≠ some '\\') (rest : List Char) :
    ∃ a b, v = a ++ b ∧ plainBody q (v ++ '\n' :: rest) = (a, b ++ '\n' :: rest) := by
  fun_induction plainBody q v with
  | case1 =>
      refine ⟨[], [], rfl, ?_⟩
      rw [List.nil_append, plainBody.eq_4 _ _ _ (by simp) (by simp), if_pos rfl]
  | case2 => exact absurd rfl hlast
  | case3 c v _ _ _ ih =>
      simp only [List.mem_cons, not_or] at hfeed
      have hlastv : v.getLast? ≠ some '\\' := by
        intro h
        rw [List.getLast?_cons_cons, List.getLast?_cons, h] at hlast
        exact hlast rfl
      obtain ⟨a, b, rfl, hbody⟩ := ih hfeed.2.2 hlastv
      refine ⟨'\\' :: c :: a, b, rfl, ?_⟩
      rw [List.cons_append, List.cons_append, plainBody, hbody]
  | case4 => simp at hfeed
  | case5 v h₁ h₂ hc =>
      refine ⟨[q], v, rfl, ?_⟩
      have hslash : q ≠ '\\' := by
        rintro rfl
        cases v with
        | nil => exact h₁ rfl rfl
        | cons d v => exact h₂ d v rfl rfl
      rw [List.cons_append, plainBody.eq_4 _ _ _ (fun h _ => hslash h) (fun _ _ h _ => hslash h),
        if_neg hc, if_pos rfl]
  | case6 c v h₁ h₂ hc hq _ _ _ ih =>
      have hslash : c ≠ '\\' := by
        rintro rfl
        cases v with
        | nil => exact h₁ rfl rfl
        | cons d v => exact h₂ d v rfl rfl
      have hlastv : v.getLast? ≠ some '\\' := by
        intro h
        rw [List.getLast?_cons, h] at hlast
        exact hlast rfl
      obtain ⟨a, b, rfl, hbody⟩ := ih (fun h => hfeed (List.mem_cons_of_mem _ h)) hlastv
      refine ⟨c :: a, b, rfl, ?_⟩
      rw [List.cons_append, plainBody.eq_4 _ _ _ (fun h _ => hslash h) (fun _ _ h _ => hslash h),
        if_neg hc, if_neg hq, hbody]

end Literal

namespace Source

/-- A condition as it is written: on one line, without comments, and not continued. -/
structure ConditionText where
  text : List Char
  oneLine : '\n' ∉ text
  noComment : opensComment text = false
  uncontinued : text.getLast? ≠ some '\\' ∧ text.getLast? ≠ some '\r'

theorem opensComment_append {a b : List Char} (h : opensComment (a ++ b) = false) :
    opensComment b = false := by
  induction a with
  | nil => exact h
  | cons c a ih => exact ih (opensComment_cons h).1

end Source

namespace Directive

theorem Line.read_literal {q : Char} {s literal after : List Char} (hq : q = '"' ∨ q = '\'')
    (h : Literal.split? (q :: s) = some (literal, after)) :
    Line.read (q :: s) = (Line.read after).cons literal literal := by
  have hplain : q ≠ '\n' ∧ q ≠ '\\' ∧ q ≠ '/' := by rcases hq with rfl | rfl <;> decide
  rw [Line.read.eq_7 _ _ hplain.1 (fun _ h _ => hplain.2.1 h) (fun _ h _ => hplain.2.1 h)
    (fun _ h _ => hplain.2.2 h) (fun _ h _ => hplain.2.2 h)]
  split
  · next heq =>
    rw [if_pos hq, h] at heq
    cases heq
    rfl
  · next heq =>
    rw [if_pos hq, h] at heq
    cases heq

/-- A character of a line that starts nothing. -/
theorem Line.read_plain {c : Char} {s : List Char} (hfeed : c ≠ '\n')
    (hquote : ¬ (c = '"' ∨ c = '\''))
    (hbreak : ∀ r, c = '\\' → s = '\n' :: r → False)
    (hreturn : ∀ r, c = '\\' → s = '\x0d' :: '\n' :: r → False)
    (hline : ∀ r, c = '/' → s = '/' :: r → False) (hblock : ∀ r, c = '/' → s = '*' :: r → False) :
    Line.read (c :: s) = (Line.read s).cons [c] [c] := by
  rw [Line.read.eq_7 _ _ hfeed hbreak hreturn hline hblock]
  split
  · next heq =>
    rw [if_neg hquote] at heq
    cases heq
  · rfl

/-- **A line without comments is read as it is written.** -/
theorem Line.read_append {v : List Char} (hfeed : '\n' ∉ v)
    (hcomment : Source.opensComment v = false)
    (hlast : v.getLast? ≠ some '\\' ∧ v.getLast? ≠ some '\r') (rest : List Char) :
    Line.read (v ++ '\n' :: rest) = ⟨v, v, '\n' :: rest⟩ := by
  match v with
  | [] => rw [List.nil_append, Line.read]
  | c :: v =>
    have hlastv : ∀ b, b <:+ v → b.getLast? ≠ some '\\' ∧ b.getLast? ≠ some '\r' := by
      rintro b ⟨a, rfl⟩
      cases hb : b.getLast? with
      | none => simp
      | some d =>
          rw [← List.cons_append, List.getLast?_append, hb] at hlast
          exact hlast
    obtain ⟨hcommentv, hslash⟩ := Source.opensComment_cons hcomment
    simp only [List.mem_cons, not_or] at hfeed
    by_cases hq : c = '"' ∨ c = '\''
    · -- What follows a literal on the line is shorter.
      obtain ⟨a, b, hv, hbody⟩ := Literal.plainBody_line (q := c) hfeed.2
        (hlastv v (List.suffix_refl v)).1 rest
      have hlength : b.length ≤ v.length := by simp [hv]
      have hb := Line.read_append (v := b)
        (fun h => hfeed.2 (hv ▸ List.mem_append_right _ h))
        (Source.opensComment_append (hv ▸ hcommentv)) (hlastv b ⟨a, hv.symm⟩) rest
      have hsplit := Literal.split?_quote hq (v ++ '\n' :: rest)
      rw [hbody] at hsplit
      rw [List.cons_append, Line.read_literal hq hsplit, hb, hv]
      rfl
    · have hv := Line.read_append hfeed.2 hcommentv (hlastv v (List.suffix_refl v)) rest
      have hbreak : ∀ r, c = '\\' → v ++ '\n' :: rest = '\n' :: r → False := by
        rintro r rfl heq
        cases v with
        | nil => exact hlast.1 rfl
        | cons d v => exact hfeed.2 (by simp [(List.cons.inj heq).1])
      have hreturn : ∀ r, c = '\\' → v ++ '\n' :: rest = '\r' :: '\n' :: r → False := by
        rintro r rfl heq
        cases v with
        | nil => exact hlast.1 rfl
        | cons d v =>
            obtain ⟨rfl, htail⟩ := List.cons.inj heq
            cases v with
            | nil => exact hlast.2 rfl
            | cons e v => exact hfeed.2 (by simp [(List.cons.inj htail).1])
      have hcomment : ∀ d r, c = '/' → v ++ '\n' :: rest = d :: r → d ≠ '/' ∧ d ≠ '*' := by
        intro d r hc heq
        cases v with
        | nil =>
            rw [← (List.cons.inj heq).1]
            decide
        | cons e v => exact (List.cons.inj heq).1 ▸ hslash hc e rfl
      rw [List.cons_append, Line.read_plain (fun h => hfeed.1 h.symm) hq hbreak hreturn
        (fun r hc heq => (hcomment _ r hc heq).1 rfl)
        (fun r hc heq => (hcomment _ r hc heq).2 rfl), hv]
      rfl
termination_by v.length
decreasing_by
  · exact Nat.lt_succ_of_le hlength
  · exact Nat.lt_succ_self _

/-! ## What a directive does -/

/-- The name of a directive ends where a space follows it. -/
theorem nameAndRest_append {name : List Char} (hne : name ≠ [])
    (hname : ∀ c ∈ name, Text.isNameChar c = true) (hblank : ∀ c ∈ name, Text.isBlank c = false)
    (w : List Char) : nameAndRest (name ++ ' ' :: w) = (name, Text.trim w) := by
  obtain ⟨before, after, hw, hbefore, hafter⟩ := Text.exists_trim w
  have htrimmed := Text.trimmed_trim w
  generalize Text.trim w = core at hw htrimmed
  subst hw
  have hnamed := Text.trimmed_of_all hblank
  have hgap : ∀ c ∈ ' ' :: before, Text.isBlank c = true :=
    List.forall_mem_cons.2 ⟨by decide, hbefore⟩
  rw [nameAndRest]
  by_cases hcore : core = []
  · subst hcore
    have htext : Text.trim (name ++ ' ' :: (before ++ [] ++ after)) = name := by
      have := Text.trim_append hnamed (List.forall_mem_nil _)
        (List.forall_mem_append.2 ⟨hgap, hafter⟩)
      simpa using this
    show (Text.trim _ |>.takeWhile _, Text.trim (Text.trim _ |>.dropWhile _)) = _
    rw [htext, List.takeWhile_eq_self_iff.2 hname, List.dropWhile_eq_nil_iff.2 hname]
    rfl
  · have htext : Text.trim (name ++ ' ' :: (before ++ core ++ after)) =
        name ++ (' ' :: before ++ core) := by
      have := Text.trim_append (Text.trimmed_append hnamed htrimmed hne hcore (' ' :: before))
        (List.forall_mem_nil _) hafter
      simpa using this
    have hrest : Text.trim (' ' :: before ++ core) = core := by
      have := Text.trim_append htrimmed hgap (List.forall_mem_nil _)
      simpa using this
    show (Text.trim _ |>.takeWhile _, Text.trim (Text.trim _ |>.dropWhile _)) = _
    rw [htext, List.takeWhile_append_of_pos hname, List.dropWhile_append_of_pos hname,
      List.cons_append, List.takeWhile_cons_of_neg (by decide), List.append_nil,
      List.dropWhile_cons_of_neg (by decide), ← List.cons_append, hrest]

/-- The test of an opening directive. -/
def Opening.test : Opening → Test
  | .ifExpr => .expression
  | .ifDefined => .definedness false
  | .ifNotDefined => .definedness true

/-- The name of a directive that opens another branch with a test. -/
def Test.switchName : Test → String
  | .expression => "elif"
  | .definedness false => "elifdef"
  | .definedness true => "elifndef"

/-- The answer to a test, which is not looked for unless it is asked. -/
def Test.answer (m : Macros) (origin : Origin) (name : String) (w : List Char) (asked : Bool)
    (t : Test) : Except Problem Bool :=
  if asked then t.holds m origin name (Text.trim w) else .ok false

variable (m : Macros) (path : String) (line : Nat) (w : List Char)

theorem apply_opening (opening : Opening) (groups : List Group) :
    apply m path line (opening.render.toList ++ ' ' :: w) groups =
      (opening.test.answer m (.atLine path line) opening.render w (isLive groups)).map
        fun holds => ⟨holds, isLive groups, holds, false, line, opening⟩ :: groups := by
  have hname : nameAndRest (opening.render.toList ++ ' ' :: w) =
      (opening.render.toList, Text.trim w) := by
    cases opening <;> exact nameAndRest_append (by decide) (by decide) (by decide) w
  have haction : Action.ofName? opening.render = some (.enter opening opening.test) := by
    cases opening <;> rfl
  unfold apply
  rw [hname]
  dsimp only
  rw [String.ofList_toList, haction]
  dsimp only
  unfold Test.answer
  cases isLive groups with
  | false => rfl
  | true =>
      rw [if_pos rfl, if_pos rfl]
      cases opening.test.holds m (.atLine path line) opening.render (Text.trim w) <;> rfl

theorem apply_switch (test : Test) {g : Group} (hg : g.seenElse = false) (groups : List Group) :
    apply m path line (test.switchName.toList ++ ' ' :: w) (g :: groups) =
      (test.answer m (.atLine path line) test.switchName w (g.parentLive && !g.taken)).map
        fun holds => { g with live := holds, taken := g.taken || holds } :: groups := by
  have hname : nameAndRest (test.switchName.toList ++ ' ' :: w) =
      (test.switchName.toList, Text.trim w) := by
    rcases test with _ | (_ | _) <;> exact nameAndRest_append (by decide) (by decide) (by decide) w
  have haction : Action.ofName? test.switchName = some (.switch test) := by
    rcases test with _ | (_ | _) <;> rfl
  unfold apply
  rw [hname]
  dsimp only
  rw [String.ofList_toList, haction]
  have hopen : openGroup (.atLine path line) test.switchName (g :: groups) = .ok (g, groups) :=
    if_neg (by simp [hg])
  dsimp only
  rw [hopen]
  unfold Test.answer
  show (if (g.parentLive && !g.taken) = true then _ else _) = _
  cases g.parentLive && !g.taken with
  | false => rfl
  | true =>
      rw [if_pos rfl, if_pos rfl]
      cases test.holds m (.atLine path line) test.switchName (Text.trim w) <;> rfl

theorem apply_else {g : Group} (hg : g.seenElse = false) (groups : List Group) :
    apply m path line "else".toList (g :: groups) =
      .ok ({ g with live := g.parentLive && !g.taken, taken := true, seenElse := true } ::
        groups) := by
  have hname : nameAndRest "else".toList = ("else".toList, []) := by decide
  unfold apply
  rw [hname]
  dsimp only
  rw [String.ofList_toList]
  show (openGroup _ _ (g :: groups) >>= _) = _
  rw [openGroup, hg]
  rfl

theorem apply_endif (g : Group) (groups : List Group) :
    apply m path line "endif".toList (g :: groups) = .ok groups := by
  have hname : nameAndRest "endif".toList = ("endif".toList, []) := by decide
  unfold apply
  rw [hname]
  dsimp only
  rw [String.ofList_toList]
  rfl

end Directive

end EmbeddedBuffers
