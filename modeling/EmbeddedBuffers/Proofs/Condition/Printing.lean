import EmbeddedBuffers.Proofs.Condition.Acceptance

/-!
# Printing conditions

A condition written out with parentheses around every operand that has parts of its own. Reading
gives the condition back, if its macros have the names that macros can have, as those of every
condition that was read have. Main statement: `parse_grammar`.
-/

namespace EmbeddedBuffers.Condition

variable {s t : List Char} {c : Condition} {f : Formula} {nt : Nonterminal} {ls ms : List Lexeme}
  {l : Lexeme}

/-- Whether a condition is made of conditions. -/
def isCompound : Condition → Bool
  | .not _ | .compare _ _ _ | .and _ _ | .or _ _ => true
  | _ => false

/-- The text of an operand, which is that of the condition or that in parentheses. -/
def enclose (a : Condition) (text : String) : String :=
  if a.isCompound then "(" ++ text ++ ")" else text

/-- The text of a condition. -/
def print : Condition → String
  | .literal n => toString n.toInt
  | .reference name => name
  | .isDefined name => "defined(" ++ name ++ ")"
  | .not a => "!" ++ enclose a a.print
  | .compare op a b => enclose a a.print ++ (" " ++ op.symbol ++ " ") ++ enclose b b.print
  | .and a b => enclose a a.print ++ " && " ++ enclose b b.print
  | .or a b => enclose a a.print ++ " || " ++ enclose b b.print

/-- Macros have names, and the name `defined` is the operator. -/
def Named : Condition → Prop
  | .literal _ => True
  | .reference name => Text.isName name.toList = true ∧ name ≠ "defined"
  | .isDefined name => Text.isName name.toList = true
  | .not a => a.Named
  | .compare _ a b | .and a b | .or a b => a.Named ∧ b.Named

/-! ## What is printed -/

/-- A text that a nonterminal derives, with the tree `c`. -/
def Shows (nt : Nonterminal) (s : List Char) (c : Condition) : Prop :=
  ∃ ls f, Splits s ls ∧ Derives nt ls f ∧ f.condition = c

theorem shows_literal (n : Int64) : Shows .primary (toString n.toInt).toList (.literal n) := by
  have hlow := n.le_toInt
  have hhigh := n.toInt_lt
  have hliteral (m : Nat) (hm : m < 2 ^ 64) : Splits (toString m).toList [.number m] :=
    Splits.single (Text.isLiteral_toString hm)
  cases hn : n.toInt with
  | ofNat m =>
      rw [hn, Int.ofNat_eq_natCast] at hhigh
      refine ⟨[.number m], _, hliteral m (by omega), .number m, ?_⟩
      show Condition.literal (Int64.ofInt (Int.ofNat m)) = .literal n
      rw [← hn, Int64.ofInt_toInt]
  | negSucc m =>
      -- the least word has the magnitude 2 ^ 63, which is read and negated as it is
      refine ⟨[.minus, .number (m + 1)], _, ?_, .negative (m + 1), ?_⟩
      · show Splits ("-" ++ toString (m + 1)).toList _
        rw [String.toList_append]
        exact Splits.cons (l := .minus) (s := ['-']) rfl trivial (hliteral (m + 1) (by omega))
      · show Condition.literal (Int64.ofInt (Int.negSucc m)) = .literal n
        rw [← hn, Int64.ofInt_toInt]

theorem shows_reference {name : String} (hname : Text.isName name.toList = true)
    (hother : name ≠ "defined") : Shows .primary name.toList (.reference name) :=
  ⟨[.word name], _, Splits.single ⟨rfl, hname⟩, .name hother, rfl⟩

theorem shows_isDefined {name : String} (hname : Text.isName name.toList = true) :
    Shows .primary ("defined(" ++ name ++ ")").toList (.isDefined name) := by
  refine ⟨[.word "defined", .openParen, .word name, .closeParen], _, ?_, .definedParens name, rfl⟩
  have hclose : Splits [')'] [.closeParen] := Splits.single rfl
  have hend : Splits (name.toList ++ [')']) [.word name, .closeParen] :=
    Splits.cons ⟨rfl, hname⟩ (by rintro _ ⟨⟩; decide) hclose
  have hopen : Splits (['('] ++ (name.toList ++ [')'])) [.openParen, .word name, .closeParen] :=
    Splits.cons rfl trivial hend
  have hword : Splits ("defined".toList ++ (['('] ++ (name.toList ++ [')'])))
      [.word "defined", .openParen, .word name, .closeParen] :=
    Splits.cons ⟨rfl, by decide⟩ (by rintro _ ⟨⟩; decide) hopen
  simpa using hword

/-- Parentheses make an operand of everything. -/
theorem shows_parens (h : Shows .or s c) : Shows .primary (['('] ++ s ++ [')']) c := by
  obtain ⟨ls, f, hs, hf, hc⟩ := h
  refine ⟨.openParen :: ls ++ [.closeParen], f, ?_, .parens hf, hc⟩
  have hclose : Splits [')'] [.closeParen] := Splits.single rfl
  exact (Splits.cons (l := .openParen) rfl trivial hs).append hclose (by rintro _ ⟨⟩; decide)

theorem Derives.of_primary (h : Derives .primary ls f) : Derives nt ls f := by
  have hunary := Derives.operand h
  cases nt with
  | or => exact .orOne (.andOne (.compareOne hunary))
  | and => exact .andOne (.compareOne hunary)
  | compare => exact .compareOne hunary
  | unary => exact hunary
  | primary => exact h

/-- An operand stands everywhere. -/
theorem Shows.of_primary (h : Shows .primary s c) : Shows nt s c := by
  obtain ⟨ls, f, hs, hf, hc⟩ := h
  exact ⟨ls, f, hs, hf.of_primary, hc⟩

theorem shows_not (h : Shows .unary s c) : Shows .unary ('!' :: s) (.not c) := by
  obtain ⟨ls, f, hs, hf, rfl⟩ := h
  have hnext := hs.head?_not_mem (framed_of_derives hf).head
  refine ⟨.bang :: ls, _, Splits.cons (l := .bang) rfl ?_ hs, .not hf, rfl⟩
  intro hc
  exact hnext '=' hc (by decide)

theorem shows_compare {a b : Condition} (op : Comparison) (ha : Shows .unary s a)
    (hb : Shows .unary t b) :
    Shows .or (s ++ ([' '] ++ op.symbol.toList ++ [' '] ++ t)) (.compare op a b) := by
  obtain ⟨ls, f, hs, hf, rfl⟩ := ha
  obtain ⟨ms, g, ht, hg, rfl⟩ := hb
  have hderives : Derives .compare (ls ++ .comparison op :: ms) (.compare op f g) :=
    .compareTwo op hf hg
  exact ⟨_, _, Splits.join (l := .comparison op) rfl hs ht, .orOne (.andOne hderives), rfl⟩

theorem shows_chain (j : Junction) {sign : List Char} (hsign : j.lexeme.Spelled sign)
    {a b : Condition} (ha : Shows j.whole s a) (hb : Shows j.member t b) :
    Shows j.whole (s ++ ([' '] ++ sign ++ [' '] ++ t)) (j.condition a b) := by
  obtain ⟨ls, f, hs, hf, rfl⟩ := ha
  obtain ⟨ms, g, ht, hg, rfl⟩ := hb
  exact ⟨_, _, Splits.join hsign hs ht, j.derives_next hf hg, j.condition_formula f g⟩

/-- The nonterminal that the text of a condition is derived from. -/
def level (c : Condition) : Nonterminal := if c.isCompound then .or else .primary

theorem shows_enclose (h : Shows c.level c.print.toList c) :
    Shows nt (enclose c c.print).toList c := by
  unfold enclose
  unfold level at h
  split
  · next hc =>
    rw [if_pos hc] at h
    simpa using (shows_parens h).of_primary
  · next hc =>
    rw [if_neg hc] at h
    exact h.of_primary

theorem shows_print (h : c.Named) : Shows c.level c.print.toList c := by
  induction c with
  | literal n => exact shows_literal n
  | reference name => exact shows_reference h.1 h.2
  | isDefined name => exact shows_isDefined h
  | not a ih =>
      obtain ⟨ls, f, hs, hf, hc⟩ := shows_not (shows_enclose (ih h))
      rw [print, String.toList_append]
      exact ⟨ls, f, hs, .orOne (.andOne (.compareOne hf)), hc⟩
  | compare op a b iha ihb =>
      have hshows := shows_compare op (shows_enclose (iha h.1)) (shows_enclose (ihb h.2))
      show Shows .or (print (.compare op a b)).toList (.compare op a b)
      rw [print]
      simpa using hshows
  | and a b iha ihb =>
      obtain ⟨ls, f, hs, hf, hc⟩ :=
        shows_chain .and rfl (shows_enclose (iha h.1)) (shows_enclose (ihb h.2))
      rw [print]
      refine ⟨ls, f, ?_, .orOne hf, hc⟩
      simpa using hs
  | or a b iha ihb =>
      obtain ⟨ls, f, hs, hf, hc⟩ :=
        shows_chain .or rfl (shows_enclose (iha h.1)) (shows_enclose (ihb h.2))
      rw [print]
      refine ⟨ls, f, ?_, hf, hc⟩
      simpa using hs

/-! ## What is read is printed -/

theorem Splits.isName (h : Splits s ls) :
    ∀ name, .word name ∈ ls → Text.isName name.toList = true := by
  induction h with
  | done => simp
  | lexeme hblanks hs hend hrest ih =>
      intro name hname
      rcases List.mem_cons.1 hname with rfl | hname
      · obtain ⟨rfl, h⟩ := hs
        exact h
      · exact ih name hname

/-- The macros of what is derived have the names that are spelled. -/
theorem named_of_derives (h : Derives nt ls f)
    (hwords : ∀ name, .word name ∈ ls → Text.isName name.toList = true) : f.condition.Named := by
  induction h with
  | orOne h ih | andOne h ih | compareOne h ih | operand h ih => exact ih hwords
  | orMore hf hg ihf ihg | andMore hf hg ihf ihg | compareTwo op hf hg ihf ihg =>
      constructor
      · exact ihf fun name hname => hwords name (List.mem_append_left _ hname)
      · exact ihg fun name hname =>
          hwords name (List.mem_append_right _ (List.mem_cons_of_mem _ hname))
  | not h ih => exact ih fun name hname => hwords name (List.mem_cons_of_mem _ hname)
  | parens h ih =>
      exact ih fun name hname =>
        hwords name (List.mem_append_left _ (List.mem_cons_of_mem _ hname))
  | number n => trivial
  | negative n => trivial
  | defined name => exact hwords name (by simp)
  | definedParens name => exact hwords name (by simp)
  | name h => exact ⟨hwords _ (by simp), h⟩

/-- **The grammar of conditions.** A text is accepted exactly if it reads as a formula, with the
tree of the formula as the result; a text reads as one formula at most; and the conditions that
printing and reading give back are those whose macros have names, whatever their literals. -/
theorem parse_grammar :
    (∀ text c, parse text = .ok c ↔ ∃ f, Reads text.toList f ∧ f.condition = c) ∧
    (∀ s f g, Reads s f → Reads s g → f = g) ∧
    ∀ c : Condition, parse c.print = .ok c ↔ c.Named := by
  refine ⟨fun text c => parse_eq_ok, fun s f g => Reads.unique, fun c => ?_⟩
  rw [parse_eq_ok]
  constructor
  · rintro ⟨f, ⟨ls, hs, hf⟩, rfl⟩
    exact named_of_derives hf hs.isName
  · intro hnamed
    obtain ⟨ls, f, hs, hf, hc⟩ := shows_print hnamed
    refine ⟨f, ⟨ls, hs, ?_⟩, hc⟩
    unfold level at hf
    split at hf
    · exact hf
    · exact hf.of_primary

theorem parse_grammar_leastWord :
    let c : Condition := .or (.not (.isDefined "A"))
      (.compare .eq (.literal Int64.minValue) (.reference "B"))
    c.print = "(!defined(A)) || (-9223372036854775808 == B)" ∧ parse c.print = .ok c ∧
      ∃ f, f.condition = c ∧ ∀ g, Reads c.print.toList g ↔ g = f := by
  intro c
  have hnamed : c.Named :=
    ⟨show Text.isName "A".toList = true by decide, trivial, by decide, by decide⟩
  have hparse := (parse_grammar.2.2 c).2 hnamed
  obtain ⟨f, hf, hc⟩ := (parse_grammar.1 c.print c).1 hparse
  refine ⟨by decide +kernel, hparse, f, hc, fun g => ⟨fun hg => ?_, fun hg => hg ▸ hf⟩⟩
  exact parse_grammar.2.1 _ g f hg hf

end EmbeddedBuffers.Condition
