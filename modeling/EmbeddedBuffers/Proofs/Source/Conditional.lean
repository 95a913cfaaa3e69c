import EmbeddedBuffers.Proofs.Condition.Meaning
import EmbeddedBuffers.Proofs.Source.Lines

/-!
# Conditional compilation

A scan of a well-formed source follows its tree: behind each item the groups, the braces and the
open namespaces are those in front of it, and what it yielded in between is what the tree means.
What the tree asks of its conditions is arithmetic behind `#if` and `#elif`, and for the others
whether a macro is defined. Main statements: `Directive.Test.holds_expression`,
`Directive.Test.holds_definedness` and `scan_text`.
-/

namespace EmbeddedBuffers

namespace Directive.Test

/-! ## When a condition holds -/

variable {m : Macros} {origin : Origin} {name : String} {w : List Char} {b negated : Bool}
  {p : Problem} {f : Condition.Formula} {val : String → Int}

/-- A condition has an answer only if it reads as a formula, and the formula gives the answer. -/
theorem holds_expression_eq_ok : expression.holds m origin name w = .ok b ↔
    ∃ f, Condition.Reads w f ∧ f.condition.holds? m = .ok b := by
  have hholds : expression.holds m origin name w =
      (Condition.parse? w >>= Condition.holds? m).mapError (·.problem.withOrigin origin) := by
    unfold holds
    cases Condition.parse? w >>= Condition.holds? m <;> rfl
  rw [hholds, mapError_eq_ok]
  constructor
  · intro h
    obtain ⟨c, hparse, hc⟩ := exists_of_bind_eq_ok h
    obtain ⟨f, hf, rfl⟩ := Condition.parse?_iff_reads.1 hparse
    exact ⟨f, hf, hc⟩
  · rintro ⟨f, hf, hc⟩
    rw [Condition.parse?_iff_reads.2 ⟨f, hf, rfl⟩]
    exact hc

/-- **The condition of `#if` and `#elif` holds if it is not zero** as arithmetic on signed words,
where the macros in it stand for integers. -/
theorem holds_expression (hf : Condition.Reads w f)
    (hval : ∀ name ∈ f.references, Condition.Stands m name (val name)) :
    expression.holds m origin name w =
      .ok (decide (f.meaning Condition.wrap val m.isDefined ≠ 0)) :=
  holds_expression_eq_ok.2 ⟨f, hf, mapError_eq_ok.1 (Condition.evaluate_eq hval)⟩

/-- The first word of a text, if it is a name. -/
def macroName? (w : List Char) : Option String :=
  ((Text.words w).head?.filter Text.isName).map String.ofList

/-- **The condition of `#ifdef` holds if a macro of the name behind it is defined, and that of
`#ifndef` if none is.** Without a name there is no answer. -/
theorem holds_definedness : (definedness negated).holds m origin name w =
    match macroName? w with
    | some macroName => .ok (if negated then !m.isDefined macroName else m.isDefined macroName)
    | none => .error (.condition origin s!"#{name} requires a macro name" none) := by
  unfold holds macroName?
  dsimp only
  cases Text.words w with
  | nil => rfl
  | cons word rest =>
      rw [List.headD_cons, List.head?_cons, Option.filter_some]
      cases hname : Text.isName word with
      | false => rfl
      | true => cases negated <;> simp

/-- The problem with a condition is reported at its directive. -/
theorem origin?_of_holds {test : Test} (h : test.holds m origin name w = .error p) :
    p.origin? = some origin := by
  unfold holds at h
  split at h
  · split at h
    · cases h
    · cases h
      rfl
  · dsimp only at h
    split at h
    · cases h
    · cases h
      rfl

end Directive.Test

namespace Source

variable {m : Macros} {path : String}

/-! ## Items -/

theorem andScan_congr {r : Reading} {f g : Names → Scan.Result} (h : ∀ seen, f seen = g seen) :
    r.andScan f = r.andScan g := congrArg r.andScan (funext h)

theorem andScan_ofAnswer (answer : Except Problem Bool) (next : Bool → Reading)
    (last : Names → Scan.Result) : (Reading.ofAnswer answer next).andScan last =
      match answer with
      | .error p => ⟨[], some (.problem p)⟩
      | .ok holds => (next holds).andScan last := by
  cases answer <;> rfl

theorem render_isNameChar (opening : Directive.Opening) :
    ∀ c ∈ opening.render.toList, Text.isNameChar c = true := by
  cases opening <;> decide

theorem switchName_isNameChar (test : Directive.Test) :
    ∀ c ∈ test.switchName.toList, Text.isNameChar c = true := by
  rcases test with _ | (_ | _) <;> decide

/-- The brace that ends a live block closes the namespaces that its line opened. -/
theorem run_closeBlock {s : Scan} {count : Nat} {braces : List Nat} {scope names : List String}
    (rest : List Char) (hlive : s.isLive = true) (hbraces : s.braces = count :: braces)
    (hscope : s.scope = scope ++ names) (hcount : names.length = count)
    (hs : s.rest = '\x7d' :: '\n' :: rest) : Scan.run m path s =
      Scan.run m path { s.beyond ['\x7d', '\n'] rest with braces := braces, scope := scope } := by
  have htake : s.scope.take (s.scope.length - count) = scope := by
    rw [hscope, List.length_append, hcount, Nat.add_sub_cancel, List.take_left]
  rw [Scan.run_closingLine hs, if_pos hlive, Scan.closeBrace, hbraces]
  dsimp only
  rw [htake]
  rfl

theorem run_deadClosingLine {s : Scan} (rest : List Char) (hdead : s.isLive = false)
    (hs : s.rest = '\x7d' :: '\n' :: rest) :
    Scan.run m path s = Scan.run m path (s.beyond ['\x7d', '\n'] rest) := by
  rw [Scan.run_closingLine hs, hdead, if_neg Bool.false_ne_true]

/-- The line that closes the innermost group. -/
theorem run_endif {s : Scan} {g : Directive.Group} {groups : List Directive.Group}
    {rest : List Char} (hstart : s.lineStart = true) (hgroups : s.groups = g :: groups)
    (hs : s.rest = plainLine "endif" ++ rest) : Scan.run m path s =
      Scan.run m path { s.beyond (plainLine "endif") rest with groups := groups } := by
  rw [Scan.run_plainLine (by decide) hstart hs, hgroups, Directive.apply_endif]

mutual

/-- **A scan reads an item as it is meant, and is then behind it with everything else as before.** -/
theorem run_item : (item : Item) → ∀ (s : Scan) (rest : List Char), s.lineStart = true →
    s.rest = item.text ++ rest → Scan.run m path s =
      (item.read m path s.isLive s.scope s.position s.seen).andScan fun seen =>
        Scan.run m path { s.beyond item.text rest with seen := seen }
  | .buffer b, s, rest, hstart, hs => by
      rw [Item.text] at hs ⊢
      rw [Item.read]
      exact Scan.run_buffer b (by rw [hs, List.append_assoc]; rfl)
  | .block names body, s, rest, hstart, hs => by
      rw [Item.text, List.append_assoc, List.append_assoc] at hs
      rw [Item.read]
      cases hlive : s.isLive with
      | false =>
          rw [if_neg Bool.false_ne_true, Scan.run_deadBlockLine names hlive hs,
            run_items body _ _ rfl rfl]
          show (Item.readAll m path s.isLive _ _ _ body).andScan _ = _
          rw [hlive]
          dsimp only [Scan.beyond]
          refine andScan_congr fun seen => ?_
          refine (run_deadClosingLine rest (by exact hlive) rfl).trans ?_
          rw [Item.text]
          simp only [Scan.beyond, Position.past_append]
      | true =>
          rw [if_pos rfl, Scan.run_blockLine names hlive hs, run_items body _ _ rfl rfl]
          show (Item.readAll m path s.isLive _ _ _ body).andScan _ = _
          rw [hlive]
          dsimp only [Scan.beyond]
          refine andScan_congr fun seen => ?_
          refine (run_closeBlock rest (by exact hlive) rfl rfl (List.length_map _) rfl).trans ?_
          rw [Item.text]
          simp only [Scan.beyond, Position.past_append]
  | .group opening condition body chain, s, rest, hstart, hs => by
      rw [Item.text, List.append_assoc, List.append_assoc] at hs
      rw [Item.read, Scan.run_testLine (render_isNameChar opening) condition hstart hs,
        Directive.apply_opening, andScan_ofAnswer]
      have hlive : Directive.isLive s.groups = s.isLive := rfl
      rw [hlive]
      cases opening.test.answer m (.atLine path s.position.line) opening.render condition.text
          s.isLive with
      | error p => rfl
      | ok holds =>
          show Scan.run m path _ = _
          dsimp only
          rw [run_items body _ _ rfl rfl, Reading.andScan_andThen]
          refine andScan_congr fun seen => ?_
          rw [run_chain chain _ _ s.groups rest rfl rfl rfl rfl]
          refine andScan_congr fun seen => ?_
          rw [Item.text]
          simp only [Scan.beyond, Position.past_append]

/-- Items one after the other. -/
theorem run_items : (items : List Item) → ∀ (s : Scan) (rest : List Char), s.lineStart = true →
    s.rest = Item.listText items ++ rest → Scan.run m path s =
      (Item.readAll m path s.isLive s.scope s.position s.seen items).andScan fun seen =>
        Scan.run m path { s.beyond (Item.listText items) rest with seen := seen }
  | [], s, rest, hstart, hs => by
      obtain ⟨position, rest', lineStart, groups, braces, scope, seen⟩ := s
      cases hstart
      cases hs
      rfl
  | item :: items, s, rest, hstart, hs => by
      rw [Item.listText, List.append_assoc] at hs
      rw [run_item item s _ hstart hs, Item.readAll, Reading.andScan_andThen]
      refine andScan_congr fun seen => ?_
      rw [run_items items _ rest rfl rfl]
      refine andScan_congr fun seen => ?_
      rw [Item.listText]
      simp only [Scan.beyond, Position.past_append]

/-- The later branches of a group, which is the innermost one and has seen no `#else` yet. -/
theorem run_chain : (chain : Chain) → ∀ (s : Scan) (g : Directive.Group)
    (groups : List Directive.Group) (rest : List Char), s.lineStart = true →
    s.groups = g :: groups → g.seenElse = false → s.rest = chain.text ++ rest →
    Scan.run m path s =
      (chain.read m path g.parentLive g.taken s.scope s.position s.seen).andScan fun seen =>
        Scan.run m path { s.beyond chain.text rest with groups := groups, seen := seen }
  | .close, s, g, groups, rest, hstart, hgroups, helse, hs => by
      rw [Chain.text] at hs
      exact run_endif hstart hgroups hs
  | .otherwise body, s, g, groups, rest, hstart, hgroups, helse, hs => by
      rw [Chain.text, List.append_assoc, List.append_assoc] at hs
      rw [Scan.run_plainLine (by decide) hstart hs, hgroups, Directive.apply_else _ _ _ helse,
        Chain.read]
      dsimp only
      rw [run_items body _ _ rfl rfl]
      refine andScan_congr fun seen => ?_
      refine (run_endif rfl rfl rfl).trans ?_
      rw [Chain.text]
      simp only [Scan.beyond, Position.past_append]
  | .switch test condition body chain, s, g, groups, rest, hstart, hgroups, helse, hs => by
      rw [Chain.text, List.append_assoc, List.append_assoc] at hs
      rw [Scan.run_testLine (switchName_isNameChar test) condition hstart hs, hgroups,
        Directive.apply_switch _ _ _ _ _ helse, Chain.read, andScan_ofAnswer]
      cases test.answer m (.atLine path s.position.line) test.switchName condition.text
          (g.parentLive && !g.taken) with
      | error p => rfl
      | ok holds =>
          show Scan.run m path _ = _
          dsimp only
          rw [run_items body _ _ rfl rfl, Reading.andScan_andThen]
          refine andScan_congr fun seen => ?_
          rw [run_chain chain _ _ groups rest rfl rfl (by exact helse) rfl]
          refine andScan_congr fun seen => ?_
          rw [Chain.text]
          simp only [Scan.beyond, Position.past_append]

end

/-! ## Sources -/

/-- **A scan of a well-formed source yields what the source means**: its declarations in their
order, each live or dead and in its namespaces, up to a condition without an answer or to a live
name that is taken. -/
theorem scan_text (m : Macros) (path : String) (items : List Item) :
    scan m path (String.ofList (Item.listText items)) = meaning m path items := by
  have hs : (Scan.ofText (Item.listText items)).rest = Item.listText items ++ [] :=
    (List.append_nil _).symm
  rw [scan, String.toList_ofList, run_items items _ _ rfl hs, meaning, Reading.result]
  exact andScan_congr fun seen => Scan.run_end rfl rfl

end Source

end EmbeddedBuffers
