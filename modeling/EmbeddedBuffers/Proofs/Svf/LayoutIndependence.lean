import EmbeddedBuffers.Proofs.Results
import EmbeddedBuffers.Proofs.Svf.Layout
import EmbeddedBuffers.Svf.Command

/-!
# What layout does not change

A text is converted by its statements alone. Texts that have the same words, groups and semicolons
become the same bytes or fail with the same message, however they are laid out and whatever empty
statements they have, and the line of an error is that of the first token of the statement that
fails. Main statement: `convert_layout`.
-/

namespace EmbeddedBuffers.Svf

/-! ## Statements of a text -/

/-- The token of a statement as a part of a text. -/
def part (t : Token × List Char) : Lexeme × List Char := (.token t.1, t.2)

/-- Parts are statements that end with a semicolon, where empty ones do not count, and the tokens
behind the last semicolon. -/
inductive Clauses : List (Lexeme × List Char) → List (List (Token × List Char)) →
    List (Token × List Char) → Prop
  | last {tail} : Clauses (tail.map part) [] tail
  | empty {place found statements tail} (h : Clauses found statements tail) :
      Clauses ((.semicolon, place) :: found) statements tail
  | statement {s place found statements tail} (hs : s ≠ []) (h : Clauses found statements tail) :
      Clauses (s.map part ++ (.semicolon, place) :: found) (s :: statements) tail

/-- The statements of a text, the tokens behind its last semicolon, and the place of a parenthesis
that is never closed. -/
structure Division where
  statements : List (List (Token × List Char))
  tail : List (Token × List Char)
  unclosed : Option (List Char)

/-- The parts of a text are divided into statements. -/
structure Divides (p : Parts) (d : Division) : Prop where
  clauses : Clauses p.found d.statements d.tail
  unclosed_eq : p.unclosed = d.unclosed

/-- The words, groups and semicolons of a text, and whether a group is never closed. -/
def Parts.tokens (p : Parts) : List Lexeme × Bool := (p.found.map Prod.fst, p.unclosed.isSome)

/-- The tokens of the statements. -/
def Division.tokens (d : Division) : List (List Token) × List Token × Bool :=
  (d.statements.map fun s => s.map Prod.fst, d.tail.map Prod.fst, d.unclosed.isSome)

/-- What is wrong with the end of a text, if anything is left there. -/
def Division.fault (d : Division) : LayoutFault :=
  if d.unclosed.isSome then .unclosedGroup else .noSemicolon

/-- The places behind the last semicolon. -/
def Division.ends (d : Division) : List (List Char) := d.tail.map Prod.snd ++ d.unclosed.toList

/-- The statement that fails starts at a place, and fails with a message. It is the one that is not
finished, or else the first whose command fails. -/
inductive Division.Fails (d : Division) : List Char → String → Prop
  | ends {place} (hplace : d.ends.head? = some place) : d.Fails place d.fault.message
  | command {front s behind f place} (hends : d.ends = [])
      (hsplit : d.statements = front ++ s :: behind)
      (hfront : ∀ x ∈ front, ∃ c, Command.ofTokens (x.map Prod.fst) = .ok c)
      (hfault : Command.ofTokens (s.map Prod.fst) = .error f)
      (hplace : (s.map Prod.snd).head? = some place) : d.Fails place f.message

/-- The bytes of a text, or the message. -/
def outcome (text : List Char) : Except String (List UInt8) := (convert text).mapError Prod.snd

variable {text t u : List Char} {p q : Parts} {d e : Division}
  {found found' : List (Lexeme × List Char)} {statements : List (List (Token × List Char))}
  {s tail : List (Token × List Char)}

theorem exists_clauses (found : List (Lexeme × List Char)) :
    ∃ statements tail, Clauses found statements tail := by
  induction found with
  | nil => exact ⟨[], [], @Clauses.last []⟩
  | cons l found ih =>
      obtain ⟨statements, tail, h⟩ := ih
      obtain ⟨_ | t, place⟩ := l
      case semicolon => exact ⟨statements, tail, .empty h⟩
      case token t =>
        cases h with
        | last => exact ⟨[], (t, place) :: tail, @Clauses.last ((t, place) :: tail)⟩
        | empty h => exact ⟨_, tail, .statement (List.cons_ne_nil (t, place) []) h⟩
        | @statement s _ _ _ _ hs h =>
            exact ⟨_, tail, .statement (List.cons_ne_nil (t, place) s) h⟩

/-- The parts of every text are divided into statements. -/
theorem exists_divides (p : Parts) : ∃ d, Divides p d := by
  obtain ⟨statements, tail, h⟩ := exists_clauses p.found
  exact ⟨⟨statements, tail, p.unclosed⟩, h, rfl⟩

theorem Clauses.ne_nil (h : Clauses found statements tail) : ∀ s ∈ statements, s ≠ [] := by
  induction h with
  | last => exact List.forall_mem_nil _
  | empty h ih => exact ih
  | statement hs h ih => exact List.forall_mem_cons.2 ⟨hs, ih⟩

theorem map_snd_part (s : List (Token × List Char)) :
    (s.map part).map Prod.snd = s.map Prod.snd := by
  rw [List.map_map]
  rfl

/-- The places of the statements are those of the parts. -/
theorem Clauses.sublist (h : Clauses found statements tail) :
    ((statements.flatten ++ tail).map Prod.snd).Sublist (found.map Prod.snd) := by
  induction h with
  | @last tail =>
      rw [map_snd_part]
      exact List.Sublist.refl _
  | empty h ih => exact ih.cons _
  | @statement s place found statements tail hs h ih =>
      have hfound : (s.map part ++ (.semicolon, place) :: found).map Prod.snd =
          s.map Prod.snd ++ place :: found.map Prod.snd := by
        rw [List.map_append, map_snd_part, List.map_cons]
      rw [List.flatten_cons, List.append_assoc, List.map_append, hfound]
      exact (List.Sublist.refl _).append (ih.cons _)

/-- A statement that fails starts at a place of the text. -/
theorem Division.Fails.suffix {place : List Char} {message : String}
    (hfails : d.Fails place message) (h : Layout t p) (hd : Divides p d) : place <:+ t := by
  refine h.suffix place ?_
  have hmem : ∀ a ∈ (d.statements.flatten ++ d.tail).map Prod.snd, a ∈ p.found.map Prod.snd :=
    fun a ha => hd.clauses.sublist.subset ha
  rw [Parts.places, hd.unclosed_eq]
  cases hfails with
  | ends hplace =>
      rcases List.mem_append.1 (List.mem_of_mem_head? hplace) with hplace | hplace
      · rw [List.map_append] at hmem
        exact List.mem_append_left _ (hmem place (List.mem_append_right _ hplace))
      · exact List.mem_append_right _ hplace
  | @command front s behind f _ hends hsplit hfront hfault hplace =>
      have hs : ∀ a ∈ s, a ∈ d.statements.flatten ++ d.tail := by
        intro a ha
        refine List.mem_append_left _ (List.mem_flatten_of_mem ?_ ha)
        rw [hsplit]
        exact List.mem_append_right _ List.mem_cons_self
      have hfirst : place ∈ s.map Prod.snd := List.mem_of_mem_head? hplace
      exact List.mem_append_left _ (hmem place (List.map_subset _ hs hfirst))

/-! ## The same tokens -/

theorem exists_map_part (h : found.map Prod.fst = (s.map part).map Prod.fst) :
    ∃ s' : List (Token × List Char), found = s'.map part ∧ s'.map Prod.fst = s.map Prod.fst := by
  induction s generalizing found with
  | nil =>
      rw [List.map_nil, List.map_nil, List.map_eq_nil_iff] at h
      exact ⟨[], h, rfl⟩
  | cons t s ih =>
      obtain ⟨⟨l, place⟩, found, rfl, hl, h⟩ := List.map_eq_cons_iff.1 h
      obtain ⟨s', rfl, hs'⟩ := ih h
      replace hl : l = .token t.1 := hl
      exact ⟨(t.1, place) :: s', by rw [hl]; rfl, by rw [List.map_cons, hs', List.map_cons]⟩

/-- Parts with the same tokens are divided into statements with the same tokens. -/
theorem Clauses.exists_same (h : Clauses found statements tail)
    (hsame : found'.map Prod.fst = found.map Prod.fst) :
    ∃ statements' tail', Clauses found' statements' tail' ∧
      statements'.map (fun s => s.map Prod.fst) = statements.map (fun s => s.map Prod.fst) ∧
      tail'.map Prod.fst = tail.map Prod.fst := by
  induction h generalizing found' with
  | last =>
      obtain ⟨tail', rfl, htail⟩ := exists_map_part hsame
      exact ⟨[], tail', .last, rfl, htail⟩
  | empty h ih =>
      obtain ⟨⟨l, place⟩, found', rfl, rfl, hfound⟩ := List.map_eq_cons_iff.1 hsame
      obtain ⟨statements', tail', h', hrest⟩ := ih hfound
      exact ⟨statements', tail', .empty h', hrest⟩
  | @statement s _ _ _ _ hs h ih =>
      rw [List.map_append] at hsame
      obtain ⟨front, behind, rfl, hfront, hbehind⟩ := List.map_eq_append_iff.1 hsame
      obtain ⟨s', rfl, hs'⟩ := exists_map_part hfront
      obtain ⟨⟨l, place⟩, found', rfl, rfl, hfound⟩ := List.map_eq_cons_iff.1 hbehind
      obtain ⟨statements', tail', h', hstatements, htail⟩ := ih hfound
      have hne : s' ≠ [] := by
        rintro rfl
        exact hs (List.map_eq_nil_iff.1 hs'.symm)
      refine ⟨s' :: statements', tail', .statement hne h', ?_, htail⟩
      rw [List.map_cons, hs', hstatements, List.map_cons]

theorem Divides.exists_same (h : Divides p d) (hsame : q.tokens = p.tokens) :
    ∃ e, Divides q e ∧ e.tokens = d.tokens := by
  obtain ⟨hfound, hunclosed⟩ := Prod.mk.inj hsame
  obtain ⟨statements, tail, hq, hstatements, htail⟩ := h.clauses.exists_same hfound
  refine ⟨⟨statements, tail, q.unclosed⟩, ⟨hq, rfl⟩, ?_⟩
  rw [Division.tokens, Division.tokens, hstatements, htail, hunclosed, h.unclosed_eq]

/-! ## Conversion -/

variable {line : List Char → Nat} {unclosed : Option Nat} {place : List Char} {message : String}
  {bytes : List UInt8}

/-- A token with the line of its place. -/
def placed (line : List Char → Nat) (t : Token × List Char) : Nat × Token := (line t.2, t.1)

/-- A statement with the line of its first place. -/
def statementAt (line : List Char → Nat) (s : List (Token × List Char)) : Statement :=
  ⟨((s.map Prod.snd).head?.map line).getD 1, s.map Prod.fst⟩

theorem ofTokens_placed (hs : s ≠ []) :
    Statement.ofTokens (s.map (placed line)) = some (statementAt line s) := by
  cases s with
  | nil => exact absurd rfl hs
  | cons t s =>
      rw [List.map_cons, Statement.ofTokens, List.map_map]
      rfl

/-- The tokens in front of a semicolon wait for it. -/
theorem statementsFrom_tokens (s : List (Token × List Char)) (pending : List (Nat × Token))
    (rest : List (Nat × Lexeme)) :
    statementsFrom unclosed pending ((s.map part).map (fun l => (line l.2, l.1)) ++ rest) =
      statementsFrom unclosed ((s.map (placed line)).reverse ++ pending) rest := by
  induction s generalizing pending with
  | nil => rfl
  | cons t s ih =>
      rw [List.map_cons, List.map_cons, List.cons_append, part, statementsFrom, ih, List.map_cons,
        List.reverse_cons, List.append_assoc, List.singleton_append, placed]

theorem statementsFrom_eq (h : Clauses found statements tail) :
    statementsFrom unclosed [] (found.map fun l => (line l.2, l.1)) =
      (statementsFrom unclosed (tail.map (placed line)).reverse []).map
        (statements.map (statementAt line) ++ ·) := by
  induction h with
  | last =>
      rw [← List.append_nil (List.map _ (List.map part _)), statementsFrom_tokens, List.append_nil]
      cases statementsFrom unclosed _ [] <;> rfl
  | @empty place found statements tail h ih =>
      rw [List.map_cons, statementsFrom, ih]
      cases statementsFrom unclosed _ [] <;> rfl
  | @statement s place found statements tail hs h ih =>
      rw [List.map_append, List.map_cons, statementsFrom_tokens, List.append_nil, statementsFrom,
        List.reverse_reverse, ofTokens_placed hs, ih]
      cases statementsFrom unclosed _ [] <;> rfl

/-- A text without an open end has its statements. -/
theorem statements_of_ends_eq_nil (h : Layout t p) (hd : Divides p d) (hends : d.ends = []) :
    Svf.statements t = .ok (d.statements.map (statementAt (lineAt (t.count '\n')))) := by
  obtain ⟨htail, hunclosed⟩ := List.append_eq_nil_iff.1 hends
  rw [List.map_eq_nil_iff] at htail
  rw [Option.toList_eq_nil_iff] at hunclosed
  rw [Svf.statements, lex_eq h]
  show statementsFrom (p.unclosed.map _) [] (p.found.map _) = _
  rw [statementsFrom_eq hd.clauses, hd.unclosed_eq, hunclosed, htail]
  exact congrArg Except.ok (List.append_nil _)

theorem statementsFrom_end {u : Option (List Char)}
    (hplace : (tail.map Prod.snd ++ u.toList).head? = some place) :
    statementsFrom (u.map line) (tail.map (placed line)).reverse [] =
      .error (line place, if u.isSome then .unclosedGroup else .noSemicolon) := by
  cases tail with
  | nil =>
      cases u with
      | none => cases hplace
      | some end' =>
          cases hplace
          rfl
  | cons t tail =>
      cases hplace
      have hfirst : Statement.ofTokens ((t :: tail).map (placed line)) =
          some (statementAt line (t :: tail)) := ofTokens_placed (List.cons_ne_nil t tail)
      rw [statementsFrom.eq_def]
      dsimp only
      rw [List.reverse_reverse, hfirst]
      cases u <;> rfl

/-- A text with an open end fails there. -/
theorem statements_of_ends (h : Layout t p) (hd : Divides p d)
    (hplace : d.ends.head? = some place) :
    Svf.statements t = .error (lineAt (t.count '\n') place, d.fault) := by
  rw [Svf.statements, lex_eq h]
  show statementsFrom (p.unclosed.map _) [] (p.found.map _) = _
  rw [statementsFrom_eq hd.clauses, hd.unclosed_eq, statementsFrom_end hplace]
  rfl

/-- What a statement becomes, with its line where it fails. -/
def convertStatement (line : List Char → Nat) (s : List (Token × List Char)) :
    Except (Nat × String) Command :=
  (Command.ofTokens (s.map Prod.fst)).mapError fun f => ((statementAt line s).line, f.message)

theorem commands_of_ends_eq_nil (h : Layout t p) (hd : Divides p d) (hends : d.ends = []) :
    commands t = d.statements.mapM (convertStatement (lineAt (t.count '\n'))) := by
  rw [commands, statements_of_ends_eq_nil h hd hends]
  show List.mapM _ (d.statements.map _) = _
  rw [List.mapM_map]
  rfl

theorem commands_of_ends (h : Layout t p) (hd : Divides p d)
    (hplace : d.ends.head? = some place) :
    commands t = .error (lineAt (t.count '\n') place, d.fault.message) := by
  rw [commands, statements_of_ends h hd hplace]
  rfl

theorem line_statementAt (hplace : (s.map Prod.snd).head? = some place) :
    (statementAt line s).line = line place := by
  rw [statementAt, hplace]
  rfl

theorem exists_place (hs : s ≠ []) : ∃ place, (s.map Prod.snd).head? = some place := by
  cases s with
  | nil => exact absurd rfl hs
  | cons t s => exact ⟨t.2, rfl⟩

theorem convertStatement_eq_error {err : Nat × String} :
    convertStatement line s = .error err ↔ ∃ f, Command.ofTokens (s.map Prod.fst) = .error f ∧
      err = ((statementAt line s).line, f.message) := by
  rw [convertStatement]
  cases Command.ofTokens (s.map Prod.fst) with
  | ok c => exact iff_of_false (fun h => by cases h) (fun ⟨_, h, _⟩ => by cases h)
  | error f =>
      constructor
      · rintro ⟨⟩
        exact ⟨f, rfl, rfl⟩
      · rintro ⟨f', hf, rfl⟩
        cases hf
        rfl

/-- **A text fails exactly as one of its statements does**, on the line of that statement. -/
theorem convert_eq_error (h : Layout t p) (hd : Divides p d) {err : Nat × String} :
    convert t = .error err ↔ ∃ place message, d.Fails place message ∧
      err = (lineAt (t.count '\n') place, message) := by
  have hcommands : convert t = .error err ↔ commands t = .error err := by
    rw [convert, bind_eq_error]
    refine or_iff_left ?_
    rintro ⟨cs, -, hcs⟩
    cases hcs
  rw [hcommands]
  constructor
  · intro herr
    cases hplace : d.ends.head? with
    | some place =>
        rw [commands_of_ends h hd hplace] at herr
        cases herr
        exact ⟨place, _, .ends hplace, rfl⟩
    | none =>
        -- Nothing is left open, so a command fails, and the ones before it do not.
        rw [List.head?_eq_none_iff] at hplace
        rw [commands_of_ends_eq_nil h hd hplace] at herr
        obtain ⟨front, s, behind, hsplit, hfront, hs⟩ := mapM_eq_error.1 herr
        obtain ⟨f, hf, rfl⟩ := convertStatement_eq_error.1 hs
        have hmem : s ∈ d.statements := by
          rw [hsplit]
          exact List.mem_append_right _ List.mem_cons_self
        obtain ⟨place, hfirst⟩ := exists_place (hd.clauses.ne_nil s hmem)
        refine ⟨place, f.message, .command hplace hsplit (fun x hx => ?_) hf hfirst, ?_⟩
        · obtain ⟨c, hc⟩ := hfront x hx
          exact ⟨c, mapError_eq_ok.1 hc⟩
        · rw [line_statementAt hfirst]
  · rintro ⟨place, message, hfails, rfl⟩
    cases hfails with
    | ends hplace => exact commands_of_ends h hd hplace
    | @command front s behind f _ hends hsplit hfront hfault hplace =>
        rw [commands_of_ends_eq_nil h hd hends, mapM_eq_error]
        refine ⟨front, s, behind, hsplit, fun x hx => ?_, ?_⟩
        · obtain ⟨c, hc⟩ := hfront x hx
          exact ⟨c, mapError_eq_ok.2 hc⟩
        · exact convertStatement_eq_error.2 ⟨f, hfault, by rw [line_statementAt hplace]⟩

theorem outcome_eq (t : List Char) :
    outcome t = ((commands t).mapError Prod.snd).map (·.flatMap Command.encode) := by
  rw [outcome, convert]
  cases commands t <;> rfl

theorem ends_eq_nil_iff : d.ends = [] ↔ d.tokens.2 = ([], false) := by
  rw [Division.ends, Division.tokens, List.append_eq_nil_iff, List.map_eq_nil_iff,
    Option.toList_eq_nil_iff, Prod.mk.injEq, List.map_eq_nil_iff, Option.isSome_eq_false_iff,
    Option.isNone_iff_eq_none]

/-- Without an open end, a text has the outcome of the tokens of its statements. -/
theorem outcome_of_ends_eq_nil (h : Layout t p) (hd : Divides p d) (hends : d.ends = []) :
    outcome t = ((d.tokens.1.mapM fun ts =>
      (Command.ofTokens ts).mapError CommandFault.message).map (·.flatMap Command.encode)) := by
  have hstatement : ∀ line s, (convertStatement line s).mapError Prod.snd =
      (Command.ofTokens (s.map Prod.fst)).mapError CommandFault.message := by
    intro line s
    rw [convertStatement]
    cases Command.ofTokens (s.map Prod.fst) <;> rfl
  rw [outcome_eq, commands_of_ends_eq_nil h hd hends, mapM_mapError, Division.tokens,
    List.mapM_map]
  simp only [hstatement]
  rfl

theorem outcome_of_ends (h : Layout t p) (hd : Divides p d) (hends : d.ends ≠ []) :
    outcome t = .error d.fault.message := by
  have hhead : d.ends.head? ≠ none := fun hnone => hends (List.head?_eq_none_iff.1 hnone)
  obtain ⟨place, hplace⟩ := Option.ne_none_iff_exists'.1 hhead
  rw [outcome_eq, commands_of_ends h hd hplace]
  rfl

/-- **Texts with the same statements have the same outcome.** -/
theorem outcome_eq_of_tokens (ht : Layout t p) (hd : Divides p d) (hu : Layout u q)
    (he : Divides q e) (hsame : d.tokens = e.tokens) : outcome t = outcome u := by
  have hends : d.ends = [] ↔ e.ends = [] := by
    rw [ends_eq_nil_iff, ends_eq_nil_iff, hsame]
  by_cases hnil : d.ends = []
  · rw [outcome_of_ends_eq_nil ht hd hnil, outcome_of_ends_eq_nil hu he (hends.1 hnil), hsame]
  · have hunclosed : d.unclosed.isSome = e.unclosed.isSome :=
      (Prod.mk.inj (Prod.mk.inj hsame).2).2
    rw [outcome_of_ends ht hd hnil, outcome_of_ends hu he (mt hends.2 hnil), Division.fault,
      Division.fault, hunclosed]

/-- **Layout does not change what a text is converted to.** Every text is made of words in upper
case, groups without blanks, and semicolons, with blanks and comments between them and inside the
groups, and these are divided into statements. Texts with the same words, groups and semicolons in
the same order have the same bytes or fail with the same message, also where they have different
empty statements. A text fails where a statement does: at the end of the text, if something is left
there, or else at the first statement whose command fails; and the line of the error is the line on
which the first token of that statement starts. -/
theorem convert_layout :
    (∀ t, ∃ p, Layout t p) ∧ (∀ p, ∃ d, Divides p d) ∧
    (∀ t u p q, Layout t p → Layout u q → p.tokens = q.tokens → outcome t = outcome u) ∧
    (∀ t u p q d e, Layout t p → Layout u q → Divides p d → Divides q e → d.tokens = e.tokens →
      outcome t = outcome u) ∧
    ∀ t p d line message, Layout t p → Divides p d → (convert t = .error (line, message) ↔
      ∃ front place, t = front ++ place ∧ d.Fails place message ∧ line = 1 + front.count '\n') := by
  refine ⟨exists_layout, exists_divides, fun t u p q ht hu hsame => ?_,
    fun t u p q d e ht hu hd he hsame => outcome_eq_of_tokens ht hd hu he hsame,
    fun t p d line message h hd => ?_⟩
  · obtain ⟨d, hd⟩ := exists_divides p
    obtain ⟨e, he, htokens⟩ := hd.exists_same hsame.symm
    exact outcome_eq_of_tokens ht hd hu he htokens.symm
  · rw [convert_eq_error h hd]
    constructor
    · rintro ⟨place, message', hfails, heq⟩
      cases heq
      obtain ⟨front, rfl⟩ := hfails.suffix h hd
      exact ⟨front, place, rfl, hfails, lineAt_append front place⟩
    · rintro ⟨front, place, rfl, hfails, rfl⟩
      exact ⟨place, message, hfails, by rw [lineAt_append]⟩

/-- A statement that fails on the first line, and on the second behind an empty statement and a
comment. -/
theorem convert_layout_comment :
    let t := ['A', ';']
    let u := ['!', '\n', 'a', ' ', ';']
    let v := [';', '!', '\n', 'a', ';']
    let message := (CommandFault.unsupportedCommand "A").message
    ∃ p q r d e, Layout t p ∧ Layout u q ∧ Layout v r ∧ p.tokens = q.tokens ∧ Divides p d ∧
      Divides r e ∧ d.tokens = e.tokens ∧ e.Fails ['a', ';'] message ∧ outcome t = outcome u ∧
      outcome t = outcome v ∧ convert v = .error (2, message) := by
  intro t u v message
  obtain ⟨-, -, hsame, htokens, hfails⟩ := convert_layout
  have hstart : ∀ {c : Char} {text : List Char}, c = 'A' ∨ c = 'a' → InWord (c :: text) := by
    rintro c text (rfl | rfl) <;>
      exact ⟨by decide, by decide, by decide, not_startsComment (by decide) (by decide)⟩
  have hsemi : ¬ InWord [';'] := fun h => h.2.2.1 rfl
  have hspace : ¬ InWord [' ', ';'] := fun h => nomatch h.1
  have hcomment : ∀ text, StartsComment ('!' :: text) := fun text => .inl ⟨text, rfl⟩
  let p : Parts := ⟨[(.token (wordToken ['A']), t), (.semicolon, [';'])], none⟩
  let q : Parts := ⟨[(.token (wordToken ['a']), ['a', ' ', ';']), (.semicolon, [';'])], none⟩
  let r : Parts :=
    ⟨[(.semicolon, v), (.token (wordToken ['a']), ['a', ';']), (.semicolon, [';'])], none⟩
  have ht : Layout t p :=
    .word (hstart (.inl rfl)) (.char (hstart (.inl rfl)) (.stop hsemi)) (.semicolon .done)
  have hu : Layout u q := .comment (hcomment _) (.blank rfl
    (.word (hstart (.inr rfl)) (.char (hstart (.inr rfl)) (.stop hspace))
      (.blank rfl (.semicolon .done))))
  have hv : Layout v r := .semicolon (.comment (hcomment ['\n', 'a', ';']) (.blank rfl
    (.word (hstart (.inr rfl)) (.char (hstart (.inr rfl)) (.stop hsemi)) (.semicolon .done))))
  let d : Division := ⟨[[(wordToken ['A'], t)]], [], none⟩
  let e : Division := ⟨[[(wordToken ['a'], ['a', ';'])]], [], none⟩
  have hsingle : ∀ x, Clauses [part x, (.semicolon, [';'])] [[x]] [] := fun x =>
    @Clauses.statement [x] [';'] [] [] [] (List.cons_ne_nil x []) (@Clauses.last [])
  have hd : Divides p d := ⟨hsingle (wordToken ['A'], t), rfl⟩
  have he : Divides r e := ⟨.empty (hsingle (wordToken ['a'], ['a', ';'])), rfl⟩
  have hpq : p.tokens = q.tokens := rfl
  have hde : d.tokens = e.tokens := rfl
  have hfail : e.Fails ['a', ';'] message :=
    @Division.Fails.command e [] _ [] (.unsupportedCommand "A") _ rfl rfl
      (List.forall_mem_nil _) (by decide +kernel) rfl
  exact ⟨p, q, r, d, e, ht, hu, hv, hpq, hd, he, hde, hfail, hsame t u p q ht hu hpq,
    htokens t v p r d e ht hv hd he hde,
    (hfails v r e 2 message hv he).2 ⟨[';', '!', '\n'], ['a', ';'], rfl, hfail, rfl⟩⟩

end EmbeddedBuffers.Svf
