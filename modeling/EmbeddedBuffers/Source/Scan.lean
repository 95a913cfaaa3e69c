import EmbeddedBuffers.Declaration.Basic
import EmbeddedBuffers.Source.Call

/-!
# Scanning

A scan walks over a source, keeps track of the conditional groups and of the namespaces
that are open, and yields the declarations it meets, dead ones included. What is wrong
with a dead declaration is passed over in silence. Main statements: `Scan.step_cases` with
`Scan.StepCases.step_eq`, the ways that a step goes, and `Scan.length_step_lt`: every step uses up a
piece of the text, so a scan ends.
-/

namespace EmbeddedBuffers

/-- The state of a scan. -/
structure Scan where
  position : Position
  /-- The text from `position` on. -/
  rest : List Char
  /-- Whether only blanks and comments stand before on the line, so that a `#` starts a
  directive. -/
  lineStart : Bool
  /-- The open conditional groups, innermost first. -/
  groups : List Directive.Group
  /-- For every open brace of the live text, innermost first, the number of namespaces
  that it opened. -/
  braces : List Nat
  /-- The open namespaces, outermost first. -/
  scope : List String
  /-- Namespace, name and line of every live declaration so far. -/
  seen : List ((List String × String) × Nat)
deriving Repr, Inhabited

namespace Scan

/-- The start of a source. -/
def ofText (source : List Char) : Scan := ⟨.start, source, true, [], [], [], []⟩

def isLive (s : Scan) : Bool := Directive.isLive s.groups

/-- Goes past a piece of text, after which `rest` follows. -/
def past (s : Scan) (piece rest : List Char) : Scan :=
  { s with position := s.position.past piece, rest := rest, lineStart := false }

/-- Closes a brace of the live text, and the namespaces that it opened. A brace too many
closes nothing. -/
def closeBrace (s : Scan) : Scan :=
  match s.braces with
  | [] => s
  | n :: braces => { s with braces, scope := s.scope.take (s.scope.length - n) }

/-- What a namespace header does. -/
def openHeader (s : Scan) : Source.Header → Scan
  | .block names written rest =>
    { s.past written rest with
      braces := names.length :: s.braces, scope := s.scope ++ names }
  | .statement written rest => s.past written rest

/-- Records a live declaration, unless its namespace holds one of the same name. -/
def record (s : Scan) (d : Declaration) : Except Problem Scan :=
  match s.seen.lookup (d.scope, d.name) with
  | some first => .error (.duplicate (.atLine d.path d.line) d.qualifiedName first)
  | none => .ok { s with seen := ((d.scope, d.name), d.line) :: s.seen }

/-- The stretch after a call that belongs to a declaration: blanks on the same line and a
semicolon. -/
def ending (s : List Char) : List Char × List Char :=
  let gap := s.takeWhile fun c => c == ' ' || c == '\t'
  match s.dropWhile fun c => c == ' ' || c == '\t' with
  | ';' :: rest => (gap ++ [';'], rest)
  | rest => (gap, rest)

/-- Reads the call after a macro word that starts at `start`. -/
def declaration (path : String) (kindWord : List Char) (start : Position) (s : Scan) :
    Except Stop (Option Declaration × Scan) :=
  let gap := s.rest.takeWhile Text.isAsciiBlank
  let after := s.rest.dropWhile Text.isAsciiBlank
  let word := String.ofList kindWord
  match Source.Call.read? after with
  | none =>
    if s.isLive && after.head? == some '(' then
      .error (.problem (.declaration (.atLine path start.line)
        s!"{Kind.macroName word}( is never closed" (some "Check for a missing ')'")))
    else .ok (none, s)
  | some call =>
    let (tail, rest) := ending call.rest
    let s' := s.past (gap ++ call.written ++ tail) rest
    match Declaration.read word call.meaning s.scope path ⟨start, s'.position⟩ s.isLive with
    | .error (.crash c) => .error (.crash c)
    | .error (.problem p) =>
      if s.isLive then .error (.problem (p.located path start.line)) else .ok (none, s')
    | .ok d =>
      if s.isLive then
        match s'.record d with
        | .error p => .error (.problem p)
        | .ok s'' => .ok (some d, s'')
      else .ok (some d, s')

/-- A word at the front of the text: `namespace`, the macro of a declaration, or a word
that means nothing here. -/
def word (path : String) (s : Scan) : Except Stop (Option Declaration × Scan) :=
  let (w, rest) := Source.word s.rest
  let s' := s.past w rest
  if w = "namespace".toList then
    .ok (none, if s.isLive then s'.openHeader (Source.Header.read [] rest) else s')
  else
    match Source.macroWord? w with
    | some kindWord => declaration path kindWord s.position s'
    | none => .ok (none, s')

/-- One step from the front of the text, whose first character is `c`. -/
def step (m : Macros) (path : String) (s : Scan) (c : Char) (rest : List Char) :
    Except Stop (Option Declaration × Scan) :=
  if c = '\n' then .ok (none, { s.past [c] rest with lineStart := true })
  else if Text.isAsciiBlank c then
    .ok (none, { s.past [c] rest with lineStart := s.lineStart })
  else if c = '#' ∧ s.lineStart = true then
    let line := Directive.Line.read rest
    match Directive.apply m path s.position.line line.meaning s.groups with
    | .error p => .error (.problem p)
    | .ok groups =>
      .ok (none, { s.past (c :: line.written) line.rest with groups, lineStart := true })
  else
    match Source.comment? (c :: rest) with
    | some (comment, after) =>
      .ok (none, { s.past comment after with lineStart := s.lineStart })
    | none =>
      if c = '\x7b' then
        let s' := s.past [c] rest
        .ok (none, if s.isLive then { s' with braces := 0 :: s'.braces } else s')
      else if c = '\x7d' then
        let s' := s.past [c] rest
        .ok (none, if s.isLive then s'.closeBrace else s')
      else if c = '"' ∨ c = '\'' ∨ (Text.isNameChar c ∧ c.isDigit = false) then
        match Literal.split? (c :: rest) with
        | some (literal, after) => .ok (none, s.past literal after)
        | none => word path s
      else if c.isDigit then word path s
      else .ok (none, s.past [c] rest)

/-! ## The ways they go

Each of the three as a relation, with one constructor for each branch. What is proved about a scan
goes by these. -/

/-- A scan that stands behind a macro word, behind the call there and what ends it. -/
def behind (s : Scan) (call : Source.Call) : Scan :=
  s.past (s.rest.takeWhile Text.isAsciiBlank ++ call.written ++ (ending call.rest).1)
    (ending call.rest).2

/-- What the call behind a macro word declares. -/
def readCall (path : String) (kindWord : List Char) (start : Position) (s : Scan)
    (call : Source.Call) : Except Stop Declaration :=
  Declaration.read (String.ofList kindWord) call.meaning s.scope path
    ⟨start, (s.behind call).position⟩ s.isLive

section Cases

variable (m : Macros) (path : String) (kindWord : List Char) (start : Position) (s : Scan)
  (c : Char) (rest : List Char)

/-- The ways of `declaration`. -/
inductive DeclarationCases : Except Stop (Option Declaration × Scan) → Prop
  | unclosed (hcall : Source.Call.read? (s.rest.dropWhile Text.isAsciiBlank) = none)
      (hopen : (s.isLive && (s.rest.dropWhile Text.isAsciiBlank).head? == some '(') = true) :
      DeclarationCases (.error (.problem (.declaration (.atLine path start.line)
        s!"{Kind.macroName (String.ofList kindWord)}( is never closed"
        (some "Check for a missing ')'"))))
  | uncalled (hcall : Source.Call.read? (s.rest.dropWhile Text.isAsciiBlank) = none)
      (hopen : ¬(s.isLive && (s.rest.dropWhile Text.isAsciiBlank).head? == some '(') = true) :
      DeclarationCases (.ok (none, s))
  | broken {call : Source.Call} {k : Crash}
      (hcall : Source.Call.read? (s.rest.dropWhile Text.isAsciiBlank) = some call)
      (hread : readCall path kindWord start s call = .error (.crash k)) :
      DeclarationCases (.error (.crash k))
  | refused {call : Source.Call} {p : Problem}
      (hcall : Source.Call.read? (s.rest.dropWhile Text.isAsciiBlank) = some call)
      (hread : readCall path kindWord start s call = .error (.problem p))
      (hlive : s.isLive = true) :
      DeclarationCases (.error (.problem (p.located path start.line)))
  | passedOver {call : Source.Call} {p : Problem}
      (hcall : Source.Call.read? (s.rest.dropWhile Text.isAsciiBlank) = some call)
      (hread : readCall path kindWord start s call = .error (.problem p))
      (hdead : s.isLive = false) : DeclarationCases (.ok (none, s.behind call))
  | repeated {call : Source.Call} {d : Declaration} {first : Nat}
      (hcall : Source.Call.read? (s.rest.dropWhile Text.isAsciiBlank) = some call)
      (hread : readCall path kindWord start s call = .ok d) (hlive : s.isLive = true)
      (hseen : s.seen.lookup (d.scope, d.name) = some first) :
      DeclarationCases
        (.error (.problem (.duplicate (.atLine d.path d.line) d.qualifiedName first)))
  | live {call : Source.Call} {d : Declaration}
      (hcall : Source.Call.read? (s.rest.dropWhile Text.isAsciiBlank) = some call)
      (hread : readCall path kindWord start s call = .ok d) (hlive : s.isLive = true)
      (hseen : s.seen.lookup (d.scope, d.name) = none) :
      DeclarationCases
        (.ok (some d, { s.behind call with seen := ((d.scope, d.name), d.line) :: s.seen }))
  | dead {call : Source.Call} {d : Declaration}
      (hcall : Source.Call.read? (s.rest.dropWhile Text.isAsciiBlank) = some call)
      (hread : readCall path kindWord start s call = .ok d) (hdead : s.isLive = false) :
      DeclarationCases (.ok (some d, s.behind call))

/-- The ways of `word`. -/
inductive WordCases : Except Stop (Option Declaration × Scan) → Prop
  | header (hname : (Source.word s.rest).1 = "namespace".toList) (hlive : s.isLive = true) :
      WordCases (.ok (none, (s.past (Source.word s.rest).1 (Source.word s.rest).2).openHeader
        (Source.Header.read [] (Source.word s.rest).2)))
  | deadHeader (hname : (Source.word s.rest).1 = "namespace".toList) (hdead : s.isLive = false) :
      WordCases (.ok (none, s.past (Source.word s.rest).1 (Source.word s.rest).2))
  | declared {kindWord : List Char} {r : Except Stop (Option Declaration × Scan)}
      (hname : (Source.word s.rest).1 ≠ "namespace".toList)
      (hkind : Source.macroWord? (Source.word s.rest).1 = some kindWord)
      (h : declaration path kindWord s.position
        (s.past (Source.word s.rest).1 (Source.word s.rest).2) = r) : WordCases r
  | other (hname : (Source.word s.rest).1 ≠ "namespace".toList)
      (hkind : Source.macroWord? (Source.word s.rest).1 = none) :
      WordCases (.ok (none, s.past (Source.word s.rest).1 (Source.word s.rest).2))

/-- A character that starts neither a line nor a blank, a directive, a comment or a block. -/
structure Plain : Prop where
  feed : c ≠ '\n'
  blank : Text.isAsciiBlank c = false
  mark : ¬(c = '#' ∧ s.lineStart = true)
  comment : Source.comment? (c :: rest) = none
  openBrace : c ≠ '\x7b'
  closeBrace : c ≠ '\x7d'

/-- The ways of `step`. -/
inductive StepCases : Except Stop (Option Declaration × Scan) → Prop
  | lineFeed (hfeed : c = '\n') :
      StepCases (.ok (none, { s.past [c] rest with lineStart := true }))
  | blank (hfeed : c ≠ '\n') (hblank : Text.isAsciiBlank c = true) :
      StepCases (.ok (none, { s.past [c] rest with lineStart := s.lineStart }))
  | refused {p : Problem} (hmark : c = '#') (hstart : s.lineStart = true)
      (happly : Directive.apply m path s.position.line (Directive.Line.read rest).meaning
        s.groups = .error p) : StepCases (.error (.problem p))
  | directive {groups : List Directive.Group} (hmark : c = '#') (hstart : s.lineStart = true)
      (happly : Directive.apply m path s.position.line (Directive.Line.read rest).meaning
        s.groups = .ok groups) :
      StepCases (.ok (none,
        { s.past (c :: (Directive.Line.read rest).written) (Directive.Line.read rest).rest with
          groups, lineStart := true }))
  | comment {comment after : List Char}
      (hcomment : Source.comment? (c :: rest) = some (comment, after)) :
      StepCases (.ok (none, { s.past comment after with lineStart := s.lineStart }))
  | openBlock (hopen : c = '\x7b') (hlive : s.isLive = true) :
      StepCases (.ok (none, { s.past [c] rest with braces := 0 :: s.braces }))
  | closeBlock (hclose : c = '\x7d') (hlive : s.isLive = true) :
      StepCases (.ok (none, (s.past [c] rest).closeBrace))
  | deadBrace (hbrace : c = '\x7b' ∨ c = '\x7d') (hdead : s.isLive = false) :
      StepCases (.ok (none, s.past [c] rest))
  | literal {literal after : List Char} (hplain : Plain s c rest)
      (hstarts : c = '"' ∨ c = '\'' ∨ (Text.isNameChar c = true ∧ c.isDigit = false))
      (hliteral : Literal.split? (c :: rest) = some (literal, after)) :
      StepCases (.ok (none, s.past literal after))
  | word {r : Except Stop (Option Declaration × Scan)} (hplain : Plain s c rest)
      (hname : Text.isNameChar c = true)
      (hliteral : c.isDigit = false → Literal.split? (c :: rest) = none)
      (h : word path s = r) : StepCases r
  | other (hplain : Plain s c rest) (hquote : ¬(c = '"' ∨ c = '\''))
      (hname : Text.isNameChar c = false) : StepCases (.ok (none, s.past [c] rest))

variable {m path kindWord start s c rest} {r : Except Stop (Option Declaration × Scan)}

theorem declaration_cases (h : declaration path kindWord start s = r) :
    DeclarationCases path kindWord start s r := by
  subst h
  unfold declaration
  dsimp only
  split
  · next hcall =>
    split
    · next hopen => exact .unclosed hcall hopen
    · next hopen => exact .uncalled hcall hopen
  · next call hcall =>
    split
    · next hread => exact .broken hcall hread
    · next hread =>
      split
      · next hlive => exact .refused hcall hread hlive
      · next hdead => exact .passedOver hcall hread (eq_false_of_ne_true hdead)
    · next d hread =>
      split
      · next hlive =>
        unfold record
        split
        · next hrecord =>
          split at hrecord
          · next hseen =>
            cases hrecord
            exact .repeated hcall hread hlive hseen
          · cases hrecord
        · next hrecord =>
          split at hrecord
          · cases hrecord
          · next hseen =>
            cases hrecord
            exact .live hcall hread hlive hseen
      · next hdead => exact .dead hcall hread (eq_false_of_ne_true hdead)

theorem word_cases (h : word path s = r) : WordCases path s r := by
  subst h
  unfold word
  dsimp only
  split
  · next hname =>
    split
    · next hlive => exact .header hname hlive
    · next hdead => exact .deadHeader hname (eq_false_of_ne_true hdead)
  · next hname =>
    split
    · next hkind => exact .declared hname hkind rfl
    · next hkind => exact .other hname hkind

theorem step_cases (h : step m path s c rest = r) : StepCases m path s c rest r := by
  subst h
  unfold step
  split
  · next hfeed => exact .lineFeed hfeed
  next hfeed =>
  split
  · next hblank => exact .blank hfeed hblank
  next hblank =>
  split
  · next hmark =>
    dsimp only
    split
    · next happly => exact .refused hmark.1 hmark.2 happly
    · next happly => exact .directive hmark.1 hmark.2 happly
  next hmark =>
  split
  · next hcomment => exact .comment hcomment
  next hcomment =>
  split
  · next hopen =>
    dsimp only
    split
    · next hlive => exact .openBlock hopen hlive
    · next hdead => exact .deadBrace (.inl hopen) (eq_false_of_ne_true hdead)
  next hopen =>
  split
  · next hclose =>
    dsimp only
    split
    · next hlive => exact .closeBlock hclose hlive
    · next hdead => exact .deadBrace (.inr hclose) (eq_false_of_ne_true hdead)
  next hclose =>
  have hplain : Plain s c rest :=
    ⟨hfeed, eq_false_of_ne_true hblank, hmark, hcomment, hopen, hclose⟩
  split
  · next hstarts =>
    split
    · next hliteral => exact .literal hplain hstarts hliteral
    · next hliteral =>
      rcases hstarts with hquote | hquote | hname
      · cases (Literal.split?_quote (.inl hquote) rest).symm.trans hliteral
      · cases (Literal.split?_quote (.inr hquote) rest).symm.trans hliteral
      · exact .word hplain hname.1 (fun _ => hliteral) rfl
  next hstarts =>
  obtain ⟨hdouble, hsingle, hname⟩ := not_or.1 hstarts |>.imp id not_or.1
  split
  · next hdigit =>
    refine .word hplain ?_ (fun h => absurd (hdigit.symm.trans h) Bool.noConfusion) rfl
    simp [Text.isNameChar, Char.isAlphanum, hdigit]
  · next hdigit =>
    refine .other hplain (not_or.2 ⟨hdouble, hsingle⟩) (eq_false_of_ne_true fun h => ?_)
    exact hname ⟨h, eq_false_of_ne_true hdigit⟩

theorem Plain.step_eq (h : Plain s c rest) : step m path s c rest =
    if c = '"' ∨ c = '\'' ∨ (Text.isNameChar c ∧ c.isDigit = false) then
      match Literal.split? (c :: rest) with
      | some (literal, after) => .ok (none, s.past literal after)
      | none => word path s
    else if c.isDigit then word path s
    else .ok (none, s.past [c] rest) := by
  rw [step, if_neg h.feed, h.blank, if_neg Bool.false_ne_true, if_neg h.mark, h.comment]
  dsimp only
  rw [if_neg h.openBrace, if_neg h.closeBrace]

/-- A step goes the way that is open to it. -/
theorem StepCases.step_eq (h : StepCases m path s c rest r) : step m path s c rest = r := by
  cases h with
  | lineFeed hfeed => rw [step, if_pos hfeed]
  | blank hfeed hblank => rw [step, if_neg hfeed, if_pos hblank]
  | refused hmark hstart happly =>
    subst hmark
    rw [step, if_neg (by decide), if_neg (by decide), if_pos ⟨rfl, hstart⟩]
    dsimp only
    rw [happly]
  | directive hmark hstart happly =>
    subst hmark
    rw [step, if_neg (by decide), if_neg (by decide), if_pos ⟨rfl, hstart⟩]
    dsimp only
    rw [happly]
  | comment hcomment =>
    obtain rfl := Source.eq_slash_of_comment? hcomment
    rw [step, if_neg (by decide), if_neg (by decide), if_neg (by simp), hcomment]
  | openBlock hopen hlive =>
    subst hopen
    simp [step, Text.isAsciiBlank, Source.comment?, hlive, past]
  | closeBlock hclose hlive =>
    subst hclose
    simp [step, Text.isAsciiBlank, Source.comment?, hlive]
  | deadBrace hbrace hdead =>
    rcases hbrace with rfl | rfl <;> simp [step, Text.isAsciiBlank, Source.comment?, hdead]
  | literal hplain hstarts hliteral => rw [hplain.step_eq, if_pos hstarts, hliteral]
  | word hplain hname hliteral h =>
    rw [hplain.step_eq, ← h]
    cases hdigit : c.isDigit with
    | true =>
      have hquote : c ≠ '"' ∧ c ≠ '\'' := by
        constructor <;>
        · rintro rfl
          cases hname
      simp [hquote]
    | false => simp [hname, hliteral hdigit]
  | other hplain hquote hname =>
    have hdigit : c.isDigit = false := by
      simp only [Text.isNameChar, Char.isAlphanum, Bool.or_eq_false_iff] at hname
      exact hname.1.2
    rw [hplain.step_eq, if_neg, hdigit, if_neg Bool.false_ne_true]
    rintro (h | h | h)
    · exact hquote (.inl h)
    · exact hquote (.inr h)
    · exact Bool.false_ne_true (hname.symm.trans h.1)

end Cases

/-! ## Progress -/

theorem rest_closeBrace (s : Scan) : s.closeBrace.rest = s.rest := by
  unfold closeBrace
  split <;> rfl

theorem length_ending_le (s : List Char) : (ending s).2.length ≤ s.length := by
  have := (List.dropWhile_sublist (fun c => c == ' ' || c == '\t') (l := s)).length_le
  unfold ending
  split
  · next rest h =>
    rw [h] at this
    exact Nat.le_trans (Nat.le_succ _) this
  · exact this

theorem length_lt_of_inside? {depth : Nat} {inWord : Bool} {s : List Char}
    {call : Source.Call} (h : Source.Call.inside? depth inWord s = some call) :
    call.rest.length < s.length := by
  fun_induction Source.Call.inside? depth inWord s generalizing call with
  | case1 => simp at h
  | case2 depth inWord c rest literal after hl ih =>
    obtain ⟨call', hc, rfl⟩ := Option.map_eq_some_iff.1 h
    have := ih hc
    have : after.length < (c :: rest).length := by
      unfold Source.literalAt? at hl
      simp only at hl
      split at hl
      · exact Literal.length_lt_of_split? hl
      · simp at hl
    simp only [Source.Call.cons]
    omega
  | case3 depth inWord c rest hl comment after hm ih =>
    obtain ⟨call', hc, rfl⟩ := Option.map_eq_some_iff.1 h
    have := ih hc
    have := Source.length_lt_of_comment? hm
    simp only [Source.Call.cons]
    omega
  | case4 =>
    simp only [Option.some.injEq] at h
    rw [← h]
    simp
  | case5 _ _ _ _ _ ih =>
    obtain ⟨call', hc, rfl⟩ := Option.map_eq_some_iff.1 h
    have := ih hc
    simp only [Source.Call.cons, List.length_cons]
    omega
  | case6 _ _ _ _ _ _ ih =>
    obtain ⟨call', hc, rfl⟩ := Option.map_eq_some_iff.1 h
    have := ih hc
    simp only [Source.Call.cons, List.length_cons]
    omega
  | case7 _ _ _ _ _ _ _ _ ih =>
    obtain ⟨call', hc, rfl⟩ := Option.map_eq_some_iff.1 h
    have := ih hc
    simp only [Source.Call.cons, List.length_cons]
    omega

theorem length_lt_of_read? {s : List Char} {call : Source.Call}
    (h : Source.Call.read? s = some call) : call.rest.length < s.length := by
  unfold Source.Call.read? at h
  split at h
  · obtain ⟨call', hc, rfl⟩ := Option.map_eq_some_iff.1 h
    have := length_lt_of_inside? hc
    simp only [Source.Call.cons, List.length_cons]
    omega
  · simp at h

theorem length_behind_le {s : Scan} {call : Source.Call}
    (h : Source.Call.read? (s.rest.dropWhile Text.isAsciiBlank) = some call) :
    (s.behind call).rest.length ≤ s.rest.length := by
  have hgap := (List.dropWhile_sublist Text.isAsciiBlank (l := s.rest)).length_le
  have hcall := length_lt_of_read? h
  have hending := length_ending_le call.rest
  show (ending call.rest).2.length ≤ _
  omega

theorem length_declaration_le {path : String} {kindWord : List Char} {start : Position}
    {s s' : Scan} {d : Option Declaration}
    (h : declaration path kindWord start s = .ok (d, s')) : s'.rest.length ≤ s.rest.length := by
  cases declaration_cases h with
  | uncalled => exact Nat.le_refl _
  | passedOver hcall => exact length_behind_le hcall
  | live hcall => exact length_behind_le hcall
  | dead hcall => exact length_behind_le hcall

theorem length_openHeader_le (s : Scan) (text : List Char) :
    (s.openHeader (Source.Header.read text s.rest)).rest.length ≤ s.rest.length := by
  have hread := congrArg List.length (Source.Header.read_eq text s.rest)
  rw [List.length_append] at hread
  cases heq : Source.Header.read text s.rest <;>
  · rw [heq] at hread
    simp only [openHeader, past, Source.Header.rest] at *
    omega

theorem length_word_lt {path : String} {s s' : Scan} {d : Option Declaration} {c : Char}
    {rest : List Char} (hs : s.rest = c :: rest) (hc : Text.isNameChar c = true)
    (h : word path s = .ok (d, s')) : s'.rest.length < s.rest.length := by
  have hw : (Source.word s.rest).2.length < s.rest.length := by
    rw [hs]
    by_cases hd : c.isDigit = true
    · have := congrArg List.length (Source.numberRest_eq rest)
      simp only [List.length_append] at this
      simp only [Source.word, hd, Source.numberRest, hc, Bool.true_or, if_true,
        List.length_cons]
      omega
    · have := (List.dropWhile_sublist Text.isNameChar (l := rest)).length_le
      simp only [Source.word, hd, List.dropWhile_cons, hc, if_true, List.length_cons,
        Bool.false_eq_true, if_false]
      omega
  cases word_cases h with
  | header => exact Nat.lt_of_le_of_lt (length_openHeader_le (s.past _ _) []) hw
  | deadHeader => exact hw
  | declared _ _ h => exact Nat.lt_of_le_of_lt (length_declaration_le h) hw
  | other => exact hw

/-- Every step uses up a piece of the text. -/
theorem length_step_lt {m : Macros} {path : String} {s s' : Scan} {c : Char}
    {rest : List Char} {d : Option Declaration} (hs : s.rest = c :: rest)
    (h : step m path s c rest = .ok (d, s')) : s'.rest.length < s.rest.length := by
  have hlt : rest.length < s.rest.length := by simp [hs]
  cases step_cases h with
  | lineFeed => exact hlt
  | blank => exact hlt
  | directive =>
    have hline := congrArg List.length (Directive.Line.read_eq rest)
    rw [List.length_append] at hline
    simp only [past]
    omega
  | comment hcomment => exact hs ▸ Source.length_lt_of_comment? hcomment
  | openBlock => exact hlt
  | closeBlock =>
    rw [rest_closeBrace]
    exact hlt
  | deadBrace => exact hlt
  | literal _ _ hliteral => exact hs ▸ Literal.length_lt_of_split? hliteral
  | word _ hname _ h => exact length_word_lt hs hname h
  | other => exact hlt

/-! ## Runs -/

/-- The next declaration and the scan after it, or nothing at the end of the source, where
every conditional group has to be closed. -/
def next? (m : Macros) (path : String) (s : Scan) :
    Except Stop (Option (Declaration × Scan)) :=
  match _hs : s.rest with
  | [] =>
    match s.groups with
    | [] => .ok none
    | g :: _ =>
      .error (.problem (.unpairedDirective (.atLine path g.line)
        (Directive.Fault.neverClosed g.opening).message))
  | c :: rest =>
    match _h : step m path s c rest with
    | .error e => .error e
    | .ok (some d, s') => .ok (some (d, s'))
    | .ok (none, s') => next? m path s'
termination_by s.rest.length
decreasing_by
  exact length_step_lt _hs _h

theorem length_next?_lt {m : Macros} {path : String} {s s' : Scan} {d : Declaration}
    (h : next? m path s = .ok (some (d, s'))) : s'.rest.length < s.rest.length := by
  fun_induction next? m path s with
  | case1 => simp at h
  | case2 => simp at h
  | case3 => simp at h
  | case4 s c rest hs d' s'' hstep =>
    simp only [Except.ok.injEq, Option.some.injEq, Prod.mk.injEq] at h
    rw [← h.2]
    exact length_step_lt hs hstep
  | case5 s c rest hs s'' hstep ih =>
    exact Nat.lt_trans (ih h) (length_step_lt hs hstep)

/-- What a scan yields: declarations, and what ended it early. -/
structure Result where
  declarations : List Declaration
  stop : Option Stop
deriving Repr, Inhabited

/-- Everything from a state on. -/
def run (m : Macros) (path : String) (s : Scan) : Result :=
  match _h : next? m path s with
  | .error e => ⟨[], some e⟩
  | .ok none => ⟨[], none⟩
  | .ok (some (d, s')) =>
    let r := run m path s'
    ⟨d :: r.declarations, r.stop⟩
termination_by s.rest.length
decreasing_by
  exact length_next?_lt _h

/-- Whether a live declaration follows; what comes after it is not looked at. -/
def findLive (m : Macros) (path : String) (s : Scan) : Except Stop Bool :=
  match _h : next? m path s with
  | .error e => .error e
  | .ok none => .ok false
  | .ok (some (d, s')) => if d.live then .ok true else findLive m path s'
termination_by s.rest.length
decreasing_by
  exact length_next?_lt _h

end Scan

/-- Scans a source text. -/
def scan (m : Macros) (path : String) (source : String) : Scan.Result :=
  Scan.run m path (.ofText source.toList)

/-- All declarations of a source text. -/
def declarations (m : Macros) (path : String) (source : String) :
    Except Stop (List Declaration) :=
  let r := scan m path source
  match r.stop with
  | none => .ok r.declarations
  | some s => .error s

/-- The live declarations of a source text. -/
def liveDeclarations (m : Macros) (path : String) (source : String) :
    Except Stop (List Declaration) :=
  (declarations m path source).map (List.filter (·.live))

/-- Whether a source text has a live declaration. -/
def hasLiveDeclaration (m : Macros) (path : String) (source : String) : Except Stop Bool :=
  Scan.findLive m path (.ofText source.toList)

end EmbeddedBuffers
