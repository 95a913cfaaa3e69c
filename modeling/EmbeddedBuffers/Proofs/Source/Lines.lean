import EmbeddedBuffers.Proofs.Results
import EmbeddedBuffers.Proofs.Source.Headers

/-!
# Scanning line by line

What a scan does with each kind of line that a tree is written in: how the line changes the groups,
the braces and the open namespaces, and what it yields. Main statements: `Scan.run_directive`,
`Scan.run_blockLine`, `Scan.run_closingLine` and `Scan.run_buffer`.
-/

namespace EmbeddedBuffers

theorem Position.past_append (p : Position) (a b : List Char) :
    p.past (a ++ b) = (p.past a).past b := List.foldl_append

namespace Declaration

/-- What a call has to hold for its parts to be found. -/
theorem eq_of_parts {kind : Kind} {args rest : List Argument}
    {element : ElementType} {typeName name : String}
    (h : parts kind args = .ok (element, typeName, name, rest)) :
    args = .words typeName :: .words name :: rest ∧ ElementType.parse typeName = .ok element ∧
      Text.isName name.toList = true := by
  unfold parts at h
  split at h
  · next type second more =>
    cases type with
    | string _ => cases h
    | list _ => cases h
    | words t =>
        dsimp only at h
        rw [pure_bind] at h
        obtain ⟨element', helement, h⟩ := exists_of_bind_eq_ok h
        cases second with
        | string _ => cases h
        | list _ => cases h
        | words t' =>
            dsimp only at h
            split at h
            · next hname =>
              rw [pure_bind] at h
              split at h
              · cases h
              · cases h
                exact ⟨rfl, helement, hname⟩
            · cases h
  · cases h

variable {word : String} {inner : List Char} {scope : List String} {path : String} {span : Span}
  {live : Bool} {d : Declaration}

/-- What is read as a declaration consists of its type, its name and its arguments. -/
theorem readAll_of_read (h : read word inner scope path span live = .ok d) :
    Argument.readAll inner = .ok (.words d.typeName :: .words d.name :: d.arguments) ∧
      ElementType.parse d.typeName = .ok d.element ∧ Text.isName d.name.toList = true ∧
        d.scope = scope ∧ d.live = live := by
  unfold read at h
  split at h
  · cases h
  · next kind _ =>
    obtain ⟨args, hargs, h⟩ := exists_of_bind_eq_ok h
    obtain ⟨⟨element, typeName, name, rest⟩, hparts, h⟩ := exists_of_bind_eq_ok h
    cases h
    have hparts : parts kind args = .ok (element, typeName, name, rest) := by
      cases hfound : parts kind args with
      | error p =>
          rw [hfound] at hparts
          cases hparts
      | ok found =>
          rw [hfound] at hparts
          cases hparts
          rfl
    obtain ⟨rfl, htype, hname⟩ := eq_of_parts hparts
    exact ⟨hargs, htype, hname, rfl, rfl⟩

/-- A declaration has the namespaces and the liveness of where it stands. -/
theorem place_of_read (h : read word inner scope path span live = .ok d) :
    d.scope = scope ∧ d.live = live :=
  (readAll_of_read h).2.2.2

end Declaration

namespace Scan

variable {m : Macros} {path : String} {s s' : Scan} {c : Char} {rest : List Char}

/-! ## Steps of a run -/

theorem next?_of_step (hs : s.rest = c :: rest) (h : step m path s c rest = .ok (none, s')) :
    next? m path s = next? m path s' := by
  rw [next?.eq_def]
  split
  · next heq => cases hs.symm.trans heq
  · next heq =>
    cases hs.symm.trans heq
    split
    · next heq => cases h.symm.trans heq
    · next heq => cases h.symm.trans heq
    · next heq =>
      cases h.symm.trans heq
      rfl

theorem next?_of_declaration {d : Declaration} (hs : s.rest = c :: rest)
    (h : step m path s c rest = .ok (some d, s')) : next? m path s = .ok (some (d, s')) := by
  rw [next?.eq_def]
  split
  · next heq => cases hs.symm.trans heq
  · next heq =>
    cases hs.symm.trans heq
    split
    · next heq => cases h.symm.trans heq
    · next heq =>
      cases h.symm.trans heq
      rfl
    · next heq => cases h.symm.trans heq

theorem next?_of_stop {e : Stop} (hs : s.rest = c :: rest)
    (h : step m path s c rest = .error e) : next? m path s = .error e := by
  rw [next?.eq_def]
  split
  · next heq => cases hs.symm.trans heq
  · next heq =>
    cases hs.symm.trans heq
    split
    · next heq =>
      cases h.symm.trans heq
      rfl
    · next heq => cases h.symm.trans heq
    · next heq => cases h.symm.trans heq

theorem run_eq (m : Macros) (path : String) (s : Scan) : run m path s =
    match next? m path s with
    | .error e => ⟨[], some e⟩
    | .ok none => ⟨[], none⟩
    | .ok (some (d, s')) => ⟨d :: (run m path s').declarations, (run m path s').stop⟩ := by
  rw [run.eq_def]
  split <;> simp_all

theorem run_of_step (hs : s.rest = c :: rest) (h : step m path s c rest = .ok (none, s')) :
    run m path s = run m path s' := by
  rw [run_eq, run_eq m path s', next?_of_step hs h]

theorem run_of_declaration {d : Declaration} (hs : s.rest = c :: rest)
    (h : step m path s c rest = .ok (some d, s')) :
    run m path s = ⟨d :: (run m path s').declarations, (run m path s').stop⟩ := by
  rw [run_eq, next?_of_declaration hs h]

theorem run_of_stop {e : Stop} (hs : s.rest = c :: rest)
    (h : step m path s c rest = .error e) : run m path s = ⟨[], some e⟩ := by
  rw [run_eq, next?_of_stop hs h]

theorem run_end (hs : s.rest = []) (hgroups : s.groups = []) : run m path s = ⟨[], none⟩ := by
  have hnext : next? m path s = .ok none := by
    rw [next?.eq_def]
    split
    · rw [hgroups]
    · next heq => cases hs.symm.trans heq
  rw [run_eq, hnext]

/-! ## Lines -/

/-- A scan behind a line, at the start of the next one. -/
def beyond (s : Scan) (line rest : List Char) : Scan :=
  { s with position := s.position.past line, rest := rest, lineStart := true }

theorem step_lineFeed (m : Macros) (path : String) (s : Scan) (rest : List Char) :
    step m path s '\n' rest = .ok (none, s.beyond ['\n'] rest) :=
  (StepCases.lineFeed rfl).step_eq

theorem run_lineFeed (hs : s.rest = '\n' :: rest) :
    run m path s = run m path (s.beyond ['\n'] rest) :=
  run_of_step hs (step_lineFeed m path s rest)

/-- A directive on one line changes the groups and nothing else. -/
theorem step_directive (m : Macros) (path : String) {v : List Char}
    (hstart : s.lineStart = true) (hfeed : '\n' ∉ v)
    (hcomment : Source.opensComment v = false)
    (hlast : v.getLast? ≠ some '\\' ∧ v.getLast? ≠ some '\r') (rest : List Char) :
    step m path s '#' (v ++ '\n' :: rest) =
      match Directive.apply m path s.position.line v s.groups with
      | .error p => .error (.problem p)
      | .ok groups => .ok (none,
          { s.past ('#' :: v) ('\n' :: rest) with groups := groups, lineStart := true }) := by
  have hline := Directive.Line.read_append hfeed hcomment hlast rest
  cases happly : Directive.apply m path s.position.line v s.groups with
  | error p => exact (StepCases.refused rfl hstart (by rw [hline, happly])).step_eq
  | ok groups =>
      have hstep := (@StepCases.directive m path s '#' (v ++ '\n' :: rest) groups rfl hstart
        (by rw [hline, happly])).step_eq
      rw [hline] at hstep
      exact hstep

/-- The line of a directive. -/
theorem run_directive {v : List Char} (hs : s.rest = '#' :: (v ++ '\n' :: rest))
    (hstart : s.lineStart = true) (hfeed : '\n' ∉ v) (hcomment : Source.opensComment v = false)
    (hlast : v.getLast? ≠ some '\\' ∧ v.getLast? ≠ some '\r') : run m path s =
      match Directive.apply m path s.position.line v s.groups with
      | .error p => ⟨[], some (.problem p)⟩
      | .ok groups => run m path { s.beyond ('#' :: (v ++ ['\n'])) rest with groups := groups } := by
  have hstep := step_directive m path hstart hfeed hcomment hlast rest
  cases happly : Directive.apply m path s.position.line v s.groups with
  | error p =>
      rw [happly] at hstep
      exact run_of_stop hs hstep
  | ok groups =>
      rw [happly] at hstep
      rw [run_of_step hs hstep, run_lineFeed rfl]
      dsimp only
      congr 1
      simp only [beyond, past, ← Position.past_append, List.cons_append]

/-- A name opens no comment. -/
theorem opensComment_name {name : List Char} (hname : ∀ c ∈ name, Text.isNameChar c = true)
    (t : List Char) : Source.opensComment (name ++ t) = Source.opensComment t := by
  induction name with
  | nil => rfl
  | cons c name ih =>
      obtain ⟨hc, hname⟩ := List.forall_mem_cons.1 hname
      have hslash : c ≠ '/' := by
        rintro rfl
        exact absurd hc (by decide)
      rw [List.cons_append, Source.opensComment.eq_3 _ _ (fun _ h _ => hslash h)
        (fun _ h _ => hslash h), ih hname]

theorem feed_of_isNameChar {name : List Char} (hname : ∀ c ∈ name, Text.isNameChar c = true) :
    '\n' ∉ name := fun h => absurd (hname _ h) (by decide)

open Source in
/-- The line of a directive with a condition. -/
theorem run_testLine {name : String} (hname : ∀ c ∈ name.toList, Text.isNameChar c = true)
    (condition : ConditionText) (hstart : s.lineStart = true)
    (hs : s.rest = testLine name condition ++ rest) : run m path s =
      match Directive.apply m path s.position.line (name.toList ++ ' ' :: condition.text)
        s.groups with
      | .error p => ⟨[], some (.problem p)⟩
      | .ok groups => run m path { s.beyond (testLine name condition) rest with groups := groups } := by
  have hrest : s.rest = '#' :: (name.toList ++ ' ' :: condition.text ++ '\n' :: rest) := by
    rw [hs, testLine]
    simp
  have hfeed : '\n' ∉ name.toList ++ ' ' :: condition.text := by
    have := feed_of_isNameChar hname
    simp [this, condition.oneLine]
  have hcomment : opensComment (name.toList ++ ' ' :: condition.text) = false := by
    rw [opensComment_name hname, opensComment.eq_3 _ _ (by simp) (by simp), condition.noComment]
  have hlast : (name.toList ++ ' ' :: condition.text).getLast? ≠ some '\\' ∧
      (name.toList ++ ' ' :: condition.text).getLast? ≠ some '\r' := by
    rw [List.getLast?_append, List.getLast?_cons]
    have := condition.uncontinued
    cases h : condition.text.getLast? with
    | none => simp
    | some c => simpa [h] using this
  have hline : testLine name condition = '#' :: (name.toList ++ ' ' :: condition.text ++ ['\n']) := by
    rw [testLine]
  rw [run_directive hrest hstart hfeed hcomment hlast, hline]

open Source in
/-- The line of a directive without a condition. -/
theorem run_plainLine {name : String} (hname : ∀ c ∈ name.toList, Text.isNameChar c = true)
    (hstart : s.lineStart = true) (hs : s.rest = plainLine name ++ rest) : run m path s =
      match Directive.apply m path s.position.line name.toList s.groups with
      | .error p => ⟨[], some (.problem p)⟩
      | .ok groups => run m path { s.beyond (plainLine name) rest with groups := groups } := by
  have hrest : s.rest = '#' :: (name.toList ++ '\n' :: rest) := by
    rw [hs, plainLine]
    simp
  have hcomment : opensComment name.toList = false :=
    opensComment_of_not_mem fun h => absurd (hname _ h) (by decide)
  have hlast : ∀ d, Text.isNameChar d = false → name.toList.getLast? ≠ some d := by
    intro d hd h
    rw [hname d (List.mem_of_getLast? h)] at hd
    cases hd
  have hline : plainLine name = '#' :: (name.toList ++ ['\n']) := by rw [plainLine]
  rw [run_directive hrest hstart (feed_of_isNameChar hname) hcomment
    ⟨hlast _ (by decide), hlast _ (by decide)⟩, hline]

/-- A brace on a line of its own closes a block of the live text. -/
theorem run_closingLine (hs : s.rest = '\x7d' :: '\n' :: rest) : run m path s =
    run m path ((if s.isLive then s.closeBrace else s).beyond ['\x7d', '\n'] rest) := by
  cases hlive : s.isLive with
  | false =>
      have hstep := (@StepCases.deadBrace m path s '\x7d' ('\n' :: rest) (.inr rfl) hlive).step_eq
      rw [run_of_step hs hstep, run_lineFeed rfl]
      rfl
  | true =>
      have hstep := (@StepCases.closeBlock m path s '\x7d' ('\n' :: rest) rfl hlive).step_eq
      rw [run_of_step hs hstep, run_lineFeed (rest_closeBrace _)]
      congr 1
      obtain ⟨_, _, _, _, braces, _, _⟩ := s
      cases braces <;> rfl

/-! ## Words at the start of a line -/

/-- What may follow a name. -/
def EndsName (rest : List Char) : Prop :=
  ∀ c, rest.head? = some c → Text.isNameChar c = false ∧ c ≠ '"' ∧ c ≠ '\''

/-- A name is a word where no character of a name follows. -/
theorem word_of_isName {w : List Char} (hw : Text.isName w = true)
    (hrest : ∀ c, rest.head? = some c → Text.isNameChar c = false) :
    Source.word (w ++ rest) = (w, rest) := by
  obtain ⟨htake, hdrop⟩ := Text.span_append (Source.Identifier.isNameChar ⟨w, hw⟩) hrest
  cases w with
  | nil => cases hw
  | cons c w =>
      show (if c.isDigit then _ else (((c :: w) ++ rest).takeWhile Text.isNameChar,
        ((c :: w) ++ rest).dropWhile Text.isNameChar)) = _
      rw [Text.isDigit_of_isName hw, if_neg Bool.false_ne_true, htake, hdrop]

theorem word_name {w : List Char} (hw : Text.isName w = true) (hrest : EndsName rest) :
    Source.word (w ++ rest) = (w, rest) :=
  word_of_isName hw fun c hc => (hrest c hc).1

theorem plain_of_isNameChar (s : Scan) (hname : Text.isNameChar c = true) (rest : List Char) :
    Plain s c rest := by
  have hne : ∀ d, Text.isNameChar d = false → c ≠ d := by
    rintro d hd rfl
    exact Bool.false_ne_true (hd.symm.trans hname)
  exact ⟨hne _ (by decide), Source.isAsciiBlank_of_isNameChar hname,
    fun h => hne '#' (by decide) h.1, Source.comment?_eq_none fun h => absurd h (hne _ (by decide)),
    hne _ (by decide), hne _ (by decide)⟩

/-- A scan meets a name as a word, unless a literal starts with it. -/
theorem exists_step_word (m : Macros) (path : String) {w : List Char}
    (hw : Text.isName w = true) (hsplit : Literal.split? (w ++ rest) = none)
    (hs : s.rest = w ++ rest) :
    ∃ c tail, s.rest = c :: tail ∧ step m path s c tail = word path s := by
  have hchars := Source.Identifier.isNameChar ⟨w, hw⟩
  cases w with
  | nil => cases hw
  | cons c w =>
      have hname : Text.isNameChar c = true := hchars c List.mem_cons_self
      exact ⟨c, w ++ rest, hs,
        (StepCases.word (plain_of_isNameChar s hname _) hname (fun _ => hsplit) rfl).step_eq⟩

/-- A scan meets a name as a word. -/
theorem exists_step_name (m : Macros) (path : String) {w : List Char}
    (hw : Text.isName w = true) (hrest : EndsName rest) (hs : s.rest = w ++ rest) :
    ∃ c tail, s.rest = c :: tail ∧ step m path s c tail = word path s := by
  refine exists_step_word m path hw (Literal.split?_eq_none fun c hc => ?_) hs
  rw [List.dropWhile_append_of_pos (Source.Identifier.isNameChar ⟨w, hw⟩),
    Text.dropWhile_eq_self fun c hc => (hrest c hc).1] at hc
  exact (hrest c hc).2

/-! ## Blocks -/

open Source in
/-- **The line of a live block opens its namespaces.** -/
theorem run_blockLine (names : List ScopeName) (hlive : s.isLive = true)
    (hs : s.rest = blockLine names ++ rest) : run m path s =
      run m path { s.beyond (blockLine names) rest with
        braces := names.length :: s.braces
        scope := s.scope ++ names.map fun n => String.ofList n.text } := by
  let header := ' ' :: (colonized (names.map (·.text)) ++ [' ', '\x7b'])
  have hline : blockLine names = "namespace".toList ++ (header ++ ['\n']) :=
    congrArg ("namespace".toList ++ ·) (by simp [header])
  have hrest : s.rest = "namespace".toList ++ (header ++ '\n' :: rest) := by
    rw [hs, hline, List.append_assoc, List.append_assoc]
    rfl
  have hends : EndsName (header ++ '\n' :: rest) := by
    rintro _ ⟨⟩
    decide
  have hname : Text.isName "namespace".toList = true := by decide
  obtain ⟨c, tail, hcons, hstep⟩ :=
    exists_step_name m path hname hends hrest
  have hread : Header.read [] (header ++ '\n' :: rest) =
      .block (names.map fun n => String.ofList n.text) header ('\n' :: rest) := by
    have := Header.read_names names ('\n' :: rest)
    simpa [header] using this
  have hword : word path s = .ok (none,
      { (s.past "namespace".toList (header ++ '\n' :: rest)).past header ('\n' :: rest) with
        braces := names.length :: s.braces
        scope := s.scope ++ names.map fun n => String.ofList n.text }) := by
    rw [word, hrest, word_name hname hends]
    dsimp only
    rw [if_pos rfl, hlive, if_pos rfl, hread, openHeader, List.length_map]
    rfl
  rw [run_of_step hcons (hstep.trans hword), run_lineFeed rfl, hline]
  congr 1
  simp only [beyond, past, Position.past_append]

theorem declaration_of_none {kindWord : List Char} {start : Position}
    (h : Source.Call.read? (s.rest.dropWhile Text.isAsciiBlank) = none)
    (hdead : s.isLive = false) : declaration path kindWord start s = .ok (none, s) := by
  rw [declaration]
  dsimp only
  rw [h]
  dsimp only
  rw [hdead]
  rfl

/-- A name in dead text means nothing, unless a call follows it. -/
theorem run_deadName {w : List Char} (hdead : s.isLive = false) (hw : Text.isName w = true)
    (hrest : EndsName rest) (hcall : (rest.dropWhile Text.isAsciiBlank).head? ≠ some '(')
    (hs : s.rest = w ++ rest) : run m path s = run m path (s.past w rest) := by
  obtain ⟨c, tail, hcons, hstep⟩ := exists_step_name m path hw hrest hs
  have hword : word path s = .ok (none, s.past w rest) := by
    rw [word, hs, word_name hw hrest]
    dsimp only
    split
    · rw [hdead]
      rfl
    · split
      · next kindWord _ =>
        have hnone : Source.Call.read? (rest.dropWhile Text.isAsciiBlank) = none := by
          unfold Source.Call.read?
          split
          · next heq =>
            rw [heq] at hcall
            exact absurd rfl hcall
          · rfl
        exact declaration_of_none hnone hdead
      · rfl
  exact run_of_step hcons (hstep.trans hword)

/-- A space, a colon and an opening brace in dead text are stepped over. -/
theorem run_deadChar (hdead : s.isLive = false) (hstart : s.lineStart = false)
    (hc : c = ' ' ∨ c = ':' ∨ c = '\x7b') (hs : s.rest = c :: rest) :
    run m path s = run m path (s.past [c] rest) := by
  refine run_of_step hs ?_
  rcases hc with rfl | rfl | rfl
  · have hstep := (@StepCases.blank m path s ' ' rest (by decide) rfl).step_eq
    rw [hstart] at hstep
    exact hstep
  · exact (StepCases.other ⟨by decide, rfl, by simp, rfl, by decide, by decide⟩ (by decide)
      rfl).step_eq
  · exact (StepCases.deadBrace (.inl rfl) hdead).step_eq

theorem past_past (s : Scan) (a b rest rest' : List Char) :
    (s.past a rest).past b rest' = s.past (a ++ b) rest' := by
  simp only [past, Position.past_append]

open Source in
/-- The names of a header in dead text mean nothing. -/
theorem run_deadNames (names : List ScopeName) {s : Scan} (hdead : s.isLive = false)
    (hstart : s.lineStart = false)
    (hs : s.rest = colonized (names.map (·.text)) ++ ' ' :: '\x7b' :: rest) :
    run m path s =
      run m path (s.past (colonized (names.map (·.text))) (' ' :: '\x7b' :: rest)) := by
  induction names generalizing s with
  | nil =>
      obtain ⟨_, _, _, _, _, _, _⟩ := s
      cases hs
      cases hstart
      rfl
  | cons n names ih =>
      cases names with
      | nil =>
          refine run_deadName hdead n.isName ?_ (by simp [Text.isAsciiBlank]) hs
          rintro _ ⟨⟩
          decide
      | cons n' names =>
          have hrest : s.rest = n.text ++ (':' :: ':' ::
              (colonized ((n' :: names).map (·.text)) ++ ' ' :: '\x7b' :: rest)) := by
            rw [hs, List.map_cons, List.map_cons, colonized, List.append_assoc]
            rfl
          have hends : EndsName (':' :: ':' ::
              (colonized ((n' :: names).map (·.text)) ++ ' ' :: '\x7b' :: rest)) := by
            rintro _ ⟨⟩
            decide
          have hcolons : ∀ s : Scan, s.isLive = false → s.lineStart = false → ∀ rest,
              s.rest = ':' :: ':' :: rest → run m path s = run m path (s.past [':', ':'] rest) := by
            intro s hdead hstart rest hs
            rw [run_deadChar hdead hstart (by simp) hs, run_deadChar (by exact hdead) rfl (by simp) rfl,
              past_past]
            rfl
          rw [run_deadName hdead n.isName hends (by simp [Text.isAsciiBlank]) hrest,
            hcolons _ (by exact hdead) rfl _ rfl, ih (by exact hdead) rfl rfl, past_past, past_past]
          congr 2

open Source in
/-- The head of a header is no parenthesis, its blanks aside. -/
theorem head?_header (names : List ScopeName) (rest : List Char) :
    ((colonized (names.map (·.text)) ++ ' ' :: '\x7b' :: rest).dropWhile
      Text.isAsciiBlank).head? ≠ some '(' := by
  cases names with
  | nil => simp [colonized, Text.isAsciiBlank]
  | cons n names =>
      obtain ⟨c, t, hc⟩ := List.exists_cons_of_ne_nil n.ne_nil
      have hname : Text.isNameChar c = true := n.isNameChar c (by rw [hc]; exact List.mem_cons_self)
      have hblank : ¬Text.isAsciiBlank c = true := by
        intro h
        have := Text.isBlank_of_isAsciiBlank h
        rw [(ne_of_isPlain (isPlain_of_isNameChar hname)).2.1] at this
        cases this
      have hcons : ∃ t', colonized ((n :: names).map (·.text)) = c :: t' := by
        cases names with
        | nil => exact ⟨t, hc⟩
        | cons n' names => exact ⟨_, by rw [List.map_cons, List.map_cons, colonized, hc]; rfl⟩
      obtain ⟨t', ht'⟩ := hcons
      rw [ht', List.cons_append, List.dropWhile_cons_of_neg hblank]
      rintro ⟨⟩
      exact absurd hname (by decide)

open Source in
/-- A header in dead text means nothing, whichever word it starts with. -/
theorem run_deadHeader {w : List Char} (hw : Text.isName w = true) (names : List ScopeName)
    (hdead : s.isLive = false)
    (hs : s.rest = w ++ ' ' :: (colonized (names.map (·.text)) ++ ' ' :: '\x7b' :: '\n' :: rest)) :
    run m path s = run m path
      (s.beyond (w ++ ' ' :: (colonized (names.map (·.text)) ++ [' ', '\x7b', '\n'])) rest) := by
  let tail := colonized (names.map (·.text)) ++ ' ' :: '\x7b' :: '\n' :: rest
  have hends : EndsName (' ' :: tail) := by
    rintro _ ⟨⟩
    decide
  have hcall : ((' ' :: tail).dropWhile Text.isAsciiBlank).head? ≠ some '(' := by
    rw [List.dropWhile_cons_of_pos (by decide)]
    exact head?_header names _
  rw [run_deadName hdead hw hends hcall hs, run_deadChar (by exact hdead) rfl (Or.inl rfl) rfl,
    run_deadNames names (by exact hdead) rfl rfl,
    run_deadChar (by exact hdead) rfl (Or.inl rfl) rfl,
    run_deadChar (by exact hdead) rfl (by simp) rfl, run_lineFeed rfl]
  congr 1
  simp only [beyond, past, ← Position.past_append]
  simp

open Source in
/-- **The line of a dead block opens nothing.** -/
theorem run_deadBlockLine (names : List ScopeName) (hdead : s.isLive = false)
    (hs : s.rest = blockLine names ++ rest) :
    run m path s = run m path (s.beyond (blockLine names) rest) := by
  have hname : Text.isName "namespace".toList = true := by decide
  refine run_deadHeader hname names hdead (hs.trans ?_)
  unfold blockLine
  generalize "namespace".toList = w
  simp

/-! ## Declarations -/

open Source in
theorem macroWord?_render (k : Kind) : macroWord? k.render.toList = some k.word.toList := by
  cases k <;> decide

theorem read_of_parts {word : String} {inner : List Char} {kind : Kind} {args rest : List Argument}
    {element : ElementType} {typeName name : String} {scope : List String} {span : Span}
    {live : Bool} (hkind : Kind.ofWord? word = some kind)
    (hargs : Argument.readAll inner = .ok args)
    (hparts : Declaration.parts kind args = .ok (element, typeName, name, rest)) :
    Declaration.read word inner scope path span live =
      .ok ⟨kind, element, typeName, name, rest, scope, path, span, live⟩ := by
  rw [Declaration.read, hkind]
  dsimp only
  rw [hargs]
  show ((liftM (Declaration.parts kind args) : Except Stop _) >>= _) = _
  rw [hparts]
  rfl

theorem parts_eq_ok {kind : Kind} {typeName name : String} {rest : List Argument}
    {element : ElementType} (htype : ElementType.parse typeName = .ok element)
    (hname : Text.isName name.toList = true) (hcount : ¬rest.length < kind.required) :
    Declaration.parts kind (.words typeName :: .words name :: rest) =
      .ok (element, typeName, name, rest) := by
  unfold Declaration.parts
  dsimp only
  rw [hname, pure_bind, htype]
  show (if rest.length < kind.required then _ else _) = _
  rw [if_neg hcount]
  rfl

open Source in
/-- The text of a call is read as the declaration that is meant. -/
theorem read_call (b : Buffer) (path : String) (scope : List String) (span : Span) (live : Bool) :
    Declaration.read b.kind.word (Operand.listText b.call) scope path span live =
      .ok (b.declaration path scope span live) := by
  have hkind : Kind.ofWord? b.kind.word = some b.kind := by
    cases b.kind <;> decide
  have hreadAll := Operand.readAll_listText (.words b.typeFirst b.typeMore)
    (.words b.name.word [] :: b.operands)
  have hparts : Declaration.parts b.kind (Operand.meanings b.call) =
      .ok (b.element, String.ofList (Text.spaced (b.typeFirst.text :: b.typeMore.map Word.text)),
        String.ofList b.name.text, Operand.meanings b.operands) := by
    have htype : ElementType.parse
        (String.ofList (Text.spaced (b.typeFirst.text :: b.typeMore.map Word.text))) =
          .ok b.element := by
      rw [ElementType.parse, String.toList_ofList, b.type_eq]
    have hname : Text.isName (String.ofList b.name.text).toList = true := by
      rw [String.toList_ofList, b.name.isName]
    have hcount : ¬(Operand.meanings b.operands).length < b.kind.required := by
      rw [Operand.length_meanings]
      exact Nat.not_lt.2 b.enough
    have hword : Operand.meaning (.words b.name.word []) = .words (String.ofList b.name.text) := by
      rw [Operand.meaning]
      rfl
    rw [Buffer.call, Operand.meanings, Operand.meanings, hword, Operand.meaning]
    exact parts_eq_ok htype hname hcount
  exact read_of_parts hkind hreadAll hparts

theorem word_eq_declaration {w kindWord : List Char} (hw : Text.isName w = true) (hrest : EndsName rest)
    (hne : w ≠ "namespace".toList) (hkind : Source.macroWord? w = some kindWord)
    (hs : s.rest = w ++ rest) :
    word path s = declaration path kindWord s.position (s.past w rest) := by
  rw [word, hs, word_name hw hrest]
  dsimp only
  rw [if_neg hne, hkind]

/-- A call on a line of its own, with a semicolon behind it. -/
theorem declaration_of_ok {kindWord : List Char} {start : Position} {args : List Source.Operand}
    {d : Declaration}
    (hs : s.rest = '(' :: (Source.Operand.listText args ++ ')' :: ';' :: '\n' :: rest))
    (hread : Declaration.read (String.ofList kindWord) (Source.Operand.listText args) s.scope path
      ⟨start, s.position.past ('(' :: (Source.Operand.listText args ++ [')', ';']))⟩ s.isLive =
        .ok d) :
    declaration path kindWord start s =
      let s' := s.past ('(' :: (Source.Operand.listText args ++ [')', ';'])) ('\n' :: rest)
      if s.isLive then
        match s'.record d with
        | .error p => .error (.problem p)
        | .ok s'' => .ok (some d, s'')
      else .ok (some d, s') := by
  have hgap : s.rest.takeWhile Text.isAsciiBlank = [] := by
    rw [hs]
    exact List.takeWhile_cons_of_neg (by decide)
  have hafter : s.rest.dropWhile Text.isAsciiBlank = s.rest := by
    rw [hs]
    exact List.dropWhile_cons_of_neg (by decide)
  have hending : ending (';' :: '\n' :: rest) = ([';'], '\n' :: rest) := rfl
  have hwritten : [] ++ ('(' :: (Source.Operand.listText args ++ [')'])) ++ [';'] =
      '(' :: (Source.Operand.listText args ++ [')', ';']) := by simp
  rw [declaration, hgap, hafter, hs, Source.Call.read?_listText]
  dsimp only
  rw [hending]
  dsimp only
  rw [hwritten]
  have hread' : Declaration.read (String.ofList kindWord) (Source.Operand.listText args) s.scope
      path ⟨start, (s.past ('(' :: (Source.Operand.listText args ++ [')', ';']))
        ('\n' :: rest)).position⟩ s.isLive = .ok d := hread
  revert hread'
  generalize Declaration.read (String.ofList kindWord) _ s.scope path _ s.isLive = found
  rintro rfl
  rfl

open Source in
/-- **A declaration on a line of its own is yielded, unless it is live and its name is taken.** -/
theorem run_buffer (b : Buffer) (hs : s.rest = b.text ++ '\n' :: rest) : run m path s =
    (b.read path s.isLive s.scope s.position s.seen).andScan fun seen =>
      run m path { s.beyond (b.text ++ ['\n']) rest with seen := seen } := by
  have hname : ∀ k : Kind, Text.isName k.render.toList = true := by
    rintro ⟨⟩ <;> decide
  have hne : ∀ k : Kind, k.render.toList ≠ "namespace".toList := by
    rintro ⟨⟩ <;> decide
  have hrest : s.rest =
      b.kind.render.toList ++ '(' :: (Operand.listText b.call ++ ')' :: ';' :: '\n' :: rest) := by
    rw [hs, Buffer.text]
    simp
  have hends : EndsName ('(' :: (Operand.listText b.call ++ ')' :: ';' :: '\n' :: rest)) := by
    rintro _ ⟨⟩
    decide
  obtain ⟨c, tail, hcons, hstep⟩ :=
    exists_step_name m path (hname b.kind) hends hrest
  have hread := read_call b path s.scope ⟨s.position, s.position.past b.text⟩ s.isLive
  have hposition : s.position.past b.text = (s.past b.kind.render.toList
      ('(' :: (Operand.listText b.call ++ ')' :: ';' :: '\n' :: rest))).position.past
        ('(' :: (Operand.listText b.call ++ [')', ';'])) := Position.past_append _ _ _
  have hword := (word_eq_declaration (hname b.kind) hends (hne b.kind)
    (macroWord?_render b.kind) hrest).trans (declaration_of_ok rfl
      (by rw [String.ofList_toList, ← hposition]; exact hread))
  have htext : (s.past b.kind.render.toList
      ('(' :: (Operand.listText b.call ++ ')' :: ';' :: '\n' :: rest))).past
        ('(' :: (Operand.listText b.call ++ [')', ';'])) ('\n' :: rest) =
      s.past b.text ('\n' :: rest) := past_past _ _ _ _ _
  have hlives : (s.past b.kind.render.toList
      ('(' :: (Operand.listText b.call ++ ')' :: ';' :: '\n' :: rest))).isLive = s.isLive := rfl
  dsimp only at hword
  rw [htext, hlives] at hword
  have hbeyond : ∀ seen, run m path { s.past b.text ('\n' :: rest) with seen := seen } =
      run m path { s.beyond (b.text ++ ['\n']) rest with seen := seen } := by
    intro seen
    rw [run_lineFeed rfl]
    congr 1
    simp only [beyond, past, Position.past_append]
  rw [Buffer.read]
  generalize hd : b.declaration path s.scope ⟨s.position, s.position.past b.text⟩ s.isLive = d
    at hword
  have hscope : d.scope = s.scope := by rw [← hd]; rfl
  have hline : d.line = s.position.line := by rw [← hd]; rfl
  have hpath : d.path = path := by rw [← hd]; rfl
  dsimp only
  cases hlive : s.isLive with
  | false =>
      rw [hlive, if_neg Bool.false_ne_true] at hword
      rw [run_of_declaration hcons (hstep.trans hword), if_neg Bool.false_ne_true]
      exact congrArg (fun r : Result => (⟨d :: r.declarations, r.stop⟩ : Result)) (hbeyond s.seen)
  | true =>
      rw [hlive, if_pos rfl] at hword
      rw [if_pos rfl]
      have hseen : (s.past b.text ('\n' :: rest)).seen.lookup (d.scope, d.name) =
          s.seen.lookup (s.scope, d.name) := by rw [hscope]; rfl
      rw [record, hseen, hscope, hline, hpath] at hword
      cases hlookup : s.seen.lookup (s.scope, d.name) with
      | some first =>
          rw [hlookup] at hword
          exact run_of_stop hcons (hstep.trans hword)
      | none =>
          rw [hlookup] at hword
          rw [run_of_declaration hcons (hstep.trans hword)]
          exact congrArg (fun r : Result => (⟨d :: r.declarations, r.stop⟩ : Result)) (hbeyond _)

end Scan

end EmbeddedBuffers
