import EmbeddedBuffers.Proofs.Source.Crashes
import EmbeddedBuffers.Proofs.Source.Readers

/-!
# Two scans in lockstep

Two texts that differ from the start of a word on are scanned by the same steps up to that word,
unless a dead call that the one text leaves open is closed in the other. Main statement:
`Reaches.exchange`.
-/

namespace EmbeddedBuffers

open Source (StartWords)

namespace Scan

variable {m : Macros} {path : String} {s s' : Scan} {t t' : List Char}

/-- The same state before another text. -/
def withRest (s : Scan) (r : List Char) : Scan := { s with rest := r }

@[simp] theorem isLive_withRest (s : Scan) (r : List Char) : (s.withRest r).isLive = s.isLive := rfl

@[simp] theorem past_withRest (s : Scan) (r piece rest : List Char) :
    (s.withRest r).past piece rest = s.past piece rest := rfl

@[simp] theorem withRest_past (s : Scan) (piece rest r : List Char) :
    (s.past piece rest).withRest r = s.past piece r := rfl

/-! ## Declarations -/

/-- What becomes of a call that means `inner`; the scan stands behind it. -/
def settle (path : String) (kindWord : List Char) (start : Position) (inner : List Char)
    (s : Scan) : Except Stop (Option Declaration × Scan) :=
  match Declaration.read (String.ofList kindWord) inner s.scope path ⟨start, s.position⟩ s.isLive with
  | .error (.crash c) => .error (.crash c)
  | .error (.problem p) =>
    if s.isLive then .error (.problem (p.located path start.line)) else .ok (none, s)
  | .ok d =>
    if s.isLive then
      match s.record d with
      | .error p => .error (.problem p)
      | .ok s' => .ok (some d, s')
    else .ok (some d, s)

theorem declaration_of_call {kindWord tail rest : List Char} {start : Position} {call : Source.Call}
    (hcall : Source.Call.read? (s.rest.dropWhile Text.isAsciiBlank) = some call)
    (hending : ending call.rest = (tail, rest)) : declaration path kindWord start s =
      settle path kindWord start call.meaning
        (s.past (s.rest.takeWhile Text.isAsciiBlank ++ call.written ++ tail) rest) := by
  rw [declaration]
  dsimp only
  rw [hcall]
  dsimp only
  rw [hending]
  rfl

theorem rest_of_call {kindWord : List Char} {start : Position} {call : Source.Call}
    {d : Option Declaration}
    (hcall : Source.Call.read? (s.rest.dropWhile Text.isAsciiBlank) = some call)
    (h : declaration path kindWord start s = .ok (d, s')) : s'.rest = (ending call.rest).2 := by
  cases declaration_cases h with
  | uncalled hnone => cases hcall.symm.trans hnone
  | passedOver hcall' =>
      cases hcall.symm.trans hcall'
      rfl
  | live hcall' =>
      cases hcall.symm.trans hcall'
      rfl
  | dead hcall' =>
      cases hcall.symm.trans hcall'
      rfl

theorem record_withRest (s : Scan) (d : Declaration) (r : List Char) :
    (s.withRest r).record d = (s.record d).map (·.withRest r) := by
  unfold record withRest
  dsimp only
  cases s.seen.lookup (d.scope, d.name) <;> rfl

theorem settle_withRest (path : String) (kindWord inner : List Char) (start : Position) (s : Scan)
    (r : List Char) :
    settle path kindWord start inner (s.withRest r) =
      (settle path kindWord start inner s).map fun p => (p.1, p.2.withRest r) := by
  unfold settle
  simp only [record_withRest]
  show (match Declaration.read _ inner s.scope path ⟨start, s.position⟩ s.isLive with
    | .error (.crash _) => _
    | .error (.problem _) => if s.isLive then _ else _
    | .ok _ => if s.isLive then _ else _) = _
  cases Declaration.read (String.ofList kindWord) inner s.scope path ⟨start, s.position⟩ s.isLive with
  | error e =>
      cases e with
      | crash c => rfl
      | problem p => cases s.isLive <;> rfl
  | ok d =>
      cases s.isLive with
      | false => rfl
      | true =>
          cases hrecord : s.record d <;> simp [hrecord] <;> rfl

/-! ## Where the rest is exchanged -/

/-- A scan stands at a dead macro word without a call, and has one before another text. -/
structure Gains (s : Scan) (r' : List Char) : Prop where
  dead : s.isLive = false
  word : (Source.macroWord? (Source.word s.rest).1).isSome
  unclosed : s.call? = none
  closed : (s.withRest r').call?.isSome

/-- The blanks before a word are those in front of it. -/
theorem blank_append (ht : StartWords t t') (b : List Char) :
    ((b ++ t).takeWhile Text.isAsciiBlank = b.takeWhile Text.isAsciiBlank ∧
      (b ++ t).dropWhile Text.isAsciiBlank = b.dropWhile Text.isAsciiBlank ++ t) ∧
    (b ++ t').takeWhile Text.isAsciiBlank = b.takeWhile Text.isAsciiBlank ∧
      (b ++ t').dropWhile Text.isAsciiBlank = b.dropWhile Text.isAsciiBlank ++ t' := by
  have front : ∀ {r : List Char}, (∀ c, r.head? = some c → Text.isNameChar c = true) →
      (b ++ r).takeWhile Text.isAsciiBlank = b.takeWhile Text.isAsciiBlank ∧
        (b ++ r).dropWhile Text.isAsciiBlank = b.dropWhile Text.isAsciiBlank ++ r := by
    intro r hr
    have hplain : ∀ c, r.head? = some c → Text.isAsciiBlank c = false :=
      fun c hc => Source.isAsciiBlank_of_isNameChar (hr c hc)
    have hsplit := List.takeWhile_append_dropWhile (p := Text.isAsciiBlank) (l := b)
    have hspan := Text.span_append (a := b.takeWhile Text.isAsciiBlank)
      (b := b.dropWhile Text.isAsciiBlank ++ r) (fun c hc => List.mem_takeWhile_imp hc) fun c hc => by
        cases hdrop : b.dropWhile Text.isAsciiBlank with
        | nil =>
            rw [hdrop] at hc
            exact hplain c hc
        | cons d b =>
            rw [hdrop] at hc
            exact Text.head?_of_span hdrop c hc
    rw [← List.append_assoc, hsplit] at hspan
    exact hspan
  exact ⟨front fun c hc => ht.head?_isNameChar (Or.inl hc),
    front fun c hc => ht.head?_isNameChar (Or.inr hc)⟩

/-- Where no call follows, none does before the other text, or the scan is dead: a live one stops at
an open parenthesis that is not closed. -/
theorem uncalled_exchange (ht : StartWords t t') (kindWord : List Char) (start : Position)
    {b : List Char} (hs : s.rest = b ++ t)
    (hopen : ¬(s.isLive && (s.rest.dropWhile Text.isAsciiBlank).head? == some '(') = true) :
    declaration path kindWord start (s.withRest (b ++ t')) = .ok (none, s.withRest (b ++ t')) ∨
      s.isLive = false ∧
        (Source.Call.read? ((b ++ t').dropWhile Text.isAsciiBlank)).isSome := by
  obtain ⟨⟨-, hdrop⟩, -, hdrop'⟩ := blank_append ht b
  have hopens : ((s.rest.dropWhile Text.isAsciiBlank).head? == some '(') =
      (((b ++ t').dropWhile Text.isAsciiBlank).head? == some '(') := by
    rw [Bool.eq_iff_iff, beq_iff_eq, beq_iff_eq, hs, hdrop, hdrop']
    exact ht.head?_eq (by decide)
  rw [hopens] at hopen
  cases hcall' : Source.Call.read? ((b ++ t').dropWhile Text.isAsciiBlank) with
  | none =>
      left
      unfold declaration
      dsimp only
      rw [show (s.withRest (b ++ t')).rest = b ++ t' from rfl, hcall']
      dsimp only
      rw [isLive_withRest, if_neg hopen]
  | some call =>
      refine Or.inr ⟨?_, rfl⟩
      cases hlive : s.isLive with
      | false => rfl
      | true =>
          rw [hlive, Bool.true_and, beq_iff_eq] at hopen
          generalize (b ++ t').dropWhile Text.isAsciiBlank = after at hopen hcall'
          unfold Source.Call.read? at hcall'
          split at hcall'
          · exact absurd rfl hopen
          · cases hcall'

/-- A call that is closed before the exchanged text stays as it is. -/
theorem called_exchange (ht : StartWords t t') {kindWord : List Char} {start : Position}
    {call : Source.Call} {d : Option Declaration} {b b' : List Char} (hs : s.rest = b ++ t)
    (hs' : s'.rest = b' ++ t)
    (hcall : Source.Call.read? (s.rest.dropWhile Text.isAsciiBlank) = some call)
    (h : declaration path kindWord start s = .ok (d, s')) :
    declaration path kindWord start (s.withRest (b ++ t')) = .ok (d, s'.withRest (b' ++ t')) := by
  obtain ⟨⟨htake, hdrop⟩, htake', hdrop'⟩ := blank_append ht b
  obtain ⟨tail, rest, hending⟩ : ∃ tail rest, ending call.rest = (tail, rest) := ⟨_, _, rfl⟩
  obtain rfl : b' ++ t = rest := by rw [← hs', rest_of_call hcall h, hending]
  rw [declaration_of_call hcall hending] at h
  have hrest := ending_eq call.rest
  rw [hending] at hrest
  have hwritten := read?_eq hcall
  rw [hs, hdrop, ← hrest] at hwritten
  have hfront : b.dropWhile Text.isAsciiBlank = call.written ++ (tail ++ b') := by
    refine @List.append_cancel_right _ _ t _ ?_
    rw [← hwritten]
    simp only [List.append_assoc]
  have hcall' : Source.Call.read? ((s.withRest (b ++ t')).rest.dropWhile Text.isAsciiBlank) =
      some { call with rest := tail ++ (b' ++ t') } := by
    show Source.Call.read? ((b ++ t').dropWhile Text.isAsciiBlank) = _
    rw [hdrop', hfront, List.append_assoc, List.append_assoc, Source.Call.read?_exchange hcall]
  rw [declaration_of_call hcall' (ending_exchange ht hending)]
  have hsettle := settle_withRest path kindWord call.meaning start
    (s.past (s.rest.takeWhile Text.isAsciiBlank ++ call.written ++ tail) (b' ++ t)) (b' ++ t')
  rw [h, hs, htake, ← htake'] at hsettle
  exact hsettle

theorem declaration_exchange (ht : StartWords t t') {kindWord : List Char} {start : Position}
    {d : Option Declaration} {b b' : List Char} (hs : s.rest = b ++ t) (hs' : s'.rest = b' ++ t)
    (h : declaration path kindWord start s = .ok (d, s')) :
    declaration path kindWord start (s.withRest (b ++ t')) = .ok (d, s'.withRest (b' ++ t')) ∨
      (s.isLive = false ∧ Source.Call.read? (s.rest.dropWhile Text.isAsciiBlank) = none ∧
        (Source.Call.read? ((b ++ t').dropWhile Text.isAsciiBlank)).isSome) := by
  cases declaration_cases h with
  | uncalled hcall hopen =>
      obtain rfl : b = b' := List.append_cancel_right (hs.symm.trans hs')
      exact (uncalled_exchange ht kindWord start hs hopen).imp id
        fun ⟨hdead, hclosed⟩ => ⟨hdead, hcall, hclosed⟩
  | passedOver hcall => exact Or.inl (called_exchange ht hs hs' hcall h)
  | live hcall => exact Or.inl (called_exchange ht hs hs' hcall h)
  | dead hcall => exact Or.inl (called_exchange ht hs hs' hcall h)

/-! ## Words -/

theorem rest_openHeader (s : Scan) (h : Source.Header) : (s.openHeader h).rest = h.rest := by
  cases h <;> rfl

theorem openHeader_withRest (s : Scan) (h : Source.Header) (piece rest rest' r : List Char) :
    (s.past piece rest').openHeader (h.withRest r) =
      ((s.past piece rest).openHeader h).withRest r := by
  cases h <;> rfl

/-- The word of a step that does not reach the exchanged text ends before that text. -/
theorem exists_word (ht : StartWords t t') {c : Char} {a b : List Char} {d : Option Declaration}
    (hc : Text.isNameChar c = true) (hs : s.rest = c :: a ++ t) (hs' : s'.rest = b ++ t)
    (h : word path s = .ok (d, s')) : ∃ w b₀, c :: a = w ++ b₀ ∧ b₀ ≠ [] ∧
      Source.word s.rest = (w, b₀ ++ t) ∧ Source.word (c :: a ++ t') = (w, b₀ ++ t') := by
  obtain ⟨w, rest, hword⟩ : ∃ w rest, Source.word s.rest = (w, rest) := ⟨_, _, rfl⟩
  obtain ⟨b₀, rfl⟩ : ∃ b₀, rest = b₀ ++ t := by
    obtain ⟨piece, hpiece, -⟩ := ahead_behindWord h
    rw [hword] at hpiece
    exact ⟨piece ++ b, by rw [List.append_assoc, ← hs']; exact hpiece⟩
  have hsplit : c :: a = w ++ b₀ := by
    have heq := Source.word_eq s.rest
    rw [hword, hs, ← List.append_assoc] at heq
    exact (List.append_cancel_right heq).symm
  have hword' := hword
  rw [hs, List.cons_append] at hword'
  obtain ⟨hb₀, hexchange⟩ := Source.word_exchange ht hc hword'
  refine ⟨w, b₀, hsplit, hb₀, hword, ?_⟩
  rw [hsplit, List.append_assoc]
  exact hexchange

theorem wordStep_exchange (ht : StartWords t t') {c : Char} {a b : List Char}
    {d : Option Declaration} (hc : Text.isNameChar c = true) (hs : s.rest = c :: a ++ t)
    (hs' : s'.rest = b ++ t) (h : word path s = .ok (d, s')) :
    word path (s.withRest (c :: a ++ t')) = .ok (d, s'.withRest (b ++ t')) ∨
      s.Gains (c :: a ++ t') := by
  obtain ⟨w, b₀, -, -, hword, hword'⟩ := exists_word ht hc hs hs' h
  replace hword' : Source.word (s.withRest (c :: a ++ t')).rest = (w, b₀ ++ t') := hword'
  unfold word at h ⊢
  dsimp only at h ⊢
  rw [hword']
  rw [hword] at h
  dsimp only at h ⊢
  split at h
  · next hname =>
    left
    cases h
    rw [if_pos hname, isLive_withRest]
    split
    · next hlive =>
      rw [if_pos hlive, rest_openHeader] at hs'
      have hheader := Source.Header.read_eq [] (b₀ ++ t)
      rw [hs', ← List.append_assoc] at hheader
      have hexchange := @Source.Header.read_exchange [] (b₀ ++ t)
        (by rw [hs']; exact List.append_ne_nil_of_right_ne_nil _ ht.ne_nil.1) (b ++ t')
      rw [← List.append_assoc, List.append_cancel_right hheader] at hexchange
      rw [hexchange, past_withRest, openHeader_withRest]
    · next hdead =>
      rw [if_neg hdead] at hs'
      rw [List.append_cancel_right hs']
      rfl
  · next hname =>
    rw [if_neg hname]
    split at h
    · next kindWord hkind =>
      have hdeclaration := declaration_exchange (s := s.past w (b₀ ++ t)) ht rfl hs' h
      rcases hdeclaration with hdeclaration | ⟨hdead, hopen, hclosed⟩
      · exact Or.inl hdeclaration
      · right
        refine ⟨hdead, ?_, ?_, ?_⟩
        · rw [hword]
          exact Option.isSome_iff_exists.2 ⟨_, hkind⟩
        · rw [call?, hword]
          exact hopen
        · rw [call?, hword']
          exact hclosed
    · left
      cases h
      rw [List.append_cancel_right hs']
      rfl

/-! ## Steps -/

theorem closeBrace_withRest (s : Scan) (r : List Char) :
    (s.withRest r).closeBrace = s.closeBrace.withRest r := by
  obtain ⟨_, _, _, _, braces, _, _⟩ := s
  cases braces <;> rfl

theorem line_exchange (ht : StartWords t t') {a b : List Char}
    (h : (Directive.Line.read (a ++ t)).rest = b ++ t) : Directive.Line.read (a ++ t') =
      ⟨(Directive.Line.read (a ++ t)).meaning, (Directive.Line.read (a ++ t)).written, b ++ t'⟩ := by
  have hfeed := Directive.Line.head?_rest (s := a ++ t)
    (by rw [h]; exact List.append_ne_nil_of_right_ne_nil _ ht.ne_nil.1)
  have hline := Directive.Line.read_eq (a ++ t)
  rw [h] at hfeed
  cases b with
  | nil => exact absurd (ht.head?_isNameChar (Or.inl hfeed)) (by decide)
  | cons c b =>
      obtain rfl : c = '\n' := Option.some.inj hfeed
      rw [h, ← List.append_assoc] at hline
      have hexchange := Directive.Line.read_exchange h (b ++ t')
      have hfront : (Directive.Line.read (a ++ t)).written ++ '\n' :: (b ++ t') = a ++ t' := by
        have hassoc := List.append_assoc (Directive.Line.read (a ++ t)).written ('\n' :: b) t'
        rw [List.append_cancel_right hline] at hassoc
        exact hassoc.symm
      rw [hfront] at hexchange
      exact hexchange

/-- What a piece leaves of the text before the exchanged part. -/
theorem append_eq_of_split {w a b : List Char} (h : w ++ (b ++ t) = a ++ t) : w ++ b = a := by
  rw [← List.append_assoc] at h
  exact List.append_cancel_right h

theorem comment_exchange (ht : StartWords t t') {comment a b : List Char}
    (h : Source.comment? (a ++ t) = some (comment, b ++ t)) :
    Source.comment? (a ++ t') = some (comment, b ++ t') := by
  obtain rfl := append_eq_of_split (Source.comment?_eq h).1
  rw [List.append_assoc] at h ⊢
  exact Source.comment?_exchange h (ht.replaces b)

theorem literal_exchange (ht : StartWords t t') {literal a b : List Char}
    (h : Literal.split? (a ++ t) = some (literal, b ++ t)) :
    Literal.split? (a ++ t') = some (literal, b ++ t') := by
  obtain rfl := append_eq_of_split (Literal.split?_eq h).1
  rw [List.append_assoc] at h ⊢
  exact Literal.split?_exchange h (ht.replaces b)

theorem Plain.exchange (ht : StartWords t t') {c : Char} {a : List Char}
    (h : Plain s c (a ++ t)) (r : List Char) : Plain (s.withRest r) c (a ++ t') := by
  refine ⟨h.feed, h.blank, h.mark, Source.comment?_eq_none fun hc e he => ?_, h.openBrace,
    h.closeBrace⟩
  have hne := Source.head?_of_comment? h.comment hc e
  constructor
  · rintro rfl
    exact (hne ((ht.head?_eq (by decide)).2 he)).1 rfl
  · rintro rfl
    exact (hne ((ht.head?_eq (by decide)).2 he)).2 rfl

/-- Where a word stands that ends before the exchanged text, no literal comes to start. -/
theorem no_literal_exchange (ht : StartWords t t') {c : Char} {a b : List Char}
    {d : Option Declaration} (hname : Text.isNameChar c = true) (hdigit : c.isDigit = false)
    (hs : s.rest = c :: a ++ t) (hs' : s'.rest = b ++ t) (h : word path s = .ok (d, s'))
    (hliteral : Literal.split? (c :: a ++ t) = none) : Literal.split? (c :: a ++ t') = none := by
  obtain ⟨w, b₀, hfront, hb₀, hword, -⟩ := exists_word ht hname hs hs' h
  obtain ⟨e, b₀, rfl⟩ := List.exists_cons_of_ne_nil hb₀
  have he : Text.isNameChar e = false := by
    have hdrop : s.rest.dropWhile Text.isNameChar = e :: b₀ ++ t := by
      rw [hs, List.cons_append, Source.word, hdigit] at hword
      rw [hs]
      exact congrArg Prod.snd hword
    exact Text.head?_of_span hdrop e rfl
  rw [hfront, List.append_assoc] at hliteral ⊢
  exact Literal.split?_eq_none_exchange he hliteral

/-- **A step stays the same when a word behind it is exchanged**, unless a dead call is gained. -/
theorem step_exchange (ht : StartWords t t') {c : Char} {a b : List Char} {d : Option Declaration}
    (hs : s.rest = c :: a ++ t) (hs' : s'.rest = b ++ t)
    (h : step m path s c (a ++ t) = .ok (d, s')) :
    step m path (s.withRest (c :: a ++ t')) c (a ++ t') = .ok (d, s'.withRest (b ++ t')) ∨
      s.Gains (c :: a ++ t') := by
  cases step_cases h with
  | lineFeed hfeed =>
      obtain rfl : a = b := List.append_cancel_right hs'
      exact Or.inl (StepCases.step_eq (.lineFeed hfeed))
  | blank hfeed hblank =>
      obtain rfl : a = b := List.append_cancel_right hs'
      exact Or.inl (StepCases.step_eq (.blank hfeed hblank))
  | directive hmark hstart happly =>
      have hline := line_exchange ht hs'
      have hstep := (@StepCases.directive m path (s.withRest (c :: a ++ t')) c (a ++ t') _ hmark
        hstart (by rw [hline]; exact happly)).step_eq
      rw [hline] at hstep
      exact Or.inl hstep
  | @comment comment after hcomment =>
      obtain rfl : after = b ++ t := hs'
      rw [← List.cons_append] at hcomment
      exact Or.inl (StepCases.step_eq (.comment (comment_exchange ht hcomment)))
  | openBlock hopen hlive =>
      obtain rfl : a = b := List.append_cancel_right hs'
      refine Or.inl (StepCases.step_eq ?_)
      exact .openBlock (s := s.withRest _) hopen hlive
  | closeBlock hclose hlive =>
      obtain rfl : a = b := List.append_cancel_right ((rest_closeBrace _).symm.trans hs')
      refine Or.inl (StepCases.step_eq ?_)
      rw [← closeBrace_withRest]
      exact .closeBlock (s := s.withRest _) hclose hlive
  | deadBrace hbrace hdead =>
      obtain rfl : a = b := List.append_cancel_right hs'
      refine Or.inl (StepCases.step_eq ?_)
      exact .deadBrace (s := s.withRest _) hbrace hdead
  | @literal literal after hplain hstarts hliteral =>
      obtain rfl : after = b ++ t := hs'
      rw [← List.cons_append] at hliteral
      refine Or.inl (StepCases.step_eq ?_)
      exact .literal (hplain.exchange ht _) hstarts (literal_exchange ht hliteral)
  | word hplain hname hliteral h =>
      refine (wordStep_exchange ht hname hs hs' h).imp (fun hword => StepCases.step_eq ?_) id
      exact .word (hplain.exchange ht _) hname
        (fun hdigit => no_literal_exchange ht hname hdigit hs hs' h (hliteral hdigit)) hword
  | other hplain hquote hname =>
      obtain rfl : a = b := List.append_cancel_right hs'
      refine Or.inl (StepCases.step_eq ?_)
      exact .other (hplain.exchange ht _) hquote hname

/-! ## Runs -/

/-- Two scans of texts that go on after `a` with `t` and with `t'` come the same way to a dead call
that the first text leaves open and the second closes. -/
def Overtakes (m : Macros) (path : String) (s : Scan) (a t t' : List Char) : Prop :=
  ∃ ds s' b, Reaches m path s ds s' ∧
    Reaches m path (s.withRest (a ++ t')) ds (s'.withRest (b ++ t')) ∧
    s'.rest = b ++ t ∧ s'.Gains (b ++ t')

/-- **Two scans go in lockstep up to the word where their texts begin to differ**, unless the one
text closes a dead call before it that the other leaves open. -/
theorem Reaches.exchange (ht : StartWords t t') {ds : List Declaration} {a : List Char}
    (h : Reaches m path s ds s') (hs : s.rest = a ++ t) (hs' : s'.rest = t) :
    Reaches m path (s.withRest (a ++ t')) ds (s'.withRest t') ∨ Overtakes m path s a t t' := by
  induction h generalizing a with
  | refl s =>
      left
      obtain rfl : a = [] := List.append_left_eq_self.1 (hs.symm.trans hs')
      exact .refl _
  | @step s s₁ s₂ c rest d ds hrest hstep hmore ih =>
      obtain ⟨piece, hpiece, -⟩ := hmore.ahead
      rw [hs'] at hpiece
      have hlength := length_step_lt hrest hstep
      obtain ⟨e, a, rfl⟩ : ∃ e a', a = e :: a' := by
        refine List.exists_cons_of_ne_nil fun hnil => ?_
        rw [hs, hpiece, hnil, List.nil_append, List.length_append] at hlength
        omega
      obtain ⟨rfl, rfl⟩ : e = c ∧ a ++ t = rest := List.cons.inj (hs.symm.trans hrest)
      rcases step_exchange ht hs hpiece hstep with hstep' | hgains
      · rcases ih hpiece hs' with hmore' | ⟨ds', s', b, hreaches, hreaches', hb, hgains⟩
        · exact Or.inl (.step rfl hstep' hmore')
        · exact Or.inr
            ⟨_, s', b, .step hrest hstep hreaches, .step rfl hstep' hreaches', hb, hgains⟩
      · exact Or.inr ⟨[], s, e :: a, .refl s, .refl _, hs, hgains⟩

end Scan

end EmbeddedBuffers
