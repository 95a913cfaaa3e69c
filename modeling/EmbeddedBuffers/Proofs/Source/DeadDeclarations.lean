import EmbeddedBuffers.Proofs.Source.Lockstep

/-!
# Dead declarations

A dead declaration yields nothing live, is no error, however malformed it is, and leaves all but
the cursor of a scan as it is: it takes the call behind its macro word, and breaks off where reading
the arguments does. So replacing the word by one that means nothing changes what a scan yields
exactly if the text behind the call is read otherwise than the text behind the word. Main statement:
`scan_deadWord`.
-/

namespace EmbeddedBuffers

open Source (StartWords)

namespace Scan

variable {m : Macros} {path : String} {s s' : Scan}

/-- What is seen of a scan: its live declarations and its end. -/
def Result.visible (r : Result) : Result := ⟨r.declarations.filter (·.live), r.stop⟩

/-! ## Steps at dead words -/

theorem settle_dead (path : String) (kindWord inner : List Char) (start : Position)
    (hdead : s.isLive = false) :
    (∃ k, settle path kindWord start inner s = .error (.crash k)) ∨
      ∃ d : Option Declaration, (∀ x ∈ d, x.live = false) ∧
        settle path kindWord start inner s = .ok (d, s) := by
  unfold settle
  cases hread : Declaration.read (String.ofList kindWord) inner s.scope path ⟨start, s.position⟩
      s.isLive with
  | error e =>
      cases e with
      | crash k => exact Or.inl ⟨k, rfl⟩
      | problem p =>
          refine Or.inr ⟨none, fun x hx => (nomatch hx), ?_⟩
          dsimp only
          rw [hdead]
          rfl
  | ok d =>
      refine Or.inr ⟨some d, ?_, ?_⟩
      · rintro _ ⟨⟩
        rw [(Declaration.place_of_read hread).2, hdead]
      · dsimp only
        rw [hdead]
        rfl

variable {kindWord w w' post : List Char} {c : Char} {rest : List Char}

/-- What the word of a macro starts with. -/
theorem exists_of_macroWord? (hw : Source.macroWord? w = some kindWord) :
    ∃ v, w = 'B' :: v ∧ 3 ≤ v.length := by
  unfold Source.macroWord? at hw
  split at hw
  · cases hw
  · next v hv =>
    split at hw
    · cases hw
    · next v' hv' =>
      refine ⟨'P' :: v, Text.strip?_eq_some hv, ?_⟩
      rw [Text.stripEnd?_eq_some hv', List.length_cons, List.length_append]
      show 3 ≤ v'.length + 6 + 1
      omega

/-- A macro word is a name that ends where no character of a name follows. -/
theorem name_of_macroWord? (hw : Source.macroWord? w = some kindWord)
    (hword : Source.word s.rest = (w, post)) : (∀ c ∈ w, Text.isNameChar c = true) ∧
      ∀ c, post.head? = some c → Text.isNameChar c = false := by
  obtain ⟨v, rfl, -⟩ := exists_of_macroWord? hw
  have hrest : s.rest = 'B' :: (v ++ post) := by
    have heq := Source.word_eq s.rest
    rw [hword] at heq
    exact heq.symm
  have hname : Source.word s.rest =
      (s.rest.takeWhile Text.isNameChar, s.rest.dropWhile Text.isNameChar) := by
    rw [hrest]
    rfl
  rw [hname] at hword
  obtain ⟨htake, hdrop⟩ := Prod.mk.inj hword
  refine ⟨?_, Text.head?_of_span hdrop⟩
  rw [← htake]
  exact fun c hc => List.mem_takeWhile_imp hc

/-- **What a dead macro word does**: without a call nothing, and with one it goes behind the call,
unless reading the arguments breaks off. -/
theorem run_deadWord (m : Macros) (path : String) (hdead : s.isLive = false)
    (hw : Source.macroWord? w = some kindWord)
    (hword : Source.word s.rest = (w, post)) :
    (s.call? = none → run m path s = run m path (s.past w post)) ∧
    (s.Breaks → run m path s = ⟨[], some (.crash .brokenCharacter)⟩) ∧
    ∀ call, s.call? = some call → ¬ s.Breaks →
      (run m path s).visible = (run m path ((s.past w post).behind call)).visible := by
  obtain ⟨c, rest, hs⟩ : ∃ c rest, s.rest = c :: rest := by
    refine List.exists_cons_of_ne_nil fun hnil => ?_
    rw [hnil] at hword
    cases hword
    cases hw
  have hstep : step m path s c rest = declaration path kindWord s.position (s.past w post) := by
    have hdeclaration := @step_declaration m path s c rest kindWord hs (by rw [hword]; exact hw)
    rw [hword] at hdeclaration
    exact hdeclaration
  have hcall? : s.call? = Source.Call.read? ((s.past w post).rest.dropWhile Text.isAsciiBlank) := by
    rw [call?, hword]
    rfl
  refine ⟨fun hnone => ?_, fun hbreaks => ?_, fun call hcall hwhole => ?_⟩
  · refine run_of_step hs (hstep.trans ?_)
    exact declaration_of_none (hcall?.symm.trans hnone) hdead
  · exact run_of_stop hs ((step_eq_crash_iff hs).2 ⟨rfl, hbreaks⟩)
  · obtain ⟨tail, after, hending⟩ : ∃ tail after, ending call.rest = (tail, after) := ⟨_, _, rfl⟩
    have hbehind : (s.past w post).past
        ((s.past w post).rest.takeWhile Text.isAsciiBlank ++ call.written ++ tail) after =
        (s.past w post).behind call := by
      rw [behind, hending]
    have hsettle : step m path s c rest = settle path kindWord s.position call.meaning
        ((s.past w post).behind call) := by
      rw [hstep, declaration_of_call (hcall?.symm.trans hcall) hending, hbehind]
    have hdead' : ((s.past w post).behind call).isLive = false := hdead
    rcases settle_dead path kindWord call.meaning s.position hdead' with
      ⟨k, hcrash⟩ | ⟨d, hd, hok⟩
    · exact absurd ((step_eq_crash_iff hs).1 (hsettle.trans hcrash)).2 hwhole
    · cases d with
      | none => rw [run_of_step hs (hsettle.trans hok)]
      | some d =>
          rw [run_of_declaration hs (hsettle.trans hok), Result.visible, Result.visible,
            List.filter_cons_of_neg (by simp [hd d rfl])]

/-- A dead name that is no macro does nothing. -/
theorem run_deadOther (hdead : s.isLive = false) (hw : Text.isName w = true)
    (hkind : Source.macroWord? w = none) (hlength : 4 ≤ w.length)
    (hpost : ∀ c, post.head? = some c → Text.isNameChar c = false) (hs : s.rest = w ++ post) :
    run m path s = run m path (s.past w post) := by
  have hsplit : Literal.split? (w ++ post) = none :=
    Literal.split?_eq_none_of_word (Source.Identifier.isNameChar ⟨w, hw⟩) hlength
  obtain ⟨c, tail, hcons, hstep⟩ := exists_step_word m path hw hsplit hs
  have hword : word path s = .ok (none, s.past w post) := by
    rw [word, hs, word_of_isName hw hpost]
    dsimp only
    rw [hdead, hkind]
    split <;> rfl
  exact run_of_step hcons (hstep.trans hword)

/-! ## Exchanging a dead macro word -/

theorem Result.visible_append (ds : List Declaration) (r r' : Result) :
    Result.visible ⟨ds ++ r.declarations, r.stop⟩ =
        Result.visible ⟨ds ++ r'.declarations, r'.stop⟩ ↔ r.visible = r'.visible := by
  simp only [Result.visible, List.filter_append, Result.mk.injEq, List.append_cancel_left_eq]

/-- **Exchanging a dead macro word.** A scan meets the word `w` of a macro in dead text, and `w'` is
another name of the same length. The scan of the text with `w'` goes the same way up to the word,
unless it closes an earlier dead call that is open in the other text, as a raw string in that call
can whose delimiter holds the word. Otherwise it yields the same live declarations and the same end
if no call follows the word, or one that is not closed; where reading the arguments of the call
breaks off, only if it breaks off too and yields nothing live before; and behind any other call
exactly if the text behind the call yields the same as the text behind the word. -/
theorem scan_deadWord (m : Macros) (path : String) {pre w w' post kindWord : List Char}
    {ds : List Declaration} {s : Scan} (hkind : Source.macroWord? w = some kindWord)
    (hname : Text.isName w' = true) (hother : Source.macroWord? w' = none)
    (hlength : w'.length = w.length)
    (hmeets : Reaches m path (.ofText (pre ++ (w ++ post))) ds s)
    (hword : Source.word s.rest = (w, post)) (hdead : s.isLive = false) :
    Overtakes m path (.ofText (pre ++ (w ++ post))) pre (w ++ post) (w' ++ post) ∨
      let scanned := scan m path (String.ofList (pre ++ (w ++ post)))
      let exchanged := scan m path (String.ofList (pre ++ (w' ++ post)))
      let skipped := run m path (s.past w post)
      (s.call? = none → exchanged.visible = scanned.visible) ∧
      (s.Breaks → (exchanged.visible = scanned.visible ↔
        skipped.visible = ⟨[], some (.crash .brokenCharacter)⟩)) ∧
      ∀ call, s.call? = some call → ¬ s.Breaks → (exchanged.visible = scanned.visible ↔
        skipped.visible = (run m path ((s.past w post).behind call)).visible) := by
  have hrest : s.rest = w ++ post := by
    have heq := Source.word_eq s.rest
    rw [hword] at heq
    exact heq.symm
  obtain ⟨hchars, hpost⟩ := name_of_macroWord? hkind hword
  have hchars' := Source.Identifier.isNameChar ⟨w', hname⟩
  obtain ⟨v, hv, hlong⟩ := exists_of_macroWord? hkind
  have hlong' : 4 ≤ w'.length := by
    rw [hlength, hv, List.length_cons]
    omega
  have hstarts : StartWords (w ++ post) (w' ++ post) := by
    have hne : w' ≠ [] := List.length_pos_iff.1 (Nat.lt_of_lt_of_le (by decide) hlong')
    obtain ⟨c', v', rfl⟩ := List.exists_cons_of_ne_nil hne
    exact ⟨⟨'B', v ++ post, by rw [hv]; rfl, by decide⟩,
      ⟨c', v' ++ post, rfl, hchars' c' List.mem_cons_self⟩⟩
  rcases hmeets.exchange hstarts rfl hrest with hmeets' | hovertakes
  swap
  · exact Or.inl hovertakes
  right
  have hscanned : scan m path (String.ofList (pre ++ (w ++ post))) =
      ⟨ds ++ (run m path s).declarations, (run m path s).stop⟩ := by
    rw [scan, String.toList_ofList, hmeets.run_eq]
  have hskipped : run m path (s.withRest (w' ++ post)) = run m path (s.past w post) := by
    have hpast : (s.withRest (w' ++ post)).past w' post = s.past w post := by
      simp only [withRest, past, Position.past_word hchars', Position.past_word hchars, hlength]
    rw [← hpast]
    exact @run_deadOther m path (s.withRest (w' ++ post)) w' post hdead hname hother hlong' hpost
      rfl
  have hexchanged : scan m path (String.ofList (pre ++ (w' ++ post))) =
      ⟨ds ++ (run m path (s.past w post)).declarations, (run m path (s.past w post)).stop⟩ := by
    rw [scan, String.toList_ofList, ← hskipped]
    exact hmeets'.run_eq
  have hiff : (scan m path (String.ofList (pre ++ (w' ++ post)))).visible =
      (scan m path (String.ofList (pre ++ (w ++ post)))).visible ↔
      (run m path (s.past w post)).visible = (run m path s).visible := by
    rw [hscanned, hexchanged, Result.visible_append]
  obtain ⟨hnone, hbreaks, hcall⟩ := run_deadWord m path hdead hkind hword
  refine ⟨fun h => hiff.2 ?_, fun h => hiff.trans ?_, fun call h hwhole => hiff.trans ?_⟩
  · rw [hnone h]
  · rw [hbreaks h]
    rfl
  · rw [hcall call h hwhole]

/-- A dead declaration whose call takes the line that closes its group. -/
theorem scan_deadWord_endif :
    (scan .empty "a.h" "#ifdef A\nBPDataXuffer(\n#endif )\n").visible ≠
      (scan .empty "a.h" "#ifdef A\nBPDataBuffer(\n#endif )\n").visible := by
  let group : Directive.Group := ⟨false, true, false, false, 1, .ifDefined⟩
  let text := "BPDataBuffer(\n#endif )\n".toList
  let text' := "BPDataXuffer(\n#endif )\n".toList
  let post := "(\n#endif )\n".toList
  let s : Scan := ⟨Position.start.past "#ifdef A\n".toList, text, true, [group], [], [], []⟩
  let call : Source.Call := ⟨"\n#endif ".toList, "(\n#endif )".toList, ['\n']⟩
  have hmeets : Reaches .empty "a.h" (.ofText ("#ifdef A\n".toList ++ text)) [] s :=
    @reaches_directive _ _ _ "ifdef A".toList text [group] rfl rfl (by decide) (by decide)
      (by decide) rfl
  have hcall : s.call? = some call := by
    show (Source.Call.inside? 0 false ('\n' :: ("#endif".toList ++ ' ' :: ')' :: ['\n']))).map
      (Source.Call.cons [] ['(']) = _
    rw [Source.Call.inside?_cons (Source.Call.literalAt?_eq_none (by decide)) rfl,
      if_neg (by decide), if_neg (by decide),
      show Text.isNameChar '\n' = false by decide,
      Source.Call.inside?_plain (by decide) (by decide) (Source.separated_cons (Or.inl rfl) _),
      Source.Call.inside?_separator (Or.inl rfl),
      Source.Call.inside?_cons (Source.Call.literalAt?_eq_none (by decide)) rfl, if_pos rfl]
    rfl
  have hwhole : ¬ s.Breaks := by
    rintro ⟨kindWord, call', -, hcall', -, -, before, c, after, hbare, hbeyond, -⟩
    obtain rfl : call = call' := Option.some.inj (hcall.symm.trans hcall')
    have hmem : c ∈ call.meaning := Argument.bare_subset false call.meaning (by simp [hbare])
    have hall : ∀ d ∈ call.meaning, d.toNat < 128 := by decide
    exact absurd (hall c hmem) (Nat.not_lt.2 hbeyond)
  have hovertakes : ¬ Overtakes .empty "a.h" (.ofText ("#ifdef A\n".toList ++ text))
      "#ifdef A\n".toList text text' := by
    rintro ⟨ds, s', b, hreaches, -, hb, hgains⟩
    obtain ⟨before, hbefore, -⟩ := hreaches.exists_append
    rw [hb, ← List.append_assoc] at hbefore
    have hdrop : b = ("#ifdef A\n".toList).drop before.length := by
      rw [List.append_cancel_right hbefore, List.drop_left]
    have hlength : before.length < 10 := by
      have hlength := congrArg List.length (List.append_cancel_right hbefore)
      rw [List.length_append] at hlength
      have hpre : ("#ifdef A\n".toList).length = 9 := rfl
      omega
    have hall : ∀ n < 10, ("#ifdef A\n".toList).drop n = [] ∨
        Source.macroWord? (Source.word (("#ifdef A\n".toList).drop n ++ text)).1 = none := by decide
    rcases hall before.length hlength with hend | hnone
    · have hopen := hgains.unclosed
      rw [call?, hb, hdrop, hend] at hopen
      exact absurd (hopen.symm.trans hcall) (by simp)
    · have hword := hgains.word
      rw [hb, hdrop, hnone] at hword
      cases hword
  have hskipped : run .empty "a.h" (s.past "BPDataBuffer".toList post) = ⟨[], none⟩ := by
    have hstep : step .empty "a.h" (s.past "BPDataBuffer".toList post) '(' "\n#endif )\n".toList =
        .ok (none, (s.past "BPDataBuffer".toList post).past ['('] "\n#endif )\n".toList) := rfl
    rw [run_of_step rfl hstep, @run_lineFeed _ _ _ "#endif )\n".toList rfl,
      @run_directive _ _ _ [] "endif )".toList rfl rfl (by decide) (by decide) (by decide)]
    exact run_end rfl rfl
  have hbehind : run .empty "a.h" ((s.past "BPDataBuffer".toList post).behind call) =
      ⟨[], some (.problem (.unpairedDirective (.atLine "a.h" 1)
        (Directive.Fault.neverClosed .ifDefined).message))⟩ := by
    rw [@run_lineFeed _ _ _ [] rfl]
    exact @run_unclosed _ _ _ group [] rfl rfl
  have hword : Source.word s.rest = ("BPDataBuffer".toList, post) := by decide
  obtain ⟨-, -, hiff⟩ := (@scan_deadWord .empty "a.h" "#ifdef A\n".toList "BPDataBuffer".toList
    "BPDataXuffer".toList post "Data".toList [] s (by decide) (by decide) (by decide) (by decide)
    hmeets hword rfl).resolve_left hovertakes
  intro heq
  have hsame := (hiff call hcall hwhole).1 heq
  rw [hskipped, hbehind] at hsame
  cases hsame

/-- An earlier call that is closed when the word is exchanged. A quote behind a digit is a part of a
number for the scan, but inside a call a raw string starts behind it: so the delimiter of the string
can hold the word, and the call its end only with the other word. -/
theorem visible_ne_of_overtaken :
    let pre := "#ifdef A\nBPDataBuffer(1'R\"\n".toList
    let post := "//(\n#endif )\nBPDataXuffer//\")".toList
    let text := pre ++ ("BPDataBuffer".toList ++ post)
    let text' := pre ++ ("BPDataXuffer".toList ++ post)
    ∃ s, Reaches .empty "a.h" (.ofText text) [] s ∧ s.isLive = false ∧
      Source.word s.rest = ("BPDataBuffer".toList, post) ∧ s.call? = none ∧
      (scan .empty "a.h" (String.ofList text')).visible ≠
        (scan .empty "a.h" (String.ofList text)).visible := by
  intro pre post text text'
  let group : Directive.Group := ⟨false, true, false, false, 1, .ifDefined⟩
  let here := "BPDataBuffer".toList ++ post
  let call := "(1'R\"\n".toList ++ here
  let atCall : Scan := ⟨Position.start.past "#ifdef A\n".toList, "BPDataBuffer".toList ++ call,
    true, [group], [], [], []⟩
  let inCall := atCall.past "BPDataBuffer".toList call
  have hgroup : Reaches .empty "a.h" (.ofText text) [] atCall :=
    @reaches_directive _ _ _ "ifdef A".toList ("BPDataBuffer".toList ++ call) [group] rfl rfl
      (by decide) (by decide) (by decide) rfl
  have hopen : atCall.call? = none := Option.isNone_iff_eq_none.1 (by decide +kernel)
  have hword : Reaches .empty "a.h" atCall [] inCall := by
    have hstep := @step_declaration .empty "a.h" atCall 'B' ("PDataBuffer".toList ++ call)
      "Data".toList rfl (by decide)
    exact .single rfl (hstep.trans (declaration_of_none hopen rfl))
  -- what is no call is scanned piece by piece: the parenthesis, the number, and a literal that ends
  -- with its line
  let inNumber := inCall.past ['('] ("1'R\"\n".toList ++ here)
  let inLiteral := inNumber.past "1'R".toList ("\"\n".toList ++ here)
  let inFeed := inLiteral.past ['"'] ('\n' :: here)
  have hparen : Reaches .empty "a.h" inCall [] inNumber :=
    @Reaches.single _ _ _ _ '(' ("1'R\"\n".toList ++ here) none rfl rfl
  have hnumber : Reaches .empty "a.h" inNumber [] inLiteral :=
    @Reaches.single _ _ _ _ '1' ("'R\"\n".toList ++ here) none rfl rfl
  have hliteral : Reaches .empty "a.h" inLiteral [] inFeed :=
    @Reaches.single _ _ _ _ '"' ('\n' :: here) none rfl rfl
  have hfeed : Reaches .empty "a.h" inFeed [] (inFeed.beyond ['\n'] here) :=
    .single rfl (step_lineFeed _ _ _ _)
  have hscanned : (scan .empty "a.h" (String.ofList text)).stop.isNone = true := by decide +kernel
  have hexchanged : (scan .empty "a.h" (String.ofList text')).stop.isNone = false := by
    decide +kernel
  refine ⟨_, ((((hgroup.trans hword).trans hparen).trans hnumber).trans hliteral).trans hfeed, rfl,
    by decide, Option.isNone_iff_eq_none.1 (by decide +kernel), fun heq => ?_⟩
  have hstop := congrArg Result.stop heq
  dsimp only [Result.visible] at hstop
  rw [hstop, hscanned] at hexchanged
  cases hexchanged

end Scan

end EmbeddedBuffers
