import EmbeddedBuffers.Proofs.Source.Steps
import EmbeddedBuffers.Proofs.Source.StrayCharacters

/-!
# How a scan ends

A scan of any text comes to an end: every declaration that it yields takes a piece of the text, and
its cursor stands between two characters all the way. It breaks off exactly where it meets a call of
a known kind, live or not, with a character beyond ASCII outside the literals of its arguments. Main
statement: `scan_course`.
-/

namespace EmbeddedBuffers.Scan

variable {m : Macros} {path : String} {s s' : Scan} {c : Char} {rest : List Char} {k : Crash}

/-- The call behind the word that a scan stands at. -/
def call? (s : Scan) : Option Source.Call :=
  Source.Call.read? ((Source.word s.rest).2.dropWhile Text.isAsciiBlank)

/-- The scan stands at the macro of a known kind, and the arguments of the call behind it have a
stray character. -/
def Breaks (s : Scan) : Prop :=
  ∃ kindWord call, Source.macroWord? (Source.word s.rest).1 = some kindWord ∧
    s.call? = some call ∧ (Kind.ofWord? (String.ofList kindWord)).isSome ∧
    Text.isAllBlank call.meaning = false ∧ Argument.Stray [] false call.meaning

/-! ## Where a step breaks off -/

theorem declaration_eq_crash_iff {kindWord : List Char} {start : Position} :
    declaration path kindWord start s = .error (.crash k) ↔
      k = .brokenCharacter ∧ ∃ call,
        Source.Call.read? (s.rest.dropWhile Text.isAsciiBlank) = some call ∧
        (Kind.ofWord? (String.ofList kindWord)).isSome ∧ Text.isAllBlank call.meaning = false ∧
        Argument.Stray [] false call.meaning := by
  have hread : ∀ call, readCall path kindWord start s call = .error (.crash k) ↔
      k = .brokenCharacter ∧ (Kind.ofWord? (String.ofList kindWord)).isSome ∧
        Text.isAllBlank call.meaning = false ∧ Argument.Stray [] false call.meaning :=
    fun call => Declaration.read_eq_crash_iff
  constructor
  · intro h
    cases declaration_cases h with
    | broken hcall hbroken =>
        obtain ⟨hk, hstray⟩ := (hread _).1 hbroken
        exact ⟨hk, _, hcall, hstray⟩
  · rintro ⟨hk, call, hcall, hstray⟩
    have hbroken := (hread call).2 ⟨hk, hstray⟩
    unfold readCall behind at hbroken
    rw [declaration]
    dsimp only
    rw [hcall]
    dsimp only
    rw [hbroken]

/-- A macro word is read as a declaration. -/
theorem step_declaration {kindWord : List Char} (hs : s.rest = c :: rest)
    (h : Source.macroWord? (Source.word s.rest).1 = some kindWord) :
    step m path s c rest = declaration path kindWord s.position
      (s.past (Source.word s.rest).1 (Source.word s.rest).2) := by
  have hword := Source.word_eq s.rest
  have hname : (Source.word s.rest).1 ≠ "namespace".toList := by
    intro heq
    have hnone : Source.macroWord? "namespace".toList = none := by decide
    rw [heq, hnone] at h
    cases h
  obtain ⟨w, hw⟩ : ∃ w, (Source.word s.rest).1 = 'B' :: w := by
    unfold Source.macroWord? at h
    split at h
    · cases h
    · next w hw => exact ⟨'P' :: w, Text.strip?_eq_some hw⟩
  obtain rfl : 'B' = c := by
    rw [hw, hs] at hword
    exact (List.cons.inj hword).1
  have hstep : step m path s 'B' rest = word path s :=
    (StepCases.word (plain_of_isNameChar s rfl rest) rfl
      (fun _ => Literal.split?_eq_none_of_head (by decide) rest) rfl).step_eq
  rw [hstep, word]
  dsimp only
  rw [if_neg hname, h]

/-- **A step breaks off exactly at a call with a stray character.** -/
theorem step_eq_crash_iff (hs : s.rest = c :: rest) :
    step m path s c rest = .error (.crash k) ↔ k = .brokenCharacter ∧ s.Breaks := by
  by_cases hknown : ∃ kindWord, Source.macroWord? (Source.word s.rest).1 = some kindWord
  · obtain ⟨kindWord, hknown⟩ := hknown
    rw [step_declaration hs hknown, declaration_eq_crash_iff]
    refine and_congr_right fun _ => ?_
    constructor
    · rintro ⟨call, hcall⟩
      exact ⟨kindWord, call, hknown, hcall⟩
    · rintro ⟨kindWord', call, hknown', hcall⟩
      rw [hknown] at hknown'
      cases hknown'
      exact ⟨call, hcall⟩
  · constructor
    · intro h
      cases step_cases h with
      | word _ _ _ h =>
          cases word_cases h with
          | declared _ hkind => exact absurd ⟨_, hkind⟩ hknown
    · rintro ⟨-, kindWord, call, hkind, -⟩
      exact absurd ⟨kindWord, hkind⟩ hknown

/-! ## Whole scans -/

/-- A declaration is yielded after steps that yield nothing. -/
theorem reaches_of_next? {d : Declaration} (h : next? m path s = .ok (some (d, s'))) :
    Reaches m path s [d] s' := by
  fun_induction next? m path s with
  | case1 => cases h
  | case2 => cases h
  | case3 => cases h
  | case4 s c rest hs d' s'' hstep =>
      cases h
      exact .single hs hstep
  | case5 s c rest hs s'' hstep ih => exact .step hs hstep (ih h)

/-- **How a scan goes.** It takes steps to the end of the text or to one that stops it. Every state
on the way stands behind a piece of the text, at the position of the end of that piece, and a
declaration that is yielded there takes another piece. A scan breaks off exactly if it reaches a
call with a stray character. -/
theorem scan_course (m : Macros) (path source : String) :
    (∃ s, Reaches m path (.ofText source.toList) (scan m path source).declarations s ∧
      StopsWith m path s (scan m path source).stop) ∧
    (∀ ds s, Reaches m path (.ofText source.toList) ds s →
      (∃ before, source.toList = before ++ s.rest ∧ s.position = Position.start.past before ∧
        s.position.offset = byteLength before) ∧
      ∀ d s', next? m path s = .ok (some (d, s')) →
        (∃ piece ≠ [], s.rest = piece ++ s'.rest) ∧ s.position.offset < s'.position.offset) ∧
    ∀ k, (scan m path source).stop = some (.crash k) ↔
      k = .brokenCharacter ∧ ∃ ds s, Reaches m path (.ofText source.toList) ds s ∧ s.Breaks := by
  obtain ⟨last, hlast, hstops⟩ := exists_reaches_end m path (.ofText source.toList)
  refine ⟨⟨last, hlast, hstops⟩, fun ds s hs => ⟨?_, fun d s' hnext => ?_⟩, fun k => ⟨?_, ?_⟩⟩
  · obtain ⟨before, hsource, hposition⟩ := hs.exists_append
    refine ⟨before, hsource, hposition, ?_⟩
    rw [hposition, Position.offset_past]
    exact Nat.zero_add _
  · obtain ⟨piece, hrest, hposition⟩ := (reaches_of_next? hnext).ahead
    have hne : piece ≠ [] := by
      rintro rfl
      exact absurd (congrArg List.length hrest) (Nat.ne_of_gt (length_next?_lt hnext))
    refine ⟨⟨piece, hne, hrest⟩, ?_⟩
    rw [hposition, Position.offset_past]
    exact Nat.lt_add_of_pos_right (byteLength_pos hne)
  · intro hstop
    have hstop : (run m path (.ofText source.toList)).stop = some (.crash k) := hstop
    rw [hstop] at hstops
    unfold StopsWith at hstops
    split at hstops
    · cases hgroups : last.groups with
      | nil =>
          rw [hgroups] at hstops
          cases hstops
      | cons g groups =>
          rw [hgroups] at hstops
          cases hstops
    · next c rest hrest =>
      obtain ⟨e, hstep, heq⟩ := hstops
      cases heq
      obtain ⟨hk, hbreaks⟩ := (step_eq_crash_iff hrest).1 hstep
      exact ⟨hk, _, last, hlast, hbreaks⟩
  · rintro ⟨rfl, ds, s, hs, hbreaks⟩
    cases hrest : s.rest with
    | nil =>
        obtain ⟨kindWord, call, hkind, -⟩ := hbreaks
        rw [hrest] at hkind
        cases hkind
    | cons c rest =>
        have hstep : step m path s c rest = .error (.crash .brokenCharacter) :=
          (step_eq_crash_iff hrest).2 ⟨rfl, hbreaks⟩
        show (run m path (.ofText source.toList)).stop = _
        rw [hs.run_eq, run_of_stop hrest hstep]

/-- A name with an accent. -/
theorem scan_course_accent :
    (scan .empty "a.h" "BPDataBuffer(é)").stop = some (.crash .brokenCharacter) := by
  have hname : Text.isNameChar 'é' = false := by decide
  have hcall : Source.Call.read? "(é)".toList = some ⟨['é'], "(é)".toList, []⟩ := by
    show (Source.Call.inside? 0 false ['é', ')']).map (Source.Call.cons [] ['(']) = _
    rw [Source.Call.inside?_cons (Source.Call.literalAt?_eq_none (by decide)) rfl, if_neg (by decide),
      if_neg (by decide), Source.Call.inside?_cons (Source.Call.literalAt?_eq_none (by decide)) rfl,
      if_pos rfl]
    rfl
  have hbare : Argument.bare false ['é'] = ['é'] := by
    rw [Argument.bare_cons (by rfl), hname, Argument.bare]
  refine ((scan_course .empty "a.h" "BPDataBuffer(é)").2.2 _).2
    ⟨rfl, [], _, .refl _, "Data".toList, _, ?_, hcall, ?_, ?_, [], 'é', [], hbare, ?_, rfl⟩
  · decide
  · decide
  · decide
  · decide

end EmbeddedBuffers.Scan
