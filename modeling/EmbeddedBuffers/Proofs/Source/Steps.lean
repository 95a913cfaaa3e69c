import Mathlib.Data.List.Induction
import EmbeddedBuffers.Proofs.Source.Lines
import EmbeddedBuffers.Proofs.Source.Locality

/-!
# Scans as sequences of steps

Every state that a scan reaches stands behind a piece of its text, at the position of the end of
that piece. A scan reaches the end of its text or a step that stops it. Main statements:
`Reaches.exists_append`, `Reaches.run_eq` and `exists_reaches_end`.
-/

namespace EmbeddedBuffers

theorem Position.offset_past (p : Position) (s : List Char) :
    (p.past s).offset = p.offset + byteLength s := by
  induction s using List.reverseRecOn with
  | nil => rfl
  | append_singleton s c ih =>
      have hstep : ((p.past s).step c).offset = (p.past s).offset + c.utf8Size := by
        unfold Position.step
        split <;> rfl
      rw [Position.past_append]
      show ((p.past s).step c).offset = _
      rw [hstep, ih, byteLength, byteLength, List.foldl_append]
      exact Nat.add_assoc _ _ _

theorem Position.past_word {w : List Char} (hw : ∀ c ∈ w, Text.isNameChar c = true)
    (p : Position) : p.past w = ⟨p.offset + w.length, p.line, p.column + w.length⟩ := by
  induction w generalizing p with
  | nil => rfl
  | cons c w ih =>
      obtain ⟨hc, hw⟩ := List.forall_mem_cons.1 hw
      have hfeed : c ≠ '\n' := by
        rintro rfl
        exact absurd hc (by decide)
      have hsize : c.utf8Size = 1 := by
        have hascii := Text.lt_of_isNameChar hc
        exact Char.utf8Size_eq_one_iff.2 (UInt32.le_iff_toNat_le.2 (Nat.le_of_lt_succ hascii))
      have hstep : p.step c = ⟨p.offset + 1, p.line, p.column + 1⟩ := by
        rw [Position.step, if_neg hfeed, hsize]
      show (p.step c).past w = _
      rw [ih hw, hstep, List.length_cons, Position.mk.injEq]
      dsimp only
      omega

theorem byteLength_pos {s : List Char} (h : s ≠ []) : 0 < byteLength s := by
  induction s using List.reverseRecOn with
  | nil => exact absurd rfl h
  | append_singleton s c ih =>
      rw [byteLength, List.foldl_append]
      exact Nat.lt_of_lt_of_le (Char.utf8Size_pos c) (Nat.le_add_left _ _)

namespace Scan

/-- One state stands a piece of text behind another. -/
def Ahead (s s' : Scan) : Prop :=
  ∃ piece, s.rest = piece ++ s'.rest ∧ s'.position = s.position.past piece

variable {m : Macros} {path : String} {s s' s'' : Scan}

theorem Ahead.refl (s : Scan) : Ahead s s := ⟨[], rfl, rfl⟩

theorem Ahead.trans (h : Ahead s s') (h' : Ahead s' s'') : Ahead s s'' := by
  obtain ⟨piece, hrest, hposition⟩ := h
  obtain ⟨piece', hrest', hposition'⟩ := h'
  refine ⟨piece ++ piece', ?_, ?_⟩
  · rw [hrest, hrest', List.append_assoc]
  · rw [hposition', hposition, Position.past_append]

theorem ahead_past {piece rest : List Char} (h : s.rest = piece ++ rest) :
    Ahead s (s.past piece rest) := ⟨piece, h, rfl⟩

/-! ## One step -/

theorem ending_eq (s : List Char) : (ending s).1 ++ (ending s).2 = s := by
  have hsplit := List.takeWhile_append_dropWhile (p := fun c => c == ' ' || c == '\t') (l := s)
  unfold ending
  split
  · next rest heq =>
    rw [heq] at hsplit
    rw [List.append_assoc]
    exact hsplit
  · exact hsplit

theorem inside?_eq {depth : Nat} {inWord : Bool} {s : List Char} {call : Source.Call}
    (h : Source.Call.inside? depth inWord s = some call) : call.written ++ call.rest = s := by
  have cons_eq : ∀ {meaning written after : List Char} {o : Option Source.Call}
      {call : Source.Call}, (∀ {call'}, o = some call' → call'.written ++ call'.rest = after) →
      o.map (Source.Call.cons meaning written) = some call →
      call.written ++ call.rest = written ++ after := by
    intro meaning written after o call ih h
    obtain ⟨call', hcall, rfl⟩ := Option.map_eq_some_iff.1 h
    show (written ++ call'.written) ++ call'.rest = _
    rw [List.append_assoc, ih hcall]
  fun_induction Source.Call.inside? depth inWord s generalizing call with
  | case1 => cases h
  | case2 depth inWord c rest literal after hliteral ih =>
      rw [cons_eq ih h]
      unfold Source.literalAt? at hliteral
      split at hliteral
      · cases hliteral
      · next heq =>
        cases heq
        split at hliteral
        · exact (Literal.split?_eq hliteral).1
        · cases hliteral
  | case3 depth inWord c rest hliteral comment after hcomment ih =>
      rw [cons_eq ih h, (Source.comment?_eq hcomment).1]
  | case4 =>
      cases h
      rfl
  | case5 inWord c hliteral hcomment depth ih => exact cons_eq ih h
  | case6 depth inWord rest hliteral hcomment hclose ih => exact cons_eq ih h
  | case7 depth inWord c rest hliteral hcomment hclose hopen ih => exact cons_eq ih h

theorem read?_eq {s : List Char} {call : Source.Call} (h : Source.Call.read? s = some call) :
    call.written ++ call.rest = s := by
  unfold Source.Call.read? at h
  split at h
  · obtain ⟨call', hcall, rfl⟩ := Option.map_eq_some_iff.1 h
    exact congrArg ('(' :: ·) (inside?_eq hcall)
  · cases h

/-- What a call takes: the blanks in front of it, the call, and what ends it. -/
theorem ahead_behind {call : Source.Call}
    (hcall : Source.Call.read? (s.rest.dropWhile Text.isAsciiBlank) = some call) :
    Ahead s (s.behind call) := by
  refine ahead_past ?_
  rw [List.append_assoc, List.append_assoc, ending_eq, read?_eq hcall,
    List.takeWhile_append_dropWhile]

theorem ahead_declaration {kindWord : List Char} {start : Position} {d : Option Declaration}
    (h : declaration path kindWord start s = .ok (d, s')) : Ahead s s' := by
  cases declaration_cases h with
  | uncalled => exact .refl s
  | passedOver hcall => exact ahead_behind hcall
  | live hcall => exact ahead_behind hcall
  | dead hcall => exact ahead_behind hcall

theorem ahead_openHeader (s : Scan) (text : List Char) :
    Ahead s (s.openHeader (Source.Header.read text s.rest)) := by
  have hread := Source.Header.read_eq text s.rest
  cases heq : Source.Header.read text s.rest <;>
  · rw [heq] at hread
    exact ahead_past hread.symm

/-- What follows a word, and what it makes of that. -/
theorem ahead_behindWord {d : Option Declaration} (h : word path s = .ok (d, s')) :
    Ahead (s.past (Source.word s.rest).1 (Source.word s.rest).2) s' := by
  cases word_cases h with
  | header => exact ahead_openHeader _ _
  | deadHeader => exact .refl _
  | declared _ _ h => exact ahead_declaration h
  | other => exact .refl _

theorem ahead_word {d : Option Declaration} (h : word path s = .ok (d, s')) : Ahead s s' :=
  (ahead_past (Source.word_eq s.rest).symm).trans (ahead_behindWord h)

theorem ahead_closeBrace (s : Scan) : Ahead s s.closeBrace := by
  unfold closeBrace
  split <;> exact ⟨[], rfl, rfl⟩

/-- **A step takes a piece of the text.** -/
theorem ahead_step {c : Char} {rest : List Char} {d : Option Declaration}
    (hs : s.rest = c :: rest) (h : step m path s c rest = .ok (d, s')) : Ahead s s' := by
  have hchar : Ahead s (s.past [c] rest) := ahead_past hs
  cases step_cases h with
  | lineFeed => exact hchar
  | blank => exact hchar
  | directive => exact ahead_past (hs.trans (congrArg (c :: ·) (Directive.Line.read_eq rest).symm))
  | comment hcomment => exact ahead_past (hs.trans (Source.comment?_eq hcomment).1.symm)
  | openBlock => exact hchar
  | closeBlock => exact hchar.trans (ahead_closeBrace _)
  | deadBrace => exact hchar
  | literal _ _ hliteral => exact ahead_past (hs.trans (Literal.split?_eq hliteral).1.symm)
  | word _ _ _ h => exact ahead_word h
  | other => exact hchar

/-! ## Steps one after the other -/

/-- Steps from one state to another, with the declarations that they yield. -/
inductive Reaches (m : Macros) (path : String) : Scan → List Declaration → Scan → Prop
  | refl (s : Scan) : Reaches m path s [] s
  | step {s s' s'' : Scan} {c : Char} {rest : List Char} {d : Option Declaration}
      {ds : List Declaration} (hs : s.rest = c :: rest)
      (hstep : Scan.step m path s c rest = .ok (d, s')) (hmore : Reaches m path s' ds s'') :
      Reaches m path s (d.toList ++ ds) s''

variable {ds ds' : List Declaration}

theorem Reaches.ahead (h : Reaches m path s ds s') : Ahead s s' := by
  induction h with
  | refl s => exact .refl s
  | step hs hstep _ ih => exact (ahead_step hs hstep).trans ih

theorem Reaches.trans (h : Reaches m path s ds s') (h' : Reaches m path s' ds' s'') :
    Reaches m path s (ds ++ ds') s'' := by
  induction h with
  | refl s => exact h'
  | step hs hstep _ ih =>
      rw [List.append_assoc]
      exact .step hs hstep (ih h')

theorem Reaches.single {c : Char} {rest : List Char} {d : Option Declaration}
    (hs : s.rest = c :: rest) (h : Scan.step m path s c rest = .ok (d, s')) :
    Reaches m path s d.toList s' := by
  have hstep := Reaches.step hs h (.refl s')
  rwa [List.append_nil] at hstep

/-- The line of a directive is passed in two steps. -/
theorem reaches_directive {v rest : List Char} {groups : List Directive.Group}
    (hs : s.rest = '#' :: (v ++ '\n' :: rest)) (hstart : s.lineStart = true) (hfeed : '\n' ∉ v)
    (hcomment : Source.opensComment v = false)
    (hlast : v.getLast? ≠ some '\\' ∧ v.getLast? ≠ some '\r')
    (happly : Directive.apply m path s.position.line v s.groups = .ok groups) :
    Reaches m path s [] { s.beyond ('#' :: (v ++ ['\n'])) rest with groups := groups } := by
  have hstep := step_directive m path hstart hfeed hcomment hlast rest
  rw [happly] at hstep
  have hline := (Reaches.single hs hstep).trans (.single rfl (step_lineFeed m path _ rest))
  have hbeyond : ({ s.past ('#' :: v) ('\n' :: rest) with
      groups := groups, lineStart := true } : Scan).beyond ['\n'] rest =
      { s.beyond ('#' :: (v ++ ['\n'])) rest with groups := groups } := by
    simp only [beyond, past, ← Position.past_append, List.cons_append]
  rw [hbeyond] at hline
  exact hline

/-- **A state that is reached stands behind a piece of the text**, at the position of its end. -/
theorem Reaches.exists_append {source : List Char}
    (h : Reaches m path (.ofText source) ds s) :
    ∃ before, source = before ++ s.rest ∧ s.position = Position.start.past before := h.ahead

/-- A run goes on from what it reaches. -/
theorem Reaches.run_eq (h : Reaches m path s ds s') :
    run m path s = ⟨ds ++ (run m path s').declarations, (run m path s').stop⟩ := by
  induction h with
  | refl s => rfl
  | @step s s' s'' c rest d ds hs hstep _ ih =>
      cases d with
      | none =>
          rw [run_of_step hs hstep, ih]
          rfl
      | some d =>
          rw [run_of_declaration hs hstep, ih]
          rfl

/-- Where a scan stops: at the end of the text, where a group may be open, or at a step. -/
def StopsWith (m : Macros) (path : String) (s : Scan) (stop : Option Stop) : Prop :=
  match s.rest with
  | [] => stop = s.groups.head?.map fun g => .problem (.unpairedDirective (.atLine path g.line)
      (Directive.Fault.neverClosed g.opening).message)
  | c :: rest => ∃ e, Scan.step m path s c rest = .error e ∧ stop = some e

theorem run_unclosed {g : Directive.Group} {groups : List Directive.Group} (hs : s.rest = [])
    (hgroups : s.groups = g :: groups) : run m path s =
      ⟨[], some (.problem (.unpairedDirective (.atLine path g.line)
        (Directive.Fault.neverClosed g.opening).message))⟩ := by
  have hnext : next? m path s = .error (.problem (.unpairedDirective (.atLine path g.line)
      (Directive.Fault.neverClosed g.opening).message)) := by
    rw [next?.eq_def]
    split
    · rw [hgroups]
    · next heq => cases hs.symm.trans heq
  rw [Scan.run_eq, hnext]

/-- **A scan takes steps to where it stops.** -/
theorem exists_reaches_end (m : Macros) (path : String) (s : Scan) :
    ∃ s', Reaches m path s (run m path s).declarations s' ∧
      StopsWith m path s' (run m path s).stop := by
  induction hn : s.rest.length using Nat.strongRecOn generalizing s with
  | ind n ih =>
      cases hs : s.rest with
      | nil =>
          refine ⟨s, ?_⟩
          unfold StopsWith
          rw [hs]
          cases hgroups : s.groups with
          | nil =>
              rw [run_end hs hgroups]
              exact ⟨.refl s, rfl⟩
          | cons g groups =>
              rw [run_unclosed hs hgroups]
              exact ⟨.refl s, rfl⟩
      | cons c rest =>
          cases hstep : Scan.step m path s c rest with
          | error e =>
              refine ⟨s, ?_⟩
              unfold StopsWith
              rw [run_of_stop hs hstep, hs]
              exact ⟨.refl s, e, hstep, rfl⟩
          | ok next =>
              obtain ⟨d, s₁⟩ := next
              obtain ⟨s', hreaches, hstops⟩ := ih _ (hn ▸ length_step_lt hs hstep) s₁ rfl
              refine ⟨s', ?_⟩
              cases d with
              | none =>
                  rw [run_of_step hs hstep]
                  exact ⟨.step hs hstep hreaches, hstops⟩
              | some d =>
                  rw [run_of_declaration hs hstep]
                  exact ⟨.step hs hstep hreaches, hstops⟩

end Scan

end EmbeddedBuffers
