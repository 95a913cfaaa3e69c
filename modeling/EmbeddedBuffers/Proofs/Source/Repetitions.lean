import EmbeddedBuffers.Proofs.Source.DeadDeclarations

/-!
# Names that are repeated

The table of names is all that a scan keeps of its declarations, and only a live one looks at it. So
what is seen of a scan is what would be seen without the table, up to the first live declaration
whose name its namespace holds. Main statement: `stop_eq_duplicate_iff`.
-/

namespace EmbeddedBuffers

/-! ## What else stops a scan -/

/-- The end of reading a declaration whose text makes no sense. -/
def Stop.OfText (e : Stop) : Prop :=
  (∃ k, e = .crash k) ∨ ∃ o message help, e = .problem (.declaration o message help)

/-- The end of a scan at a repeated name. -/
def Stop.OfRepetition (e : Stop) : Prop :=
  ∃ o name first, e = .problem (.duplicate o name first)

theorem Stop.OfText.not_repetition {e : Stop} (h : e.OfText) : ¬ e.OfRepetition := by
  rintro ⟨o, name, first, rfl⟩
  rcases h with ⟨k, heq⟩ | ⟨o, message, help, heq⟩
  · cases heq
  · cases heq

theorem Stop.OfText.located {p : Problem} (h : (Stop.problem p).OfText) (path : String)
    (line : Nat) : (Stop.problem (p.located path line)).OfText := by
  rcases h with ⟨k, heq⟩ | ⟨o, message, help, heq⟩
  · cases heq
  · cases heq
    unfold Problem.located
    dsimp only [Problem.origin?]
    split
    · exact Or.inr ⟨_, message, help, rfl⟩
    · exact Or.inr ⟨o, message, help, rfl⟩

/-- The namespaces and the name of a declaration. -/
def Declaration.key (d : Declaration) : List String × String := (d.scope, d.name)

namespace Argument

theorem Fault.stop_ofText (f : Fault) : f.stop.OfText := Or.inr ⟨_, _, _, rfl⟩

theorem ofText_of_cut {opened : List Char} {inWord : Bool} {s : List Char} {e : Stop}
    (h : cut opened inWord s = .error e) : e.OfText := by
  fun_induction cut opened inWord s
  case case1 => cases h
  case case2 | case7 | case9 =>
    cases h
    exact Fault.stop_ofText _
  case case4 =>
    cases h
    exact Or.inl ⟨_, rfl⟩
  case case3 ih | case5 ih | case6 ih | case8 ih | case10 ih => exact ih (map_eq_error.1 h)

theorem ofText_of_read {raw : List Char} {e : Stop} (h : read raw = .error e) : e.OfText := by
  fun_induction read raw
  case case1 | case2 =>
    cases h
    exact Fault.stop_ofText _
  case case3 | case6 | case8 => cases h
  case case4 hcut =>
    cases h
    exact ofText_of_cut hcut
  case case5 ih =>
    obtain ⟨part, -, hpart⟩ := exists_of_mapM_eq_error (map_eq_error.1 h)
    exact ih part hpart
  case case7 =>
    cases h
    exact Fault.stop_ofText _

theorem ofText_of_readAll {text : List Char} {e : Stop} (h : readAll text = .error e) :
    e.OfText := by
  unfold readAll at h
  split at h
  · cases h
  · cases hcut : cut [] false text with
    | error e' =>
        rw [hcut] at h
        cases h
        exact ofText_of_cut hcut
    | ok parts =>
        rw [hcut] at h
        obtain ⟨part, -, hpart⟩ := exists_of_mapM_eq_error (h : parts.mapM read = .error e)
        exact ofText_of_read hpart

end Argument

namespace Declaration

theorem ofText_of_parts {kind : Kind} {args : List Argument} {p : Problem}
    (h : parts kind args = .error p) : (Stop.problem p).OfText := by
  have hfault : ∀ {f : Fault}, (Stop.problem f.problem).OfText := Or.inr ⟨_, _, _, rfl⟩
  unfold parts at h
  split at h
  · next type second more =>
    cases type with
    | string _ | list _ =>
        cases h
        exact hfault
    | words t =>
        dsimp only at h
        rw [pure_bind] at h
        rcases bind_eq_error.1 h with h | ⟨element, -, h⟩
        · unfold ElementType.parse at h
          split at h
          · cases h
          · cases h
            exact Or.inr ⟨_, _, _, rfl⟩
        · cases second with
          | string _ | list _ =>
              cases h
              exact hfault
          | words t' =>
              dsimp only at h
              split at h
              · rw [pure_bind] at h
                split at h
                · cases h
                  exact hfault
                · cases h
              · cases h
                exact hfault
  · cases h
    exact hfault

theorem ofText_of_read {word : String} {inner : List Char} {scope : List String} {path : String}
    {span : Span} {live : Bool} {e : Stop} (h : read word inner scope path span live = .error e) :
    e.OfText := by
  unfold read at h
  split at h
  · cases h
    exact Or.inr ⟨_, _, _, rfl⟩
  · next kind _ =>
    cases hargs : Argument.readAll inner with
    | error e' =>
        rw [hargs] at h
        cases h
        exact Argument.ofText_of_readAll hargs
    | ok args =>
        rw [hargs] at h
        change ((liftM (parts kind args) : Except Stop _) >>= _) = _ at h
        cases hparts : parts kind args with
        | error p =>
            rw [hparts] at h
            cases h
            exact ofText_of_parts hparts
        | ok found =>
            rw [hparts] at h
            cases h

end Declaration

namespace Directive

variable {m : Macros} {path : String} {line : Nat} {origin : Origin} {name : String}

theorem Test.not_repetition_of_holds {test : Test} {rest : List Char} {p : Problem}
    (h : test.holds m origin name rest = .error p) : ¬ (Stop.problem p).OfRepetition := by
  rintro ⟨o, name', first, ⟨⟩⟩
  unfold holds at h
  split at h
  · split at h <;> cases h
  · dsimp only at h
    split at h <;> cases h

theorem not_repetition_of_openGroup {groups : List Group} {p : Problem}
    (h : openGroup origin name groups = .error p) : ¬ (Stop.problem p).OfRepetition := by
  rintro ⟨o, name', first, ⟨⟩⟩
  unfold openGroup at h
  split at h
  · cases h
  · split at h <;> cases h

/-- A directive is refused for its condition, or as it has no partner. -/
theorem not_repetition_of_apply {meaning : List Char} {groups : List Group} {p : Problem}
    (h : apply m path line meaning groups = .error p) : ¬ (Stop.problem p).OfRepetition := by
  unfold apply at h
  dsimp only at h
  split at h
  · cases h
  · split at h
    · rcases bind_eq_error.1 h with h | ⟨_, -, h⟩
      · exact Test.not_repetition_of_holds h
      · cases h
    · cases h
  · rcases bind_eq_error.1 h with h | ⟨⟨g, gs⟩, -, h⟩
    · exact not_repetition_of_openGroup h
    · split at h
      · rcases bind_eq_error.1 h with h | ⟨_, -, h⟩
        · exact Test.not_repetition_of_holds h
        · cases h
      · cases h
  · rcases bind_eq_error.1 h with h | ⟨_, -, h⟩
    · exact not_repetition_of_openGroup h
    · cases h
  · split at h
    · cases h
      rintro ⟨o, name', first, ⟨⟩⟩
    · cases h

end Directive

namespace Scan

/-- What the table of names holds. -/
abbrev Seen := List ((List String × String) × Nat)

variable {m : Macros} {path : String} {s s' : Scan} {seen : Seen}

/-- The same state with another table of names. -/
def withSeen (s : Scan) (seen : Seen) : Scan := { s with seen }

theorem openHeader_withSeen (s : Scan) (seen : Seen) (header : Source.Header) :
    (s.withSeen seen).openHeader header = (s.openHeader header).withSeen seen := by
  cases header <;> rfl

theorem closeBrace_withSeen (s : Scan) (seen : Seen) :
    (s.withSeen seen).closeBrace = s.closeBrace.withSeen seen := by
  have hbraces : (s.withSeen seen).braces = s.braces := rfl
  unfold closeBrace
  rw [hbraces]
  cases s.braces <;> rfl

theorem seen_openHeader (s : Scan) (header : Source.Header) :
    (s.openHeader header).seen = s.seen := by
  cases header <;> rfl

theorem seen_closeBrace (s : Scan) : s.closeBrace.seen = s.seen := by
  unfold closeBrace
  split <;> rfl

/-- A step with its declaration noted in a table, if it is live. -/
def noted (seen : Seen) : Option Declaration × Scan → Except Stop (Option Declaration × Scan)
  | (none, s) => .ok (none, s.withSeen seen)
  | (some d, s) =>
    if d.live then
      match (s.withSeen seen).record d with
      | .error p => .error (.problem p)
      | .ok s' => .ok (some d, s')
    else .ok (some d, s.withSeen seen)

theorem noted_of_dead {d : Declaration} (hdead : d.live = false) (seen : Seen) (s : Scan) :
    noted seen (some d, s) = .ok (some d, s.withSeen seen) := by
  rw [noted, hdead, if_neg Bool.false_ne_true]

theorem noted_of_some {d : Declaration} (hlive : d.live = true) {first : Nat}
    (h : seen.lookup d.key = some first) (s : Scan) : noted seen (some d, s) =
      .error (.problem (.duplicate (.atLine d.path d.line) d.qualifiedName first)) := by
  have hrecord : (s.withSeen seen).record d =
      .error (.duplicate (.atLine d.path d.line) d.qualifiedName first) := by
    have hlookup : (s.withSeen seen).seen.lookup (d.scope, d.name) = some first := h
    rw [record, hlookup]
  rw [noted, hlive, if_pos rfl, hrecord]

theorem noted_of_none {d : Declaration} (hlive : d.live = true) (h : seen.lookup d.key = none)
    (s : Scan) : noted seen (some d, s) =
      .ok (some d, s.withSeen ((d.key, d.line) :: seen)) := by
  have hrecord : (s.withSeen seen).record d =
      .ok (s.withSeen ((d.key, d.line) :: seen)) := by
    have hlookup : (s.withSeen seen).seen.lookup (d.scope, d.name) = none := h
    rw [record, hlookup]
    rfl
  rw [noted, hlive, if_pos rfl, hrecord]

/-- A step that yields nothing leaves the table as it is. -/
theorem ok_none_seen (h : s.seen = seen) :
    (.ok (none, s) : Except Stop (Option Declaration × Scan)) =
      .ok (none, s.withSeen []) >>= noted seen := by
  subst h
  rfl

theorem ok_ite_seen {live : Bool} {s₁ s₂ : Scan} (h₁ : s₁.seen = seen) (h₂ : s₂.seen = seen) :
    (.ok (none, if live then s₁ else s₂) : Except Stop (Option Declaration × Scan)) =
      .ok (none, if live then s₁.withSeen [] else s₂.withSeen []) >>= noted seen := by
  cases live with
  | false => exact ok_none_seen h₂
  | true => exact ok_none_seen h₁

theorem ite_seen {c : Prop} {inst inst' : Decidable c}
    {x y x' y' : Except Stop (Option Declaration × Scan)} (hx : c → x = x' >>= noted seen)
    (hy : ¬ c → y = y' >>= noted seen) :
    @ite _ c inst x y = @ite _ c inst' x' y' >>= noted seen := by
  by_cases hc : c
  · rw [if_pos hc, if_pos hc, hx hc]
  · rw [if_neg hc, if_neg hc, hy hc]

/-! ## Steps without the table -/

theorem settle_seen (path : String) (kindWord inner : List Char) (start : Position) (s : Scan) :
    settle path kindWord start inner s =
      settle path kindWord start inner (s.withSeen []) >>= noted s.seen := by
  have hscope : (s.withSeen []).scope = s.scope := rfl
  have hplace : (s.withSeen []).position = s.position := rfl
  have hsame : (s.withSeen []).isLive = s.isLive := rfl
  unfold settle
  rw [hscope, hplace, hsame]
  cases hread : Declaration.read (String.ofList kindWord) inner s.scope path ⟨start, s.position⟩
      s.isLive with
  | error e =>
      cases e with
      | crash c => rfl
      | problem p => cases s.isLive <;> rfl
  | ok d =>
      have hlive := (Declaration.place_of_read hread).2
      cases hdead : s.isLive with
      | false =>
          rw [hdead] at hlive
          show _ = noted s.seen (some d, s.withSeen [])
          rw [noted, hlive]
          rfl
      | true =>
          rw [hdead] at hlive
          show _ = noted s.seen (some d, _)
          rw [noted, hlive]
          rfl

theorem declaration_seen (path : String) (kindWord : List Char) (start : Position) (s : Scan) :
    declaration path kindWord start s =
      declaration path kindWord start (s.withSeen []) >>= noted s.seen := by
  cases hcall : Source.Call.read? (s.rest.dropWhile Text.isAsciiBlank) with
  | none =>
      have hcall' : Source.Call.read? ((s.withSeen []).rest.dropWhile Text.isAsciiBlank) = none :=
        hcall
      rw [declaration, declaration]
      dsimp only
      rw [hcall, hcall']
      exact ite_seen (fun _ => rfl) fun _ => ok_none_seen rfl
  | some call =>
      rw [declaration_of_call hcall rfl, declaration_of_call (s := s.withSeen []) hcall rfl]
      exact settle_seen path kindWord call.meaning start _

theorem word_seen (path : String) (s : Scan) :
    word path s = word path (s.withSeen []) >>= noted s.seen := by
  unfold word
  dsimp only
  refine ite_seen (fun _ => ?_) fun _ => ?_
  · refine (ok_ite_seen (seen_openHeader _ _) rfl).trans ?_
    rw [← openHeader_withSeen]
    rfl
  · have hrest : (s.withSeen []).rest = s.rest := rfl
    rw [hrest]
    cases Source.macroWord? (Source.word s.rest).1 with
    | none => exact ok_none_seen rfl
    | some kindWord => exact declaration_seen path kindWord s.position _

/-- **A step looks at the table of names only to note a live declaration.** -/
theorem step_seen (m : Macros) (path : String) (s : Scan) (c : Char) (rest : List Char) :
    step m path s c rest = step m path (s.withSeen []) c rest >>= noted s.seen := by
  rw [step, step]
  refine ite_seen (fun _ => ok_none_seen rfl) fun _ => ?_
  refine ite_seen (fun _ => ok_none_seen rfl) fun _ => ?_
  refine ite_seen (fun _ => ?_) fun _ => ?_
  · have hplace : (s.withSeen []).position = s.position := rfl
    have hgroups : (s.withSeen []).groups = s.groups := rfl
    dsimp only
    rw [hplace, hgroups]
    cases Directive.apply m path s.position.line (Directive.Line.read rest).meaning s.groups with
    | error p => rfl
    | ok groups => exact ok_none_seen rfl
  cases Source.comment? (c :: rest) with
  | some found => exact ok_none_seen rfl
  | none =>
      refine ite_seen (fun _ => ?_) fun _ => ?_
      · exact ok_ite_seen rfl rfl
      refine ite_seen (fun _ => ?_) fun _ => ?_
      · refine (ok_ite_seen (seen_closeBrace _) rfl).trans ?_
        rw [← closeBrace_withSeen]
        rfl
      refine ite_seen (fun _ => ?_) fun _ => ?_
      · cases Literal.split? (c :: rest) with
        | some found => exact ok_none_seen rfl
        | none => exact word_seen path s
      exact ite_seen (fun _ => word_seen path s) fun _ => ok_none_seen rfl

theorem not_repetition_of_declaration {kindWord : List Char} {start : Position} {e : Stop}
    (hs : s.seen = []) (h : declaration path kindWord start s = .error e) : ¬ e.OfRepetition := by
  cases declaration_cases h with
  | unclosed => exact Stop.OfText.not_repetition (Or.inr ⟨_, _, _, rfl⟩)
  | broken => exact Stop.OfText.not_repetition (Or.inl ⟨_, rfl⟩)
  | refused _ hread =>
      exact ((Declaration.ofText_of_read hread).located path start.line).not_repetition
  | repeated _ _ _ hseen =>
      rw [hs] at hseen
      cases hseen

/-- With an empty table no name is repeated. -/
theorem not_repetition_of_step {c : Char} {rest : List Char} {e : Stop} (hs : s.seen = [])
    (h : step m path s c rest = .error e) : ¬ e.OfRepetition := by
  cases step_cases h with
  | refused _ _ happly => exact Directive.not_repetition_of_apply happly
  | word _ _ _ h =>
      cases word_cases h with
      | declared _ _ h => exact not_repetition_of_declaration (s := s.past _ _) hs h

/-! ## Runs without the table -/

/-- A run that looks at no table. -/
def unchecked (m : Macros) (path : String) (s : Scan) : Result :=
  match _hs : s.rest with
  | [] => run m path (s.withSeen [])
  | c :: rest =>
    match _hstep : step m path (s.withSeen []) c rest with
    | .error e => ⟨[], some e⟩
    | .ok (d, s') =>
      let r := unchecked m path s'
      ⟨d.toList ++ r.declarations, r.stop⟩
termination_by s.rest.length
decreasing_by
  exact length_step_lt (s := s.withSeen []) _hs _hstep

/-- What is seen of a run: everything up to the first declaration whose name its namespace holds
already, which stops the run. -/
def checked (seen : Seen) (stop : Option Stop) : List Declaration → Result
  | [] => ⟨[], stop⟩
  | d :: ds =>
    match seen.lookup d.key with
    | some first => ⟨[], some (.problem (.duplicate (.atLine d.path d.line) d.qualifiedName first))⟩
    | none =>
      let r := checked ((d.key, d.line) :: seen) stop ds
      ⟨d :: r.declarations, r.stop⟩

theorem checked_of_some {d : Declaration} {first : Nat} (h : seen.lookup d.key = some first)
    (stop : Option Stop) (ds : List Declaration) : checked seen stop (d :: ds) =
      ⟨[], some (.problem (.duplicate (.atLine d.path d.line) d.qualifiedName first))⟩ := by
  rw [checked, h]

theorem checked_of_none {d : Declaration} (h : seen.lookup d.key = none) (stop : Option Stop)
    (ds : List Declaration) : checked seen stop (d :: ds) =
      ⟨d :: (checked ((d.key, d.line) :: seen) stop ds).declarations,
        (checked ((d.key, d.line) :: seen) stop ds).stop⟩ := by
  rw [checked, h]

theorem unchecked_of_stop {c : Char} {rest : List Char} {e : Stop} (hs : s.rest = c :: rest)
    (hstep : step m path (s.withSeen []) c rest = .error e) :
    unchecked m path s = ⟨[], some e⟩ := by
  rw [unchecked]
  split
  · next heq => cases hs.symm.trans heq
  · next heq =>
    cases hs.symm.trans heq
    split
    · next heq' =>
      cases hstep.symm.trans heq'
      rfl
    · next heq' => cases hstep.symm.trans heq'

theorem unchecked_of_step {c : Char} {rest : List Char} {d : Option Declaration}
    (hs : s.rest = c :: rest) (hstep : step m path (s.withSeen []) c rest = .ok (d, s')) :
    unchecked m path s =
      ⟨d.toList ++ (unchecked m path s').declarations, (unchecked m path s').stop⟩ := by
  rw [unchecked]
  split
  · next heq => cases hs.symm.trans heq
  · next heq =>
    cases hs.symm.trans heq
    split
    · next heq' => cases hstep.symm.trans heq'
    · next heq' =>
      cases hstep.symm.trans heq'
      rfl

theorem unchecked_end (hs : s.rest = []) : unchecked m path s = run m path (s.withSeen []) := by
  rw [unchecked]
  split
  · rfl
  · next heq => cases hs.symm.trans heq

/-- At the end of the text the table does not matter. -/
theorem run_end_seen (hs : s.rest = []) (seen : Seen) :
    run m path (s.withSeen seen) = run m path (s.withSeen []) := by
  cases hgroups : s.groups with
  | nil => rw [run_end (s := s.withSeen seen) hs hgroups, run_end (s := s.withSeen []) hs hgroups]
  | cons g groups =>
      rw [run_unclosed (s := s.withSeen seen) hs hgroups,
        run_unclosed (s := s.withSeen []) hs hgroups]

theorem visible_cons_dead {d : Declaration} (hdead : d.live = false) (ds : List Declaration)
    (stop : Option Stop) : Result.visible ⟨d :: ds, stop⟩ = Result.visible ⟨ds, stop⟩ := by
  rw [Result.visible, Result.visible,
    List.filter_cons_of_neg (by rw [hdead]; exact Bool.false_ne_true)]

theorem visible_cons_live {d : Declaration} (hlive : d.live = true) (ds : List Declaration)
    (stop : Option Stop) : Result.visible ⟨d :: ds, stop⟩ =
      ⟨d :: (Result.visible ⟨ds, stop⟩).declarations, (Result.visible ⟨ds, stop⟩).stop⟩ := by
  rw [Result.visible, Result.visible, List.filter_cons_of_pos hlive]

/-- **What is seen of a run is what is seen without the table, up to the first name that is
repeated.** -/
theorem visible_run (m : Macros) (path : String) (s : Scan) (seen : Seen) :
    (run m path (s.withSeen seen)).visible =
      checked seen (unchecked m path s).visible.stop (unchecked m path s).visible.declarations := by
  -- By what is left of the text. The table is any, as it grows with every live declaration.
  induction hn : s.rest.length using Nat.strongRecOn generalizing s seen with
  | ind n ih =>
      cases hs : s.rest with
      | nil =>
          have hnone : (run m path (s.withSeen [])).declarations = [] := by
            cases hgroups : s.groups with
            | nil => rw [run_end (s := s.withSeen []) hs hgroups]
            | cons g groups => rw [run_unclosed (s := s.withSeen []) hs hgroups]
          rw [unchecked_end hs, run_end_seen hs, Result.visible, hnone]
          rfl
      | cons c rest =>
          have hseen : step m path (s.withSeen seen) c rest =
              step m path (s.withSeen []) c rest >>= noted seen :=
            step_seen m path (s.withSeen seen) c rest
          cases hstep : step m path (s.withSeen []) c rest with
          | error e =>
              rw [hstep] at hseen
              rw [run_of_stop (s := s.withSeen seen) hs hseen, unchecked_of_stop hs hstep]
              rfl
          | ok next =>
              obtain ⟨d, s'⟩ := next
              have hless : s'.rest.length < n :=
                hn ▸ length_step_lt (s := s.withSeen []) hs hstep
              rw [hstep] at hseen
              change step m path (s.withSeen seen) c rest = noted seen (d, s') at hseen
              rw [unchecked_of_step hs hstep]
              cases d with
              | none =>
                  rw [run_of_step (s := s.withSeen seen) hs hseen]
                  exact ih _ hless s' seen rfl
              | some d =>
                  change _ = checked seen
                    (Result.visible ⟨d :: (unchecked m path s').declarations, _⟩).stop
                    (Result.visible ⟨d :: (unchecked m path s').declarations, _⟩).declarations
                  cases hlive : d.live with
                  | false =>
                      rw [noted_of_dead hlive] at hseen
                      rw [run_of_declaration (s := s.withSeen seen) hs hseen,
                        visible_cons_dead hlive, visible_cons_dead hlive]
                      exact ih _ hless s' seen rfl
                  | true =>
                      rw [visible_cons_live hlive]
                      cases hlookup : seen.lookup d.key with
                      | some first =>
                          rw [noted_of_some hlive hlookup] at hseen
                          rw [run_of_stop (s := s.withSeen seen) hs hseen,
                            checked_of_some hlookup]
                          rfl
                      | none =>
                          rw [noted_of_none hlive hlookup] at hseen
                          rw [run_of_declaration (s := s.withSeen seen) hs hseen,
                            visible_cons_live hlive, checked_of_none hlookup]
                          exact congrArg (fun r => (⟨d :: r.declarations, r.stop⟩ : Result))
                            (ih _ hless s' ((d.key, d.line) :: seen) rfl)

/-- Without the table no run stops at a repeated name. -/
theorem not_repetition_of_unchecked {e : Stop} (h : (unchecked m path s).stop = some e) :
    ¬ e.OfRepetition := by
  induction hn : s.rest.length using Nat.strongRecOn generalizing s with
  | ind n ih =>
      cases hs : s.rest with
      | nil =>
          rw [unchecked_end hs] at h
          cases hgroups : s.groups with
          | nil =>
              rw [run_end (s := s.withSeen []) hs hgroups] at h
              cases h
          | cons g groups =>
              rw [run_unclosed (s := s.withSeen []) hs hgroups] at h
              cases h
              rintro ⟨o, name, first, ⟨⟩⟩
      | cons c rest =>
          cases hstep : step m path (s.withSeen []) c rest with
          | error e' =>
              rw [unchecked_of_stop hs hstep] at h
              cases h
              exact not_repetition_of_step (s := s.withSeen []) rfl hstep
          | ok next =>
              rw [unchecked_of_step hs hstep] at h
              exact ih _ (hn ▸ length_step_lt (s := s.withSeen []) hs hstep) h rfl

/-! ## The first repeated name -/

/-- The table of some declarations. -/
def table (ds : List Declaration) : Seen := ds.map fun d => (d.key, d.line)

theorem lookup_table_eq_none {ds : List Declaration} {k : List String × String} :
    (table ds).lookup k = none ↔ k ∉ ds.map Declaration.key := by
  induction ds with
  | nil => exact iff_of_true rfl List.not_mem_nil
  | cons d ds ih =>
      rw [List.map_cons, List.mem_cons, not_or, ← ih, table, List.map_cons, List.lookup_cons]
      by_cases hk : k = d.key
      · rw [beq_iff_eq.2 hk]
        exact iff_of_false (fun h => by cases h) fun h => h.1 hk
      · rw [beq_eq_false_iff_ne.2 hk]
        exact (and_iff_right hk).symm

/-- A name that is not repeated is found with its line. -/
theorem lookup_table {ds : List Declaration} (hnodup : (ds.map Declaration.key).Nodup)
    {d : Declaration} (hd : d ∈ ds) : (table ds).lookup d.key = some d.line := by
  induction ds with
  | nil => exact absurd hd List.not_mem_nil
  | cons d' ds ih =>
      obtain ⟨hnew, hnodup⟩ := List.nodup_cons.1 hnodup
      rw [table, List.map_cons, List.lookup_cons]
      rcases List.mem_cons.1 hd with rfl | hd
      · rw [beq_self_eq_true]
      · have hne : d.key ≠ d'.key := fun heq => hnew (heq ▸ List.mem_map_of_mem hd)
        rw [beq_eq_false_iff_ne.2 hne]
        exact ih hnodup hd

/-- Declarations with new names pass, and are noted. -/
theorem checked_append (earlier : List Declaration) {before : List Declaration}
    (hnodup : ((earlier ++ before).map Declaration.key).Nodup) (stop : Option Stop)
    (ds : List Declaration) :
    checked (table earlier.reverse) stop (before ++ ds) =
      ⟨before ++ (checked (table (earlier ++ before).reverse) stop ds).declarations,
        (checked (table (earlier ++ before).reverse) stop ds).stop⟩ := by
  induction before generalizing earlier with
  | nil => rw [List.append_nil]; rfl
  | cons d before ih =>
      have hnew : (table earlier.reverse).lookup d.key = none := by
        rw [lookup_table_eq_none, List.map_reverse, List.mem_reverse]
        rw [List.map_append, List.map_cons, List.nodup_append] at hnodup
        exact fun hmem => hnodup.2.2 _ hmem _ List.mem_cons_self rfl
      have htable : table (earlier ++ [d]).reverse = (d.key, d.line) :: table earlier.reverse := by
        rw [List.reverse_append]
        rfl
      rw [List.append_cons] at hnodup ⊢
      rw [List.cons_append, checked_of_none hnew, ← htable, ih _ hnodup]
      rfl

theorem checked_of_nodup {ds : List Declaration} {stop : Option Stop}
    (hnodup : (ds.map Declaration.key).Nodup) : checked [] stop ds = ⟨ds, stop⟩ := by
  have happend := checked_append [] hnodup stop []
  rw [List.append_nil] at happend
  rw [show ([] : Seen) = table [].reverse from rfl, happend, checked, List.append_nil]

theorem checked_of_repetition {before after : List Declaration} {d first : Declaration}
    {stop : Option Stop} (hnodup : (before.map Declaration.key).Nodup) (hfirst : first ∈ before)
    (hkey : first.key = d.key) : checked [] stop (before ++ d :: after) =
      ⟨before,
        some (.problem (.duplicate (.atLine d.path d.line) d.qualifiedName first.line))⟩ := by
  have happend := checked_append [] hnodup stop (d :: after)
  have hlookup : (table before.reverse).lookup d.key = some first.line := by
    rw [← hkey]
    refine lookup_table ?_ (List.mem_reverse.2 hfirst)
    rw [List.map_reverse]
    exact (List.reverse_perm _).nodup_iff.2 hnodup
  rw [List.nil_append, checked_of_some hlookup, List.append_nil] at happend
  exact happend

/-- Either no name is repeated, or there is a first one that is. -/
theorem nodup_or_exists_repetition (ds : List Declaration) : (ds.map Declaration.key).Nodup ∨
    ∃ before d after first, ds = before ++ d :: after ∧ (before.map Declaration.key).Nodup ∧
      first ∈ before ∧ first.key = d.key := by
  induction ds using List.reverseRecOn with
  | nil => exact Or.inl List.nodup_nil
  | append_singleton ds d ih =>
      rcases ih with hnodup | ⟨before, d', after, first, rfl, hbefore⟩
      · by_cases hmem : d.key ∈ ds.map Declaration.key
        · obtain ⟨first, hfirst, hkey⟩ := List.mem_map.1 hmem
          exact Or.inr ⟨ds, d, [], first, rfl, hnodup, hfirst, hkey⟩
        · refine Or.inl ?_
          rw [List.map_append, List.map_singleton]
          refine List.nodup_append.2 ⟨hnodup, List.pairwise_singleton _ _, ?_⟩
          rintro k hk _ hk' rfl
          exact hmem (List.mem_singleton.1 hk' ▸ hk)
      · refine Or.inr ⟨before, d', after ++ [d], first, ?_, hbefore⟩
        rw [List.append_assoc, List.cons_append]

end Scan

/-- A scan that looks at no table of names. -/
def unchecked (m : Macros) (path source : String) : Scan.Result :=
  Scan.unchecked m path (.ofText source.toList)

variable {m : Macros} {path source : String} {before after : List Declaration}
  {d first : Declaration}

theorem visible_scan (m : Macros) (path source : String) : (scan m path source).visible =
    Scan.checked [] (unchecked m path source).stop
      ((unchecked m path source).declarations.filter (·.live)) :=
  Scan.visible_run m path (.ofText source.toList) []

/-- Where no live declaration repeats a name, the table changes nothing that is seen. -/
theorem visible_scan_of_nodup
    (h : (((unchecked m path source).declarations.filter (·.live)).map Declaration.key).Nodup) :
    (scan m path source).visible = (unchecked m path source).visible :=
  (visible_scan m path source).trans (Scan.checked_of_nodup h)

/-- The first live declaration that repeats a name ends what is seen. -/
theorem visible_scan_of_repetition
    (hds : (unchecked m path source).declarations.filter (·.live) = before ++ d :: after)
    (hnodup : (before.map Declaration.key).Nodup) (hfirst : first ∈ before)
    (hkey : first.key = d.key) : (scan m path source).visible =
      ⟨before,
        some (.problem (.duplicate (.atLine d.path d.line) d.qualifiedName first.line))⟩ := by
  rw [visible_scan, hds, Scan.checked_of_repetition hnodup hfirst hkey]

/-- **A scan ends at the first live declaration whose name its namespace holds, and at no
other.** -/
theorem stop_eq_duplicate_iff {o : Origin} {name : String} {line : Nat} :
    (scan m path source).stop = some (.problem (.duplicate o name line)) ↔
      ∃ before d after first,
        (unchecked m path source).declarations.filter (·.live) = before ++ d :: after ∧
        (before.map Declaration.key).Nodup ∧ first ∈ before ∧ first.key = d.key ∧
        o = .atLine d.path d.line ∧ name = d.qualifiedName ∧ line = first.line := by
  have hstop : (scan m path source).stop = (scan m path source).visible.stop := rfl
  constructor
  · intro h
    rcases Scan.nodup_or_exists_repetition ((unchecked m path source).declarations.filter (·.live))
      with hnodup | ⟨before, d, after, first, hds, hnodup, hfirst, hkey⟩
    · rw [hstop, visible_scan_of_nodup hnodup] at h
      exact absurd ⟨o, name, line, rfl⟩ (Scan.not_repetition_of_unchecked h)
    · rw [hstop, visible_scan_of_repetition hds hnodup hfirst hkey] at h
      cases h
      exact ⟨before, d, after, first, hds, hnodup, hfirst, hkey, rfl, rfl, rfl⟩
  · rintro ⟨before, d, after, first, hds, hnodup, hfirst, hkey, rfl, rfl, rfl⟩
    rw [hstop, visible_scan_of_repetition hds hnodup hfirst hkey]

example : (scan .empty "in.h" ("BPDataBuffer(int, A, \"a\")\n#ifdef X\n" ++
    "BPDataBuffer(int, B, \"a\")\n#endif\nBPJtagBuffer(int, B, \"a\", s, 8)\n" ++
      "BPMpffBuffer(int, A, \"a\")")).stop =
    some (.problem (.duplicate (.atLine "in.h" 6) "A" 1)) := by
  decide +kernel

/-- The live declarations of a scan that gets through have different names in each namespace. -/
theorem nodup_of_stop (h : (scan m path source).stop = none) :
    (((scan m path source).declarations.filter (·.live)).map Declaration.key).Nodup := by
  rcases Scan.nodup_or_exists_repetition ((unchecked m path source).declarations.filter (·.live))
    with hnodup | ⟨before, d, after, first, hds, hbefore, hfirst, hkey⟩
  · have hsame : (scan m path source).declarations.filter (·.live) =
        (unchecked m path source).declarations.filter (·.live) :=
      congrArg Scan.Result.declarations (visible_scan_of_nodup hnodup)
    rw [hsame]
    exact hnodup
  · have hstop : (scan m path source).stop = some _ :=
      congrArg Scan.Result.stop (visible_scan_of_repetition hds hbefore hfirst hkey)
    rw [h] at hstop
    cases hstop

end EmbeddedBuffers
