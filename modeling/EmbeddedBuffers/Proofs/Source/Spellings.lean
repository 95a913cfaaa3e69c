import EmbeddedBuffers.Proofs.Results
import EmbeddedBuffers.Proofs.Source.Steps

/-!
# What declarations are made of

Whatever a source holds, the declarations that a scan yields have an element type in one of a few
spellings, a name that is one, and a scope of names without blanks: a header can take them over as
they are. Main statement: `spelled_of_mem_scan`.
-/

namespace EmbeddedBuffers

namespace Text

theorem ne_nil_of_mem_wordsAux {s acc : List Char} (hacc : ∀ c ∈ acc, isBlank c = false) :
    ∀ w ∈ wordsAux isBlank s acc, w ≠ [] ∧ ∀ c ∈ w, isBlank c = false := by
  have hword : ∀ {acc : List Char}, (∀ c ∈ acc, isBlank c = false) → acc.isEmpty = false →
      acc.reverse ≠ [] ∧ ∀ c ∈ acc.reverse, isBlank c = false := by
    intro acc hacc hopen
    exact ⟨fun heq => by simp [List.reverse_eq_nil_iff.1 heq] at hopen,
      fun c hc => hacc c (List.mem_reverse.1 hc)⟩
  induction s generalizing acc with
  | nil =>
      intro w hw
      rw [wordsAux] at hw
      split at hw
      · cases hw
      · next hopen =>
        rw [List.mem_singleton.1 hw]
        exact hword hacc (Bool.eq_false_iff.2 hopen)
  | cons c s ih =>
      intro w hw
      rw [wordsAux] at hw
      have hnone : ∀ c ∈ ([] : List Char), isBlank c = false := fun _ h => absurd h List.not_mem_nil
      split at hw
      · split at hw
        · exact ih hnone w hw
        · next hopen =>
          rcases List.mem_cons.1 hw with rfl | hw
          · exact hword hacc (Bool.eq_false_iff.2 hopen)
          · exact ih hnone w hw
      · next hc =>
        exact ih (List.forall_mem_cons.2 ⟨Bool.eq_false_iff.2 hc, hacc⟩) w hw

/-- A word is not empty and has no blanks. -/
theorem ne_nil_of_mem_words {s w : List Char} (h : w ∈ words s) :
    w ≠ [] ∧ ∀ c ∈ w, isBlank c = false :=
  ne_nil_of_mem_wordsAux (fun _ h => absurd h List.not_mem_nil) w h

theorem squeeze_squeeze (s : List Char) : squeeze (squeeze s) = squeeze s := by
  have hsqueeze : squeeze s = spaced (words s) := intercalate_eq_spaced _
  rw [hsqueeze]
  exact squeeze_spaced (fun w hw => (ne_nil_of_mem_words hw).1)
    fun w hw => (ne_nil_of_mem_words hw).2

end Text

/-- The element types as declarations spell them. -/
def ElementType.written : List String :=
  spellings.map (·.1) ++ spellings.map ("std::" ++ ·.1)

/-- What is a squeezed text and names an element type is one of the spellings. -/
theorem ElementType.mem_written {s : List Char} {element : ElementType}
    (h : ElementType.parse (String.ofList (Text.squeeze s)) = .ok element) :
    String.ofList (Text.squeeze s) ∈ written := by
  have hmem : ∀ {text : String}, spellings.lookup text = some element →
      text ∈ spellings.map (·.1) := by
    intro text hlookup
    obtain ⟨pair, hpair, heq⟩ : ∃ pair ∈ spellings, pair.1 = text := by
      apply Classical.byContradiction
      intro hno
      have hnone : spellings.lookup text = none := by
        refine List.lookup_eq_none_iff.2 fun pair hpair => ?_
        simpa using fun heq : text = pair.1 => hno ⟨pair, hpair, heq.symm⟩
      rw [hnone] at hlookup
      cases hlookup
    exact List.mem_map.2 ⟨pair, hpair, heq⟩
  unfold parse ofText? at h
  rw [String.toList_ofList, Text.squeeze_squeeze] at h
  dsimp only at h
  generalize Text.squeeze s = bare at h
  split at h
  · next found heq =>
    cases h
    cases hstrip : Text.strip? ['s', 't', 'd', ':', ':'] bare with
    | none =>
        rw [hstrip] at heq
        exact List.mem_append_left _ (hmem heq)
    | some rest =>
        rw [hstrip] at heq
        refine List.mem_append_right _ ?_
        obtain ⟨pair, hpair, hname⟩ := List.mem_map.1 (hmem heq)
        refine List.mem_map.2 ⟨pair, hpair, ?_⟩
        rw [Text.strip?_eq_some hstrip, hname]
        exact String.toList_inj.1 (by simp)
  · cases h

/-- A declaration that a header can take over. -/
structure Declaration.Spelled (d : Declaration) : Prop where
  typeName : d.typeName ∈ ElementType.written
  name : Text.isName d.name.toList = true
  scope : ∀ name ∈ d.scope, ∀ c ∈ name.toList, Text.isBlank c = false

namespace Declaration

variable {d : Declaration}

/-- The symbols of a declaration hold nothing but characters of names. -/
theorem Spelled.symbol (h : d.Spelled) : ∀ c ∈ d.symbol.toList, Text.isNameChar c = true := by
  have hkind : ∀ c ∈ d.kind.word.toList, Text.isNameChar c = true := by
    cases d.kind <;> decide
  have hsymbol : d.symbol.toList = d.name.toList ++ ("_".toList ++ d.kind.word.toList) := by
    show (d.name ++ "_" ++ d.kind.word).toList = _
    rw [String.toList_append, String.toList_append, List.append_assoc]
  rw [hsymbol, List.forall_mem_append, List.forall_mem_append]
  exact ⟨Source.Identifier.isNameChar ⟨_, h.name⟩, by decide, hkind⟩

theorem Spelled.sizeSymbol (h : d.Spelled) :
    ∀ c ∈ d.sizeSymbol.toList, Text.isNameChar c = true := by
  rw [Declaration.sizeSymbol, String.toList_append, List.forall_mem_append]
  exact ⟨h.symbol, by decide⟩

/-- No spelling of an element type breaks a line or holds a bracket. -/
theorem Spelled.not_mem_typeName (h : d.Spelled) :
    ∀ c ∈ ['[', '\n', '\r'], c ∉ d.typeName.toList := by
  have hall : ∀ typeName ∈ ElementType.written,
      ∀ c ∈ ['[', '\n', '\r'], c ∉ typeName.toList := by decide +kernel
  exact hall _ h.typeName

end Declaration

namespace Argument

/-- Bare words are squeezed. -/
theorem eq_squeeze_of_read {raw : List Char} {text : String} (h : read raw = .ok (.words text)) :
    ∃ s, text = String.ofList (Text.squeeze s) := by
  rw [read] at h
  split at h
  · cases h
  · split at h
    · cases h
    · split at h
      · cases h
      · split at h
        · cases h
        · obtain ⟨_, -, heq⟩ := map_eq_ok h
          cases heq
  · split at h
    · split at h
      · cases h
      · cases h
    · cases h
      exact ⟨_, rfl⟩

theorem eq_squeeze_of_readAll {inner : List Char} {args : List Argument} {text : String}
    (h : readAll inner = .ok args) (hmem : .words text ∈ args) :
    ∃ s, text = String.ofList (Text.squeeze s) := by
  unfold readAll at h
  split at h
  · cases h
    cases hmem
  · obtain ⟨parts, -, h⟩ := exists_of_bind_eq_ok h
    obtain ⟨raw, -, hread⟩ := exists_of_mem_mapM h _ hmem
    exact eq_squeeze_of_read hread

end Argument

/-! ## Scans -/

namespace Declaration

variable {word : String} {inner : List Char} {scope : List String} {path : String} {span : Span}
  {live : Bool} {d : Declaration}

/-- What is read as a declaration is spelled as a header needs it, in a scope that is. -/
theorem spelled_of_read (h : read word inner scope path span live = .ok d)
    (hscope : ∀ name ∈ scope, ∀ c ∈ name.toList, Text.isBlank c = false) : d.Spelled := by
  obtain ⟨hargs, htype, hname, rfl, -⟩ := readAll_of_read h
  refine ⟨?_, hname, hscope⟩
  obtain ⟨s, hs⟩ := Argument.eq_squeeze_of_readAll hargs List.mem_cons_self
  rw [hs] at htype ⊢
  exact ElementType.mem_written htype

end Declaration

namespace Scan

variable {m : Macros} {path : String} {s s' : Scan} {d : Option Declaration}

/-- The open namespaces have names without blanks. -/
def Named (s : Scan) : Prop := ∀ name ∈ s.scope, ∀ c ∈ name.toList, Text.isBlank c = false

/-- The names in a namespace header are words. -/
theorem not_isBlank_of_mem_headerNames {header : List Char} {name : String}
    (h : name ∈ Source.headerNames header) : ∀ c ∈ name.toList, Text.isBlank c = false := by
  obtain ⟨part, -, hname⟩ := List.mem_filterMap.1 h
  obtain ⟨w, hw, rfl⟩ := Option.map_eq_some_iff.1 hname
  have hmem := (List.mem_filter.1 (List.mem_of_getLast? hw)).1
  rw [String.toList_ofList]
  exact (Text.ne_nil_of_mem_words hmem).2

theorem exists_headerNames_of_read {text rest written after : List Char} {names : List String}
    (h : Source.Header.read text rest = .block names written after) :
    ∃ header, names = Source.headerNames header := by
  have hcons : ∀ {piece : List Char} {header : Source.Header} {written : List Char},
      header.cons piece = .block names written after →
        ∃ written', header = .block names written' after := by
    intro piece header written h
    cases header with
    | statement => cases h
    | block names' written' after' =>
        cases h
        exact ⟨written', rfl⟩
  fun_induction Source.Header.read text rest generalizing written with
  | case1 => cases h
  | case2 text c rest comment after' hcomment ih =>
      obtain ⟨written', h⟩ := hcons h
      exact ih h
  | case3 =>
      cases h
      exact ⟨_, rfl⟩
  | case4 => cases h
  | case5 => cases h
  | case6 text c rest hcomment hbrace hend ih =>
      obtain ⟨written', h⟩ := hcons h
      exact ih h

theorem named_openHeader (h : s.Named) (text rest : List Char) :
    (s.openHeader (Source.Header.read text rest)).Named := by
  unfold openHeader
  split
  · next names written after heq =>
    obtain ⟨header, rfl⟩ := exists_headerNames_of_read heq
    intro name hname
    rcases List.mem_append.1 hname with hname | hname
    · exact h name hname
    · exact not_isBlank_of_mem_headerNames hname
  · exact h

theorem named_closeBrace (h : s.Named) : s.closeBrace.Named := by
  unfold closeBrace
  split
  · exact h
  · exact fun name hname => h name (List.mem_of_mem_take hname)

theorem spelled_of_declaration {kindWord : List Char} {start : Position} (hs : s.Named)
    (h : declaration path kindWord start s = .ok (d, s')) :
    s'.Named ∧ ∀ d' ∈ d, d'.Spelled := by
  have hone : ∀ {d : Declaration} {call : Source.Call},
      readCall path kindWord start s call = .ok d → ∀ d' ∈ some d, d'.Spelled :=
    fun hread _ hmem => Option.some.inj hmem ▸ Declaration.spelled_of_read hread hs
  cases declaration_cases h with
  | uncalled => exact ⟨hs, fun _ h => nomatch h⟩
  | passedOver => exact ⟨hs, fun _ h => nomatch h⟩
  | live _ hread => exact ⟨hs, hone hread⟩
  | dead _ hread => exact ⟨hs, hone hread⟩

theorem spelled_of_word (hs : s.Named) (h : word path s = .ok (d, s')) :
    s'.Named ∧ ∀ d' ∈ d, d'.Spelled := by
  cases word_cases h with
  | header => exact ⟨named_openHeader (s := s.past _ _) hs _ _, fun _ h => nomatch h⟩
  | deadHeader => exact ⟨hs, fun _ h => nomatch h⟩
  | declared _ _ h => exact spelled_of_declaration (s := s.past _ _) hs h
  | other => exact ⟨hs, fun _ h => nomatch h⟩

/-- A step yields declarations that are spelled well and keeps the names of the namespaces so. -/
theorem spelled_of_step {c : Char} {rest : List Char} (hs : s.Named)
    (h : step m path s c rest = .ok (d, s')) : s'.Named ∧ ∀ d' ∈ d, d'.Spelled := by
  have hnone : ∀ d' ∈ (none : Option Declaration), d'.Spelled := fun _ h => nomatch h
  -- Words and braces alone touch namespaces or declare.
  cases step_cases h with
  | lineFeed => exact ⟨hs, hnone⟩
  | blank => exact ⟨hs, hnone⟩
  | directive => exact ⟨hs, hnone⟩
  | comment => exact ⟨hs, hnone⟩
  | openBlock => exact ⟨hs, hnone⟩
  | closeBlock => exact ⟨named_closeBrace (s := s.past _ _) hs, hnone⟩
  | deadBrace => exact ⟨hs, hnone⟩
  | literal => exact ⟨hs, hnone⟩
  | word _ _ _ h => exact spelled_of_word hs h
  | other => exact ⟨hs, hnone⟩

theorem Reaches.spelled {ds : List Declaration} (h : Reaches m path s ds s') (hs : s.Named) :
    ∀ d ∈ ds, d.Spelled := by
  induction h with
  | refl s => exact fun _ h => absurd h List.not_mem_nil
  | step _ hstep _ ih =>
      obtain ⟨hs', hd⟩ := spelled_of_step hs hstep
      intro d hmem
      rcases List.mem_append.1 hmem with hmem | hmem
      · exact hd d (Option.mem_toList.1 hmem)
      · exact ih hs' d hmem

end Scan

/-- **A declaration that a scan yields is spelled as a header needs it.** -/
theorem spelled_of_mem_scan {m : Macros} {path source : String} {d : Declaration}
    (h : d ∈ (scan m path source).declarations) : d.Spelled := by
  obtain ⟨s', hreaches, -⟩ := Scan.exists_reaches_end m path (.ofText source.toList)
  exact hreaches.spelled (fun _ h => absurd h List.not_mem_nil) d h

/-- The live declarations of a source are those of a scan that nothing ends early. -/
theorem liveDeclarations_eq_ok {m : Macros} {path source : String} {ds : List Declaration} :
    liveDeclarations m path source = .ok ds ↔ (scan m path source).stop = none ∧
      (scan m path source).declarations.filter (·.live) = ds := by
  unfold liveDeclarations declarations
  dsimp only
  cases (scan m path source).stop with
  | none => exact ⟨fun h => ⟨rfl, Except.ok.inj h⟩, fun h => congrArg Except.ok h.2⟩
  | some e => exact ⟨fun h => (nomatch h), fun h => (nomatch h.1)⟩

end EmbeddedBuffers
