import EmbeddedBuffers.Proofs.Condition.Names
import EmbeddedBuffers.Proofs.Source.Steps
import Mathlib.Data.List.Infix

/-!
# Macros that a source names

A scan asks for macros in conditions alone, and there for identifiers of their texts alone. Two
scans of a source under environments that agree on these go in lockstep. Main statement:
`scan_named`.
-/

namespace EmbeddedBuffers

/-! ## The first word of a text -/

namespace Text

/-- The first word of a text stands between blanks. -/
theorem exists_firstWord (s : List Char) : ∃ blanks w rest, s = blanks ++ (w ++ rest) ∧
    (∀ c ∈ blanks, isBlank c = true) ∧ (∀ c ∈ rest.head?, isBlank c = true) ∧
    (words s).headD [] = w := by
  obtain ⟨blanks, w, rest, rfl, hblanks, hw, hrest, hempty⟩ : ∃ blanks w rest,
      s = blanks ++ (w ++ rest) ∧ (∀ c ∈ blanks, isBlank c = true) ∧
      (∀ c ∈ w, isBlank c = false) ∧ (∀ c ∈ rest.head?, isBlank c = true) ∧
      (w = [] → ∀ c ∈ rest.head?, isBlank c = false) := by
    refine ⟨s.takeWhile isBlank, (s.dropWhile isBlank).takeWhile fun c => !isBlank c,
      (s.dropWhile isBlank).dropWhile fun c => !isBlank c, ?_,
      fun c hc => List.mem_takeWhile_imp hc, fun c hc => ?_, fun c hc => ?_, fun hw c hc => ?_⟩
    · rw [List.takeWhile_append_dropWhile, List.takeWhile_append_dropWhile]
    · simpa using List.mem_takeWhile_imp hc
    · simpa using head?_of_span rfl c hc
    · have hsplit := List.takeWhile_append_dropWhile (p := fun c => !isBlank c)
        (l := s.dropWhile isBlank)
      rw [hw, List.nil_append] at hsplit
      exact head?_of_span rfl c (hsplit ▸ hc)
  refine ⟨blanks, w, rest, rfl, hblanks, hrest, ?_⟩
  rw [words_blanks_append hblanks]
  cases rest with
  | nil =>
      obtain rfl | hne := eq_or_ne w []
      · rfl
      · rw [List.append_nil, words_word hne hw, List.headD_cons]
  | cons c rest =>
      obtain rfl | hne := eq_or_ne w []
      · exact absurd ((hempty rfl c rfl).symm.trans (hrest c rfl)) Bool.false_ne_true
      · rw [words_append_blank hne hw (hrest c rfl), List.headD_cons]

/-- The first word of a text, where it is a name, is an identifier of the text. -/
theorem identifier_headD_words {s : List Char} (h : isName ((words s).headD []) = true) :
    Identifier ((words s).headD []) s := by
  obtain ⟨blanks, w, rest, hs, hblanks, hrest, hw⟩ := exists_firstWord s
  rw [hw] at h ⊢
  refine ⟨h, blanks, rest, by rw [hs, List.append_assoc], fun c hc => ?_, fun c hc => ?_⟩
  · exact not_isNameChar_of_isBlank (hblanks c (List.mem_of_getLast? hc))
  · exact not_isNameChar_of_isBlank (hrest c hc)

end Text

namespace Directive

variable {m m' : Macros} {origin : Origin} {name : String} {rest : List Char} {test : Test}

/-- The text of the condition of a directive that has one. -/
def condition? (meaning : List Char) : Option (List Char) :=
  match Action.ofName? (String.ofList (nameAndRest meaning).1) with
  | some (.enter _ _) | some (.switch _) => some (nameAndRest meaning).2
  | _ => none

/-- A test asks for identifiers of its text. -/
theorem Test.holds_congr
    (h : ∀ n : String, Text.Identifier n.toList rest → m.get? n = m'.get? n) :
    test.holds m origin name rest = test.holds m' origin name rest := by
  cases test with
  | expression =>
      have hread : (Condition.parse? rest >>= Condition.holds? m) =
          Condition.parse? rest >>= Condition.holds? m' := by
        cases hparse : Condition.parse? rest with
        | error f => rfl
        | ok c =>
            exact Condition.holds?_congr fun n hn =>
              h n (Condition.identifier_of_parse? hparse n hn)
      rw [holds, holds, hread]
  | definedness negated =>
      unfold holds
      dsimp only
      split
      · next hname =>
        rw [Macros.isDefined, Macros.isDefined, h (String.ofList _)]
        rw [String.toList_ofList]
        exact Text.identifier_headD_words hname
      · rfl

/-- **A directive asks for identifiers of its condition.** -/
theorem apply_congr {path : String} {line : Nat} {meaning : List Char} {groups : List Group}
    (h : ∀ cond ∈ condition? meaning, ∀ n : String, Text.Identifier n.toList cond →
      m.get? n = m'.get? n) :
    apply m path line meaning groups = apply m' path line meaning groups := by
  unfold condition? at h
  unfold apply
  dsimp only
  split
  · rfl
  · next opening test haction =>
    rw [haction] at h
    rw [Test.holds_congr (h _ rfl)]
  · next test haction =>
    rw [haction] at h
    simp only [Test.holds_congr (h _ rfl)]
  · rfl
  · rfl

end Directive

namespace Scan

variable {m m' : Macros} {path : String} {s s' : Scan}

/-- The text at which a scan stands is a directive with a condition, and a name is an identifier of
that condition. -/
def NamesHere (s : Scan) (name : String) : Prop :=
  ∃ rest cond, s.rest = '#' :: rest ∧ s.lineStart = true ∧
    Directive.condition? (Directive.Line.read rest).meaning = some cond ∧
    Text.Identifier name.toList cond

/-- A name is an identifier of the condition of a directive that a scan comes to. -/
def Names (m : Macros) (path : String) (s : Scan) (name : String) : Prop :=
  ∃ ds s', Reaches m path s ds s' ∧ s'.NamesHere name

/-- A name is an identifier of the condition of a directive that stands in a text. -/
def NamedIn (text : List Char) (name : String) : Prop :=
  ∃ rest cond, '#' :: rest <:+ text ∧
    Directive.condition? (Directive.Line.read rest).meaning = some cond ∧
    Text.Identifier name.toList cond

/-- A scan comes to directives of its text alone. -/
theorem Names.namedIn {text : List Char} {name : String} (h : Names m path (.ofText text) name) :
    NamedIn text name := by
  obtain ⟨ds, s', hreaches, rest, cond, hs, -, hcond, hname⟩ := h
  obtain ⟨front, hfront, -⟩ := hreaches.exists_append
  exact ⟨rest, cond, ⟨front, by rw [← hs, ← hfront]⟩, hcond, hname⟩

/-- **A step asks for identifiers of the condition at which it stands.** -/
theorem step_congr {c : Char} {rest : List Char} (hs : s.rest = c :: rest)
    (h : ∀ name, s.NamesHere name → m.get? name = m'.get? name) :
    step m path s c rest = step m' path s c rest := by
  unfold step
  by_cases hmark : c = '#' ∧ s.lineStart = true
  case neg => simp only [if_neg hmark]
  obtain ⟨rfl, hstart⟩ := hmark
  dsimp only
  rw [Directive.apply_congr fun cond hcond name hname =>
    h name ⟨rest, cond, hs, hstart, hcond, hname⟩]

/-- **Scans under environments that agree on what is named take the same steps.** -/
theorem Reaches.of_agree {ds : List Declaration} (hreaches : Reaches m' path s ds s')
    (h : ∀ name, Names m path s name → m.get? name = m'.get? name) : Reaches m path s ds s' := by
  induction hreaches with
  | refl s => exact .refl s
  | @step s s' s'' c rest d ds hs hstep hmore ih =>
      have hstep' : Scan.step m path s c rest = .ok (d, s') :=
        (step_congr hs fun name hname => h name ⟨[], s, .refl s, hname⟩).trans hstep
      refine .step hs hstep' (ih ?_)
      rintro name ⟨ds', s₁, hreaches, hname⟩
      exact h name ⟨_, s₁, .step hs hstep' hreaches, hname⟩

theorem Names.of_agree {name : String} (hname : Names m' path s name)
    (h : ∀ name, Names m path s name → m.get? name = m'.get? name) : Names m path s name := by
  obtain ⟨ds, s', hreaches, hhere⟩ := hname
  exact ⟨ds, s', hreaches.of_agree h, hhere⟩

/-- Scans under two environments stop alike. -/
theorem StopsWith.congr {stop : Option Stop} (hstops : StopsWith m path s stop)
    (h : ∀ name, s.NamesHere name → m.get? name = m'.get? name) : StopsWith m' path s stop := by
  unfold StopsWith at hstops ⊢
  cases hs : s.rest with
  | nil =>
      rw [hs] at hstops
      exact hstops
  | cons c rest =>
      rw [hs] at hstops
      obtain ⟨e, hstep, hstop⟩ := hstops
      exact ⟨e, (step_congr hs h).symm.trans hstep, hstop⟩

/-- Where a scan stops, its run ends. -/
theorem StopsWith.run_eq {stop : Option Stop} (h : StopsWith m path s stop) :
    run m path s = ⟨[], stop⟩ := by
  unfold StopsWith at h
  cases hs : s.rest with
  | nil =>
      rw [hs] at h
      obtain rfl := h
      cases hgroups : s.groups with
      | nil => exact run_end hs hgroups
      | cons g groups => exact run_unclosed hs hgroups
  | cons c rest =>
      rw [hs] at h
      obtain ⟨e, hstep, rfl⟩ := h
      exact run_of_stop hs hstep

/-- Runs under environments that agree on what is named are the same. -/
theorem run_congr (h : ∀ name, Names m path s name → m.get? name = m'.get? name) :
    run m path s = run m' path s := by
  obtain ⟨s', hreaches, hstops⟩ := exists_reaches_end m' path s
  have hreaches' := hreaches.of_agree h
  have hstops' : StopsWith m path s' (run m' path s).stop :=
    hstops.congr fun name hname => (h name ⟨_, s', hreaches', hname⟩).symm
  rw [hreaches'.run_eq, hstops'.run_eq, List.append_nil]

end Scan

/-- **A scan depends on the macros that its conditions name.** Two environments with the same
definition, or none, for every identifier of a condition that the scan under the one comes to give
the same declarations, with the same namespaces, places and liveness, and the same end. The scan
under the other comes to the same conditions, and all of them stand in the source. -/
theorem scan_named {m m' : Macros} {path source : String}
    (h : ∀ name, Scan.Names m path (.ofText source.toList) name → m.get? name = m'.get? name) :
    scan m path source = scan m' path source ∧
      (∀ name, Scan.Names m path (.ofText source.toList) name ↔
        Scan.Names m' path (.ofText source.toList) name) ∧
      ∀ name, Scan.Names m path (.ofText source.toList) name →
        Scan.NamedIn source.toList name := by
  refine ⟨Scan.run_congr h, fun name => ⟨fun hname => ?_, fun hname => hname.of_agree h⟩,
    fun name hname => hname.namedIn⟩
  exact hname.of_agree fun name hname => (h name (hname.of_agree h)).symm

/-- A name outside conditions may be defined or not. -/
theorem scan_named_outside :
    let source := "#ifdef A\nBPDataBuffer(bool, B, \"x\")\n#endif\n"
    let m : Macros := ⟨[("A", .defined)]⟩
    let m' : Macros := ⟨[("A", .defined), ("B", .value "2")]⟩
    (∀ name, Scan.Names m "in.h" (.ofText source.toList) name → m.get? name = m'.get? name) ∧
      m.get? "B" ≠ m'.get? "B" ∧ scan m "in.h" source = scan m' "in.h" source ∧
      hasLiveDeclaration m "in.h" source = .ok true := by
  intro source m m'
  have hagree : ∀ name, Scan.Names m "in.h" (.ofText source.toList) name →
      m.get? name = m'.get? name := by
    intro name hname
    obtain ⟨rest, cond, hrest, hcond, hname⟩ := hname.namedIn
    have hplaces : ∀ t ∈ source.toList.tails, t.head? = some '#' →
        ∀ cond ∈ Directive.condition? (Directive.Line.read t.tail).meaning, cond = ['A'] := by
      decide +kernel
    obtain rfl := hplaces _ ((List.mem_tails _ _).2 hrest) rfl cond hcond
    rw [← String.ofList_toList (s := name), hname.eq_singleton]
    decide
  exact ⟨hagree, by decide, (scan_named hagree).1, by decide +kernel⟩

end EmbeddedBuffers
