import EmbeddedBuffers.Proofs.Generation.Threads

/-!
# Files that are kept

The search for a live declaration stops at the first one, and the scan of a whole source goes on
to its end or to what stops it. The search finds one exactly where the scan yields one, and
otherwise ends as the scan does; so the files that a filter keeps are those whose live declarations,
where they can be listed, are not none. Main statement: `search_agrees`.
-/

namespace EmbeddedBuffers

namespace Scan

/-- What a search for a live declaration gives that goes through all that a scan yields. -/
def Result.search (r : Result) : Except Stop Bool :=
  if r.declarations.any (·.live) then .ok true
  else
    match r.stop with
    | none => .ok false
    | some e => .error e

/-- The search that stops early gives what the one through the whole scan gives. -/
theorem findLive_eq (m : Macros) (path : String) (s : Scan) :
    findLive m path s = (run m path s).search := by
  fun_induction findLive m path s with
  | case1 s e hnext => rw [run_eq, hnext, Result.search, List.any_nil, if_neg Bool.false_ne_true]
  | case2 s hnext => rw [run_eq, hnext, Result.search, List.any_nil, if_neg Bool.false_ne_true]
  | case3 s d s' hnext hlive =>
      rw [run_eq, hnext, Result.search, List.any_cons, hlive, Bool.true_or, if_pos rfl]
  | case4 s d s' hnext hdead ih =>
      rw [ih, run_eq m path s, hnext, Result.search, Result.search, List.any_cons,
        Bool.eq_false_iff.2 hdead, Bool.false_or]

variable {r : Result}

theorem Result.search_eq_true : r.search = .ok true ↔ ∃ d ∈ r.declarations, d.live = true := by
  rw [← List.any_eq_true, search]
  cases r.declarations.any (·.live) with
  | true => exact iff_of_true rfl rfl
  | false => cases r.stop <;> simp

/-- Without a live declaration the search ends as the scan does. -/
theorem Result.search_of_dead (h : ∀ d ∈ r.declarations, d.live = false) : r.search =
    match r.stop with
    | none => .ok false
    | some e => .error e := by
  have hnone : r.declarations.any (·.live) = false := by
    rw [List.any_eq_false]
    intro d hd
    rw [h d hd]
    exact Bool.false_ne_true
  rw [search, hnone, if_neg Bool.false_ne_true]

theorem Result.dead_of_search (h : r.search ≠ .ok true) : ∀ d ∈ r.declarations, d.live = false := by
  intro d hd
  exact Bool.eq_false_iff.2 fun hlive => h (search_eq_true.2 ⟨d, hd, hlive⟩)

theorem Result.search_eq_false : r.search = .ok false ↔
    r.stop = none ∧ ∀ d ∈ r.declarations, d.live = false := by
  constructor
  · intro h
    have hdead := dead_of_search (r := r) (by rw [h]; simp)
    rw [search_of_dead hdead] at h
    cases hstop : r.stop with
    | none => exact ⟨rfl, hdead⟩
    | some e =>
        rw [hstop] at h
        cases h
  · rintro ⟨hstop, hdead⟩
    rw [search_of_dead hdead, hstop]

theorem Result.search_eq_error {e : Stop} : r.search = .error e ↔
    r.stop = some e ∧ ∀ d ∈ r.declarations, d.live = false := by
  constructor
  · intro h
    have hdead := dead_of_search (r := r) (by rw [h]; simp)
    rw [search_of_dead hdead] at h
    cases hstop : r.stop with
    | none =>
        rw [hstop] at h
        cases h
    | some e' =>
        rw [hstop] at h
        cases h
        exact ⟨rfl, hdead⟩
  · rintro ⟨hstop, hdead⟩
    rw [search_of_dead hdead, hstop]

/-- Steps that yield a live declaration begin with steps to the first one. -/
theorem Reaches.exists_first {m : Macros} {path : String} {s s' : Scan} {ds : List Declaration}
    (h : Reaches m path s ds s') (hlive : ∃ d ∈ ds, d.live = true) :
    ∃ before d s'', Reaches m path s (before ++ [d]) s'' ∧ d.live = true ∧
      ∀ b ∈ before, b.live = false := by
  induction h with
  | refl s =>
      obtain ⟨d, hd, -⟩ := hlive
      cases hd
  | @step s s' s'' c rest d ds hs hstep hmore ih =>
      by_cases hfirst : ∃ d' ∈ d, d'.live = true
      case pos =>
        obtain ⟨d', rfl, hd'⟩ := hfirst
        exact ⟨[], d', s', .single hs hstep, hd', List.forall_mem_nil _⟩
      have hrest : ∃ d' ∈ ds, d'.live = true := by
        obtain ⟨d', hmem, hd'⟩ := hlive
        rcases List.mem_append.1 hmem with hmem | hmem
        · exact absurd ⟨d', Option.mem_toList.1 hmem, hd'⟩ hfirst
        · exact ⟨d', hmem, hd'⟩
      obtain ⟨before, d', s₁, hreaches, hd', hbefore⟩ := ih hrest
      refine ⟨d.toList ++ before, d', s₁, ?_, hd', fun b hb => ?_⟩
      · rw [List.append_assoc]
        exact .step hs hstep hreaches
      · rcases List.mem_append.1 hb with hb | hb
        · exact Bool.eq_false_iff.2 fun hb' => hfirst ⟨b, Option.mem_toList.1 hb, hb'⟩
        · exact hbefore b hb

/-- A scan yields a live declaration exactly if steps lead to it. -/
theorem exists_live_iff {m : Macros} {path : String} {s : Scan} :
    (∃ d ∈ (run m path s).declarations, d.live = true) ↔
      ∃ before d s', Reaches m path s (before ++ [d]) s' ∧ d.live = true ∧
        ∀ b ∈ before, b.live = false := by
  constructor
  · intro h
    obtain ⟨s', hreaches, -⟩ := exists_reaches_end m path s
    exact hreaches.exists_first h
  · rintro ⟨before, d, s', hreaches, hlive, -⟩
    refine ⟨d, ?_, hlive⟩
    rw [hreaches.run_eq]
    exact List.mem_append_left _ List.mem_concat_self

end Scan

theorem hasLiveDeclaration_eq (m : Macros) (path source : String) :
    hasLiveDeclaration m path source = (scan m path source).search :=
  Scan.findLive_eq m path _

/-- Where the live declarations can be listed, the search tells whether there are any. -/
theorem hasLiveDeclaration_of_liveDeclarations {m : Macros} {path source : String}
    {ds : List Declaration} (h : liveDeclarations m path source = .ok ds) :
    hasLiveDeclaration m path source = .ok (!ds.isEmpty) := by
  obtain ⟨hstop, rfl⟩ := liveDeclarations_eq_ok.1 h
  rw [hasLiveDeclaration_eq]
  cases hfilter : (scan m path source).declarations.filter (·.live) with
  | nil =>
      refine Scan.Result.search_eq_false.2 ⟨hstop, fun d hd => ?_⟩
      exact Bool.eq_false_iff.2 (List.filter_eq_nil_iff.1 hfilter d hd)
  | cons d ds =>
      have hmem : d ∈ (scan m path source).declarations.filter (·.live) :=
        hfilter ▸ List.mem_cons_self
      obtain ⟨hd, hlive⟩ := List.mem_filter.1 hmem
      exact Scan.Result.search_eq_true.2 ⟨d, hd, hlive⟩

namespace Settings

/-- The live declarations of a file. -/
def live (s : Settings) (t : FileTree) (path : String) : Except Stop (List Declaration) := do
  liveDeclarations s.macros path (← t.source path)

variable {s : Settings} {t : FileTree} {path : String} {files found : List String}

theorem hasLive_of_live {ds : List Declaration} (h : s.live t path = .ok ds) :
    s.hasLive t path = .ok (!ds.isEmpty) := by
  obtain ⟨source, hsource, hds⟩ := exists_of_bind_eq_ok h
  rw [hasLive, hsource]
  exact hasLiveDeclaration_of_liveDeclarations hds

/-- A file whose live declarations can be listed is kept exactly if there are any. -/
theorem mem_filter_iff {ds : List Declaration} (h : s.filter t files = .ok found)
    (hpath : path ∈ files) (hlive : s.live t path = .ok ds) : path ∈ found ↔ ds ≠ [] := by
  obtain ⟨-, rfl⟩ := filter_eq_ok.1 h
  rw [List.mem_filter, hasLive_of_live hlive]
  cases ds <;> simp [hpath, Except.toOption]

theorem filter_of_live {ds : String → List Declaration}
    (h : ∀ path ∈ files, s.live t path = .ok (ds path)) :
    s.filter t files = .ok (files.filter fun path => !(ds path).isEmpty) := by
  refine filter_eq_ok.2 ⟨fun path hpath => ⟨_, hasLive_of_live (h path hpath)⟩, ?_⟩
  refine List.filter_congr fun path hpath => ?_
  rw [hasLive_of_live (h path hpath)]
  cases (ds path).isEmpty <;> rfl

/-- **The search that stops at the first live declaration agrees with the whole scan.** It finds one
exactly if the scan yields one, to which steps lead that nothing stops; it finds none exactly if the
scan comes to its end without one; and it ends in what stops the scan exactly if no live declaration
comes before. A filter succeeds where the live declarations of all its files can be listed, and of
such files it keeps those that have any, also among files whose scans stop behind a live
declaration. -/
theorem search_agrees (m : Macros) (path source : String) :
    (hasLiveDeclaration m path source = .ok true ↔
      ∃ d ∈ (scan m path source).declarations, d.live = true) ∧
    ((∃ d ∈ (scan m path source).declarations, d.live = true) ↔
      ∃ before d s, Scan.Reaches m path (.ofText source.toList) (before ++ [d]) s ∧
        d.live = true ∧ ∀ b ∈ before, b.live = false) ∧
    (hasLiveDeclaration m path source = .ok false ↔ (scan m path source).stop = none ∧
      ∀ d ∈ (scan m path source).declarations, d.live = false) ∧
    (∀ e, hasLiveDeclaration m path source = .error e ↔ (scan m path source).stop = some e ∧
      ∀ d ∈ (scan m path source).declarations, d.live = false) ∧
    (∀ s t files (ds : String → List Declaration),
      (∀ path ∈ files, Settings.live s t path = .ok (ds path)) →
        s.filter t files = .ok (files.filter fun path => !(ds path).isEmpty)) ∧
    ∀ s t files found file ds, Settings.filter s t files = .ok found → file ∈ files →
      s.live t file = .ok ds → (file ∈ found ↔ ds ≠ []) := by
  rw [hasLiveDeclaration_eq]
  exact ⟨Scan.Result.search_eq_true, Scan.exists_live_iff, Scan.Result.search_eq_false,
    fun _ => Scan.Result.search_eq_error, fun _ _ _ _ => filter_of_live,
    fun _ _ _ _ _ _ => mem_filter_iff⟩

/-- A file with a stray `#endif` behind a live declaration, one with a dead declaration and one with
a live one. -/
def strayBehind : FileTree where
  home := []
  nodes := [(["a.h"], .file (.bytes (utf8 "BPDataBuffer(bool, a, \"x\")\n#endif\n")) 1),
    (["b.h"], .file (.bytes (utf8 "#ifdef B\nBPDataBuffer(bool, b, \"x\")\n#endif\n")) 1),
    (["c.h"], .file (.bytes (utf8 "BPDataBuffer(bool, c, \"x\")\n")) 1)]
  now := 1

theorem exists_list_of_length {α : Type} {x : Except Stop (List α)} {n : Nat}
    (h : x.toOption.map List.length = some n) : ∃ l, x = .ok l ∧ l.length = n := by
  cases x with
  | error e => cases h
  | ok l => exact ⟨l, rfl, Option.some.inj h⟩

/-- A file is kept for what stands before its stray `#endif`, which ends the list of its live
declarations. -/
theorem search_agrees_strayBehind :
    let s := searching "d"
    s.live strayBehind "a.h" =
        .error (.problem (.unpairedDirective (.atLine "a.h" 2) "#endif without a matching #if")) ∧
      s.live strayBehind "b.h" = .ok [] ∧ (∃ d, s.live strayBehind "c.h" = .ok [d]) ∧
      s.filter strayBehind ["b.h", "c.h"] = .ok ["c.h"] ∧
      ∃ found, s.filter strayBehind ["a.h", "b.h", "c.h"] = .ok found ∧
        "a.h" ∈ found ∧ "b.h" ∉ found ∧ "c.h" ∈ found := by
  intro s
  have ha := eq_error_of_stop? (x := s.live strayBehind "a.h")
    (e := .problem (.unpairedDirective (.atLine "a.h" 2) "#endif without a matching #if"))
    (by decide +kernel)
  obtain ⟨dead, hb, hdead⟩ :=
    exists_list_of_length (x := s.live strayBehind "b.h") (n := 0) (by decide +kernel)
  obtain ⟨live, hd, hlive⟩ :=
    exists_list_of_length (x := s.live strayBehind "c.h") (n := 1) (by decide +kernel)
  obtain rfl := List.length_eq_zero_iff.1 hdead
  obtain ⟨d, rfl⟩ := List.length_eq_one_iff.1 hlive
  have hsearch : s.hasLive strayBehind "a.h" = .ok true := by decide +kernel
  obtain ⟨-, -, -, -, hlisted, hkept⟩ := search_agrees s.macros "a.h" ""
  have hpair : s.filter strayBehind ["b.h", "c.h"] = .ok ["c.h"] := by
    refine hlisted s strayBehind ["b.h", "c.h"] (fun path => if path = "b.h" then [] else [d]) ?_
    simp [hb, hd]
  have hall : ∃ found, s.filter strayBehind ["a.h", "b.h", "c.h"] = .ok found := by
    refine ⟨_, filter_eq_ok.2 ⟨?_, rfl⟩⟩
    simp [hsearch, hasLive_of_live hb, hasLive_of_live hd]
  obtain ⟨found, hfound⟩ := hall
  refine ⟨ha, hb, ⟨d, hd⟩, hpair, found, hfound, ?_, ?_, ?_⟩
  · obtain ⟨-, rfl⟩ := filter_eq_ok.1 hfound
    simp [hsearch, Except.toOption]
  · exact fun hmem => (hkept s _ _ found "b.h" [] hfound (by decide) hb).1 hmem rfl
  · exact (hkept s _ _ found "c.h" [d] hfound (by decide) hd).2 (List.cons_ne_nil d [])

end Settings

end EmbeddedBuffers
