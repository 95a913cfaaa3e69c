import EmbeddedBuffers.Proofs.Generation.Interrupted

/-!
# Workers

Neither the number of the workers nor the order in which they take their jobs shows in the result of
a run. What ends a run is the first job that fails, unless a later job crashes: all jobs are done
before the first result is looked at, and a crash ends them all. Main statement: `threads_unseen`.
-/

namespace EmbeddedBuffers

variable {α : Type}

/-! ## Jobs that fail -/

/-- A problem is hidden by a crash among later results. -/
def Stop.HiddenBy (e : Stop) (later : List (Except Stop α)) : Prop :=
  (∃ p, e = .problem p) ∧ ∃ c, .error (.crash c) ∈ later

namespace Settings

/-- Results without a crash are gathered one after the other. -/
theorem collectResults_of_no_crash {results : List (Except Stop α)}
    (h : ∀ c, .error (.crash c) ∉ results) : collectResults results = results.mapM id := by
  unfold collectResults
  dsimp only
  split
  · next c hcrash =>
    obtain ⟨r, hr, hsome⟩ := List.exists_of_findSome?_eq_some hcrash
    split at hsome
    · exact absurd hr (h _)
    · cases hsome
  · rfl

/-- A crash ends all jobs. -/
theorem exists_crash_of_mem {results : List (Except Stop α)} {c : Crash}
    (h : .error (.crash c) ∈ results) : ∃ c', collectResults results = .error (.crash c') := by
  unfold collectResults
  dsimp only
  split
  · next c' _ => exact ⟨c', rfl⟩
  · next hnone => cases List.findSome?_eq_none_iff.1 hnone _ h

theorem mapM_first {before after : List (Except Stop α)} {e : Stop}
    (hbefore : ∀ r ∈ before, ∃ a, r = .ok a) :
    (before ++ .error e :: after).mapM id = .error e := by
  induction before with
  | nil => rfl
  | cons r before ih =>
      obtain ⟨⟨a, rfl⟩, hrest⟩ := List.forall_mem_cons.1 hbefore
      rw [List.cons_append, List.mapM_cons, ih hrest]
      rfl

/-- **The first job that fails is what its error says, unless a later crash hides it.** -/
theorem collectResults_first {before after : List (Except Stop α)} {e : Stop}
    (hbefore : ∀ r ∈ before, ∃ a, r = .ok a) :
    collectResults (before ++ .error e :: after) = .error e ↔ ¬ e.HiddenBy after := by
  have hresults : ∀ {r}, r ∈ before ++ .error e :: after ↔
      r ∈ before ∨ r = .error e ∨ r ∈ after := by
    intro r
    rw [List.mem_append, List.mem_cons]
  cases e with
  | crash c =>
      refine iff_of_true ?_ fun hhidden => (nomatch hhidden.1)
      unfold collectResults
      dsimp only
      rw [List.findSome?_append, List.findSome?_eq_none_iff.2]
      · rfl
      · intro r hr
        obtain ⟨a, rfl⟩ := hbefore r hr
        rfl
  | problem p =>
      constructor
      · rintro heq ⟨-, c, hc⟩
        obtain ⟨c', hcrash⟩ := exists_crash_of_mem (hresults.2 (Or.inr (Or.inr hc)))
        rw [heq] at hcrash
        cases hcrash
      · intro hhidden
        rw [collectResults_of_no_crash, mapM_first hbefore]
        intro c hc
        rcases hresults.1 hc with hc | hc | hc
        · obtain ⟨a, ha⟩ := hbefore _ hc
          cases ha
        · cases hc
        · exact hhidden ⟨⟨p, rfl⟩, c, hc⟩

/-! ## Any number of workers -/

/-- Whether a file has a live declaration. -/
def hasLive (s : Settings) (t : FileTree) (path : String) : Except Stop Bool := do
  hasLiveDeclaration s.macros path (← t.source path)

/-- The files that were found to have one. -/
def kept (files : List String) (live : List Bool) : List String :=
  ((files.zip live).filter (·.2)).map (·.1)

theorem filter_eq (s : Settings) (t : FileTree) (files : List String) :
    s.filter t files = kept files <$> collectResults (files.map (s.hasLive t)) := by
  unfold filter
  rw [Pool.map_eq]
  rfl

/-- The same results, and the same files after a run. -/
structure SameRuns [Decoders] (s s' : Settings) (t : FileTree) : Prop where
  generate_eq : ∀ tools input output force failing,
    ((s.generate tools input output force).outcome t failing).1 =
        ((s'.generate tools input output force).outcome t failing).1 ∧
      ((s.generate tools input output force).outcome t failing).2.session =
        ((s'.generate tools input output force).outcome t failing).2.session
  filter_eq : ∀ files, s.filter t files = s'.filter t files

theorem sameRuns_threads [Decoders] (s : Settings) (threads threads' : Option Nat) (t : FileTree) :
    SameRuns { s with threads } { s with threads := threads' } t := by
  have hgenerate : ∀ tools input output force,
      ({ s with threads } : Settings).generate tools input output force =
        ({ s with threads := threads' } : Settings).generate tools input output force := by
    intro tools input output force
    unfold generate
    simp only [payloads_eq]
    rfl
  refine ⟨fun tools input output force failing => ?_, fun files => ?_⟩
  · rw [hgenerate]
    exact ⟨rfl, rfl⟩
  · rw [filter_eq, filter_eq]
    rfl

/-! ## Runs that make payloads -/

/-- A run that has to make a header, and has put the mark in its place. -/
structure Due [Decoders] (s : Settings) (tools : List String) (input output : String) (force : Bool)
    (t : FileTree) (failing : List (Nat × WriteFault)) (ds : List Declaration)
    (marked : Session) : Prop where
  inspect_eq : ∃ set, s.inspect t input = .ok (ds, set) ∧ (force = true ∨ ∃ found,
    t.freshness tools output input set.paths (s.fingerprint ds set) = .ok found ∧ found ≠ .fresh)
  marked_eq : (Session.start t failing).replaceFile output (incompleteMark ++ "\n") =
    (.ok (), marked)

variable {s : Settings} {tools : List String} {input output : String} {force : Bool} {t : FileTree}
  {failing : List (Nat × WriteFault)} {ds : List Declaration} {marked : Session}

/-- A run that comes to its payloads ends with what ends them. -/
theorem Due.outcome_eq [Decoders] (h : s.Due tools input output force t failing ds marked)
    {e : Stop} (he : (s.payloads (s.context marked.tree input) ds).1 = .error e) :
    ((s.generate tools input output force).outcome t failing).1 = .error e := by
  obtain ⟨set, hinspect, hdue⟩ := h.inspect_eq
  have hmaking : ∀ {reason result σ remains},
      s.EndsMaking input output (.start t failing) ds (s.fingerprint ds set) reason result σ remains →
        result = .error e := by
    intro reason result σ remains hends
    cases hends with
    | unmarked hmark =>
        rw [h.marked_eq] at hmark
        cases hmark
    | unproduced hmark hmade =>
        rw [h.marked_eq] at hmark
        cases hmark
        rw [he] at hmade
        cases hmade
        rfl
    | unrendered hmark hmade | unwritten hmark hmade | generated hmark hmade =>
        rw [h.marked_eq] at hmark
        cases hmark
        rw [he] at hmade
        cases hmade
  obtain ⟨remains, hends⟩ := exists_ends s tools input output force t failing
  generalize ((s.generate tools input output force).outcome t failing).1 = result at hends
  generalize ((s.generate tools input output force).outcome t failing).2.session = σ at hends
  cases hends with
  | uninspected hnot =>
      rw [hinspect] at hnot
      cases hnot
  | unchecked hforce hinspect' hfound =>
      rw [hinspect] at hinspect'
      cases hinspect'
      rcases hdue with hforced | ⟨found, hstale, -⟩
      · rw [hforced] at hforce
        cases hforce
      · rw [hstale] at hfound
        cases hfound
  | upToDate hforce hinspect' hfound =>
      rw [hinspect] at hinspect'
      cases hinspect'
      rcases hdue with hforced | ⟨found, hstale, hne⟩
      · rw [hforced] at hforce
        cases hforce
      · rw [hstale] at hfound
        cases hfound
        exact absurd rfl hne
  | due hforce hinspect' _ _ hmade | forced hforce hinspect' hmade =>
      rw [hinspect] at hinspect'
      cases hinspect'
      exact hmaking hmade

/-- The first declaration whose payload cannot be made ends a run, unless a later crash does. -/
theorem Due.first_failure [Decoders] {before after : List Declaration} {d : Declaration} {e : Stop}
    (h : s.Due tools input output force t failing (before ++ d :: after) marked)
    (hbefore : ∀ d' ∈ before, ∃ p, payloadOf (s.context marked.tree input) d' = .ok p)
    (he : payloadOf (s.context marked.tree input) d = .error e) :
    ((s.generate tools input output force).outcome t failing).1 = .error e ↔
      ¬ e.HiddenBy (after.map (payloadOf (s.context marked.tree input))) := by
  have hpayloads : (s.payloads (s.context marked.tree input) (before ++ d :: after)).1 =
      collectResults (before.map (payloadOf (s.context marked.tree input)) ++
        .error e :: after.map (payloadOf (s.context marked.tree input))) := by
    rw [payloads_eq, List.map_append, List.map_cons, he]
  rw [← collectResults_first (List.forall_mem_map.2 hbefore)]
  cases hmade : (s.payloads (s.context marked.tree input) (before ++ d :: after)).1 with
  | ok ps =>
      rw [hpayloads, collectResults_eq_ok] at hmade
      have hmem := List.mem_append_right (before.map (payloadOf (s.context marked.tree input)))
        (List.mem_cons_self (a := (.error e : Except Stop (Header.Payload × Nat)))
          (l := after.map (payloadOf (s.context marked.tree input))))
      rw [hmade] at hmem
      obtain ⟨_, -, heq⟩ := List.mem_map.1 hmem
      cases heq
  | error e' =>
      rw [h.outcome_eq hmade, ← hpayloads, hmade, Except.error.injEq, Except.error.injEq]

/-! ## Files that are filtered -/

theorem filter_eq_ok {files found : List String} : s.filter t files = .ok found ↔
    (∀ path ∈ files, ∃ live, s.hasLive t path = .ok live) ∧
      found = files.filter fun path => (s.hasLive t path).toOption == some true := by
  have hkept : ∀ {files : List String} {live : List Bool},
      files.map (s.hasLive t) = live.map .ok → kept files live =
        files.filter fun path => (s.hasLive t path).toOption == some true := by
    intro files live hlive
    induction files generalizing live with
    | nil => cases live <;> rfl
    | cons path files ih =>
        cases live with
        | nil => cases hlive
        | cons b live =>
            rw [List.map_cons, List.map_cons, List.cons.injEq] at hlive
            have hrest : kept (path :: files) (b :: live) =
                if b then path :: kept files live else kept files live := by
              cases b <;> rfl
            rw [hrest, List.filter_cons, hlive.1, ih hlive.2]
            cases b <;> rfl
  rw [filter_eq]
  constructor
  · intro h
    cases hlive : collectResults (files.map (s.hasLive t)) with
    | error e =>
        rw [hlive] at h
        cases h
    | ok live =>
        rw [hlive] at h
        cases h
        have hmap := collectResults_eq_ok.1 hlive
        exact ⟨exists_map_eq_ok.1 ⟨live, hmap⟩, hkept hmap⟩
  · rintro ⟨hall, rfl⟩
    obtain ⟨live, hlive⟩ := exists_map_eq_ok.2 hall
    rw [collectResults_eq_ok.2 hlive, ← hkept hlive]
    rfl

/-- The first file that cannot be read or scanned ends the filter, unless a later crash does. -/
theorem filter_first_failure {before after : List String} {path : String} {e : Stop}
    (hbefore : ∀ f ∈ before, ∃ live, s.hasLive t f = .ok live) (he : s.hasLive t path = .error e) :
    s.filter t (before ++ path :: after) = .error e ↔ ¬ e.HiddenBy (after.map (s.hasLive t)) := by
  rw [← collectResults_first (List.forall_mem_map.2 hbefore), filter_eq, List.map_append,
    List.map_cons, he]
  cases collectResults (before.map (s.hasLive t) ++ .error e :: after.map (s.hasLive t)) with
  | ok live => exact iff_of_false (fun h => (nomatch h)) (fun h => (nomatch h))
  | error e' =>
      show (Except.error e' : Except Stop (List String)) = _ ↔ _
      rw [Except.error.injEq, Except.error.injEq]

/-- **Neither the number of the workers nor their schedule shows.** Runs and filters end alike under
any number of workers, and so do searches. Whatever the order in which workers take their jobs, the
results are gathered in the order of the jobs. What ends them is the first failure, a problem only
where no later job crashes. -/
theorem threads_unseen [Decoders] (s : Settings) (t : FileTree) :
    (∀ threads threads', SameRuns { s with threads } { s with threads := threads' } t) ∧
    (∀ data limits threads threads',
      Codec.search data limits threads = Codec.search data limits threads') ∧
    (∀ workers schedule, (∀ worker ∈ schedule, worker < workers) →
      (∀ files : List String, files.length ≤ schedule.length → s.filter t files =
        kept files <$> collectResults
          (Pool.collect (Pool.run (s.hasLive t) files.toArray workers schedule))) ∧
      ∀ ctx ds threads, ds.length ≤ schedule.length → (s.payloads ctx ds).1 =
        collectResults (Pool.collect
          (Pool.run (fun d => (payload ctx threads d).outcome.1) ds.toArray workers schedule))) ∧
    (∀ files found, s.filter t files = .ok found ↔
      (∀ path ∈ files, ∃ live, s.hasLive t path = .ok live) ∧
        found = files.filter fun path => (s.hasLive t path).toOption == some true) ∧
    (∀ before path after e, (∀ f ∈ before, ∃ live, s.hasLive t f = .ok live) →
      s.hasLive t path = .error e → (s.filter t (before ++ path :: after) = .error e ↔
        ¬ e.HiddenBy (after.map (s.hasLive t)))) ∧
    ∀ tools input output force failing before d after marked e,
      s.Due tools input output force t failing (before ++ d :: after) marked →
      (∀ d' ∈ before, ∃ p, payloadOf (s.context marked.tree input) d' = .ok p) →
      payloadOf (s.context marked.tree input) d = .error e →
      (((s.generate tools input output force).outcome t failing).1 = .error e ↔
        ¬ e.HiddenBy (after.map (payloadOf (s.context marked.tree input)))) := by
  refine ⟨fun threads threads' => sameRuns_threads s threads threads' t, Codec.search_threads,
    fun workers schedule hworkers => ⟨fun files hlength => ?_, fun ctx ds threads hlength => ?_⟩,
    fun _ _ => filter_eq_ok, fun _ _ _ _ => filter_first_failure,
    fun _ _ _ _ _ _ _ _ _ _ => Due.first_failure⟩
  · rw [Pool.collect_run _ files hworkers hlength, filter_eq]
  · have hthreads : (fun d => (payload ctx threads d).outcome.1) = payloadOf ctx :=
      funext fun d => by rw [payloadOf, payload_eq (.refl d ctx) threads 1]
    rw [Pool.collect_run _ ds hworkers hlength, hthreads, payloads_eq]

/-- A file with a group that is not closed, and one with a call that breaks a character. -/
def brokenPair : FileTree where
  home := []
  nodes := [(["a.h"], .file (.bytes (utf8 "#ifdef A\n")) 1),
    (["b.h"], .file (.bytes (utf8 "BPDataBuffer(é)\n")) 1)]
  now := 1

/-- What stopped a job. -/
def stop? : Except Stop α → Option Stop
  | .ok _ => none
  | .error e => some e

theorem eq_error_of_stop? {x : Except Stop α} {e : Stop} (h : stop? x = some e) : x = .error e := by
  cases x with
  | ok a => cases h
  | error e' => rw [Option.some.inj h]

/-- The first file alone gives its problem; before the second one nothing does. -/
theorem threads_unseen_brokenPair :
    let unclosed : Stop :=
      .problem (.unpairedDirective (.atLine "a.h" 1) "#ifdef is never closed by #endif")
    (searching "d").filter brokenPair ["a.h"] = .error unclosed ∧
      (searching "d").filter brokenPair ["a.h", "b.h"] ≠ .error unclosed := by
  intro unclosed
  have hstops : stop? ((searching "d").hasLive brokenPair "a.h") = some unclosed ∧
      stop? ((searching "d").hasLive brokenPair "b.h") = some (.crash .brokenCharacter) := by
    decide +kernel
  have hfirst := eq_error_of_stop? hstops.1
  obtain ⟨-, -, -, -, hfailure, -⟩ := threads_unseen (searching "d") brokenPair
  have hnone : ∀ f ∈ ([] : List String), ∃ live, (searching "d").hasLive brokenPair f = .ok live :=
    fun _ h => absurd h List.not_mem_nil
  constructor
  · refine (hfailure [] "a.h" [] unclosed hnone hfirst).2 ?_
    rintro ⟨-, c, hc⟩
    exact absurd hc List.not_mem_nil
  · intro heq
    refine (hfailure [] "a.h" ["b.h"] unclosed hnone hfirst).1 heq ⟨⟨_, rfl⟩, .brokenCharacter, ?_⟩
    rw [List.map_singleton, eq_error_of_stop? hstops.2]
    exact List.mem_singleton_self _

end Settings

end EmbeddedBuffers
