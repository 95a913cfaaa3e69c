import EmbeddedBuffers.Proofs.Files.Interruption
import EmbeddedBuffers.Proofs.Generation.UpToDate

/-!
# Runs that stop

A run may end in many ways, a write of it may fail, and it may be cut off between any two of its
changes. What stands in the place of the header then is what stood there before, the mark, or the
finished header, and the last only after a run that says so. A run that finds the mark makes the
header again. Main statement: `generate_remains`.
-/

namespace EmbeddedBuffers

open FileTree

/-- What a run may leave in the place of the header. -/
inductive Remains
  | asBefore
  | mark
  | header (text : String)

namespace Remains

/-- A tree holds what may be left of a run, and every other file is as it was. There may be a new
file beside the header while a run goes on. -/
def Left (output : String) (t t' : FileTree) : Remains → Prop
  | asBefore => Unreplaced output t t'
  | mark => ∃ (target : Location) (temporary : Option Location),
      (∀ place ∈ temporary, t.get? place = none ∧ place.getLast? ≠ some (lastPart output)) ∧
        Keeps (target :: temporary.toList) t t' ∧ t'.Shows output target (incompleteMark ++ "\n")
  | header text => ∃ target, Keeps [target] t t' ∧ t'.Shows output target text

/-- What may be left of a run that is cut off and would leave this in the end. -/
def onTheWay : Remains → List Remains
  | asBefore => [asBefore]
  | mark | header _ => [asBefore, mark]

end Remains

/-- The same end of a run, with a reason for making a header. -/
def Outcome.because (reason : Staleness) : Outcome → Outcome
  | .upToDate => .upToDate
  | .generated _ buffers => .generated (some reason) buffers

namespace Settings

variable {s : Settings} {tools : List String} {input output : String} {force : Bool} {t : FileTree}
  {failing : List (Nat × WriteFault)}

/-- How a run ends that has to make a header, with its changes and what they leave. -/
inductive EndsMaking [Decoders] (s : Settings) (input output : String) (begun : Session)
    (ds : List Declaration) (fingerprint : Nat) (reason : Option Staleness) :
    Except Stop Outcome → Session → Remains → Prop
  | unmarked {p : Problem} {σ : Session}
      (h : begun.replaceFile output (incompleteMark ++ "\n") = (.error p, σ)) :
      EndsMaking s input output begun ds fingerprint reason (.error (.problem p)) σ .asBefore
  | unproduced {e : Stop} {marked : Session}
      (hmark : begun.replaceFile output (incompleteMark ++ "\n") = (.ok (), marked))
      (h : (s.payloads (s.context marked.tree input) ds).1 = .error e) :
      EndsMaking s input output begun ds fingerprint reason (.error e) marked .mark
  | unrendered {p : Problem} {marked : Session} {ps : List (Header.Payload × Nat)}
      (hmark : begun.replaceFile output (incompleteMark ++ "\n") = (.ok (), marked))
      (hmade : (s.payloads (s.context marked.tree input) ds).1 = .ok ps)
      (h : s.header input fingerprint ds ps = .error p) :
      EndsMaking s input output begun ds fingerprint reason (.error (.problem p)) marked .mark
  | unwritten {p : Problem} {marked σ : Session} {ps : List (Header.Payload × Nat)} {text : String}
      (hmark : begun.replaceFile output (incompleteMark ++ "\n") = (.ok (), marked))
      (hmade : (s.payloads (s.context marked.tree input) ds).1 = .ok ps)
      (hheader : s.header input fingerprint ds ps = .ok text)
      (h : marked.replaceFile output text = (.error p, σ)) :
      EndsMaking s input output begun ds fingerprint reason (.error (.problem p)) σ .mark
  | generated {marked σ : Session} {ps : List (Header.Payload × Nat)} {text : String}
      (hmark : begun.replaceFile output (incompleteMark ++ "\n") = (.ok (), marked))
      (hmade : (s.payloads (s.context marked.tree input) ds).1 = .ok ps)
      (hheader : s.header input fingerprint ds ps = .ok text)
      (h : marked.replaceFile output text = (.ok (), σ)) :
      EndsMaking s input output begun ds fingerprint reason
        (.ok (.generated reason (ds.zipWith summary ps))) σ (.header text)

/-- How a run ends, with its changes and what they leave. -/
inductive Ends [Decoders] (s : Settings) (tools : List String) (input output : String)
    (force : Bool) (t : FileTree) (failing : List (Nat × WriteFault)) :
    Except Stop Outcome → Session → Remains → Prop
  | uninspected {e : Stop} (h : s.inspect t input = .error e) :
      Ends s tools input output force t failing (.error e) (.start t failing) .asBefore
  | unchecked {ds : List Declaration} {set : PathSet} {p : Problem} (hforce : force = false)
      (hinspect : s.inspect t input = .ok (ds, set))
      (h : t.freshness tools output input set.paths (s.fingerprint ds set) = .error p) :
      Ends s tools input output force t failing (.error (.problem p)) (.start t failing) .asBefore
  | upToDate {ds : List Declaration} {set : PathSet} (hforce : force = false)
      (hinspect : s.inspect t input = .ok (ds, set))
      (h : t.freshness tools output input set.paths (s.fingerprint ds set) = .ok .fresh) :
      Ends s tools input output force t failing (.ok .upToDate) (.start t failing) .asBefore
  | due {ds : List Declaration} {set : PathSet} {found : Staleness} {result : Except Stop Outcome}
      {σ : Session} {remains : Remains} (hforce : force = false)
      (hinspect : s.inspect t input = .ok (ds, set))
      (hstale : t.freshness tools output input set.paths (s.fingerprint ds set) = .ok found)
      (hfound : found ≠ .fresh)
      (h : s.EndsMaking input output (.start t failing) ds (s.fingerprint ds set) (some found)
        result σ remains) :
      Ends s tools input output force t failing result σ remains
  | forced {ds : List Declaration} {set : PathSet} {result : Except Stop Outcome} {σ : Session}
      {remains : Remains} (hforce : force = true) (hinspect : s.inspect t input = .ok (ds, set))
      (h : s.EndsMaking input output (.start t failing) ds (s.fingerprint ds set) none
        result σ remains) :
      Ends s tools input output force t failing result σ remains

/-- Making a header ends in one of these ways. -/
theorem exists_endsMaking [Decoders] (s : Settings) (input output : String) (begun : Session)
    (ds : List Declaration) (fingerprint : Nat) (reason : Option Staleness) :
    ∃ result σ notices remains,
      (s.making input output fingerprint ds reason).run.run ⟨begun, []⟩ =
          (result, ⟨σ, notices⟩) ∧
        s.EndsMaking input output begun ds fingerprint reason result σ remains := by
  -- The steps of a run are taken one by one, and each that may fail is one way to end.
  unfold making
  obtain ⟨result, marked, hmark⟩ : ∃ result marked,
      begun.replaceFile output (incompleteMark ++ "\n") = (result, marked) :=
    ⟨_, _, rfl⟩
  cases result with
  | error p =>
      exact ⟨_, marked, [], _, run_bind_of_eq_error (Run.run_change_error hmark), .unmarked hmark⟩
  | ok _ =>
      rw [run_bind_of_eq (Run.run_change hmark), run_bind_of_eq Run.run_tree]
      dsimp only
      obtain ⟨made, notices, hmade⟩ : ∃ made notices,
          s.payloads (s.context marked.tree input) ds = (made, notices) := ⟨_, _, rfl⟩
      rw [hmade]
      dsimp only
      rw [run_bind_of_eq Run.run_tell]
      have hps : (s.payloads (s.context marked.tree input) ds).1 = made := by rw [hmade]
      cases made with
      | error e =>
          exact ⟨_, marked, _, _, run_bind_of_eq_error Run.run_lift_stop_error,
            .unproduced hmark hps⟩
      | ok ps =>
          rw [run_bind_of_eq Run.run_lift_stop]
          cases hheader : s.header input fingerprint ds ps with
          | error p =>
              exact ⟨_, marked, _, _, run_bind_of_eq_error Run.run_lift_error,
                .unrendered hmark hps hheader⟩
          | ok text =>
              rw [run_bind_of_eq Run.run_lift]
              obtain ⟨result, σ, hwrite⟩ : ∃ result σ,
                  marked.replaceFile output text = (result, σ) := ⟨_, _, rfl⟩
              cases result with
              | error p =>
                  exact ⟨_, σ, _, _, run_bind_of_eq_error (Run.run_change_error hwrite),
                    .unwritten hmark hps hheader hwrite⟩
              | ok _ =>
                  rw [run_bind_of_eq (Run.run_change hwrite)]
                  exact ⟨_, σ, _, _, rfl, .generated hmark hps hheader hwrite⟩

/-- A run ends in one of these ways. -/
theorem exists_ends [Decoders] (s : Settings) (tools : List String) (input output : String)
    (force : Bool) (t : FileTree) (failing : List (Nat × WriteFault)) :
    ∃ remains, s.Ends tools input output force t failing
      ((s.generate tools input output force).outcome t failing).1
      ((s.generate tools input output force).outcome t failing).2.session remains := by
  suffices h : ∃ result σ notices remains, (s.generate tools input output force).outcome t failing =
      (result, ⟨σ, notices⟩) ∧ s.Ends tools input output force t failing result σ remains by
    obtain ⟨result, σ, notices, remains, hrun, hends⟩ := h
    rw [hrun]
    exact ⟨remains, hends⟩
  unfold Run.outcome
  rw [generate_eq, run_bind_of_eq Run.run_tree]
  dsimp only [Session.start]
  cases hinspect : s.inspect t input with
  | error e =>
      exact ⟨_, _, _, _, run_bind_of_eq_error Run.run_lift_stop_error, .uninspected hinspect⟩
  | ok found =>
      obtain ⟨ds, set⟩ := found
      rw [run_bind_of_eq Run.run_lift_stop]
      dsimp only
      cases force with
      | true =>
          obtain ⟨result, σ, notices, remains, hrun, hends⟩ :=
            exists_endsMaking s input output (.start t failing) ds (s.fingerprint ds set) none
          exact ⟨result, σ, notices, remains, hrun, .forced rfl hinspect hends⟩
      | false =>
          rw [if_neg Bool.false_ne_true]
          cases hfound : t.freshness tools output input set.paths (s.fingerprint ds set) with
          | error p =>
              exact ⟨_, _, _, _, run_bind_of_eq_error Run.run_lift_error,
                .unchecked rfl hinspect hfound⟩
          | ok found =>
              rw [run_bind_of_eq Run.run_lift]
              split
              · next hfresh =>
                cases hfresh
                exact ⟨_, _, _, _, rfl, .upToDate rfl hinspect hfound⟩
              · next hstale =>
                obtain ⟨result, σ, notices, remains, hrun, hends⟩ :=
                  exists_endsMaking s input output (.start t failing) ds (s.fingerprint ds set)
                    (some found)
                exact ⟨result, σ, notices, remains, hrun, .due rfl hinspect hfound
                  (fun heq => hstale (congrArg some heq)) hends⟩

/-! ## What is left on the way -/

/-- What may stand in the trees on the way. -/
def OnTheWay (remains : Remains) (output : String) (t t' : FileTree) : Prop :=
  ∃ kind ∈ remains.onTheWay, kind.Left output t t'

/-- The changes of a run lead to what is left, and every row of first ones to what may be left on
the way. -/
structure Leaves (output : String) (t : FileTree) (remains : Remains) (σ : Session) : Prop where
  tree_eq : σ.tree = t.replay σ.changes
  left : remains.Left output t σ.tree
  cut : ∀ done, done <+: σ.changes → done ≠ σ.changes → OnTheWay remains output t (t.replay done)

variable {σ marked : Session} {remains : Remains}

theorem leaves_of_passes (h : Session.Passes (OnTheWay remains output t) (.start t failing) σ)
    (hleft : remains.Left output t σ.tree) : Leaves output t remains σ := by
  obtain ⟨htree, hcut⟩ := h.replay
  exact ⟨htree, hleft, fun done hdone _ => hcut done hdone⟩

theorem leaves_of_last {c : Change}
    (h : Session.Passes (OnTheWay remains output t) (.start t failing) σ)
    (hleft : remains.Left output t (σ.tree.apply c)) : Leaves output t remains (σ.perform c) := by
  obtain ⟨htree, hcut⟩ := h.replay
  refine ⟨Session.tree_perform htree, hleft, fun done hdone hne => ?_⟩
  rcases List.prefix_concat_iff.1 hdone with heq | hdone
  · exact absurd heq hne
  · exact hcut done hdone

/-- While the header is written over the mark, the mark is what is left. -/
theorem left_mark_of_unreplaced {m t' : FileTree} {target : Location}
    (hkeeps : Keeps [target] t m) (hshows : m.Shows output target (incompleteMark ++ "\n"))
    (h : Unreplaced output m t') : Remains.mark.Left output t t' := by
  obtain ⟨temporary, hfree, hrest⟩ := h
  refine ⟨target, temporary, fun place hplace => ?_, ?_, ?_⟩
  · exact ⟨hkeeps.get?_eq_none (hfree place hplace).1, (hfree place hplace).2⟩
  · exact (hkeeps.mono (List.cons_subset_cons _ (List.nil_subset _))).trans
      (hrest.mono (List.subset_cons_self _ _))
  · refine hshows.keeps hrest fun hmem => ?_
    exact hshows.get?_ne_none (hfree target (Option.mem_toList.1 hmem)).1

/-- Until the first replacement is done, the way of a run is that of one that leaves nothing. -/
theorem onTheWay_of_unreplaced {t' : FileTree} (remains : Remains) (h : Unreplaced output t t') :
    OnTheWay remains output t t' := by
  cases remains <;> exact ⟨.asBefore, List.mem_cons_self, h⟩

theorem onTheWay_mark {t' : FileTree} (h : Remains.mark.Left output t t') :
    OnTheWay .mark output t t' :=
  ⟨.mark, List.mem_cons_of_mem _ List.mem_cons_self, h⟩

/-- The mark is put in the place of the header. -/
theorem exists_of_mark
    (h : (Session.start t failing).replaceFile output (incompleteMark ++ "\n") = (.ok (), marked)) :
    ∃ target, Keeps [target] t marked.tree ∧
      marked.tree.Shows output target (incompleteMark ++ "\n") ∧
      Remains.mark.Left output t marked.tree ∧
      Session.Passes (OnTheWay .mark output t) (.start t failing) marked := by
  obtain ⟨σ, c, target, rfl, hsteps, hkeeps, hshows⟩ := Session.exists_of_replaceFile_ok h
  have hmark := left_mark_of_unreplaced hkeeps hshows ((Keeps.refl [] _).unreplaced output)
  exact ⟨target, hkeeps, hshows, hmark,
    .step (hsteps.imp fun _ => onTheWay_of_unreplaced .mark) (onTheWay_mark hmark)⟩

/-- **Making a header leaves the mark from the first moment that the old one is gone.** -/
theorem leaves_of_endsMaking [Decoders] {ds : List Declaration} {fingerprint : Nat}
    {reason : Option Staleness} {result : Except Stop Outcome}
    (h : s.EndsMaking input output (.start t failing) ds fingerprint reason result σ remains) :
    Leaves output t remains σ := by
  have hmarked : ∀ {marked : Session},
      (Session.start t failing).replaceFile output (incompleteMark ++ "\n") = (.ok (), marked) →
        Leaves output t .mark marked := by
    intro marked hmark
    obtain ⟨target, -, -, hleft, hsteps⟩ := exists_of_mark hmark
    exact leaves_of_passes hsteps hleft
  cases h with
  | unmarked h =>
      have hsteps : Session.Passes (Unreplaced output t) (.start t failing) σ :=
        Session.passes_of_replaceFile_error h
      exact leaves_of_passes (hsteps.imp fun _ => onTheWay_of_unreplaced .asBefore) hsteps.last
  | unproduced hmark _ => exact hmarked hmark
  | unrendered hmark _ _ => exact hmarked hmark
  | unwritten hmark _ _ h =>
      obtain ⟨target, hkeeps, hshows, -, hsteps⟩ := exists_of_mark hmark
      have hrest := (Session.passes_of_replaceFile_error h).imp fun _ =>
        left_mark_of_unreplaced hkeeps hshows
      exact leaves_of_passes (hsteps.trans (hrest.imp fun _ => onTheWay_mark)) hrest.last
  | generated hmark _ _ h =>
      obtain ⟨target, hkeeps, hshows, -, hsteps⟩ := exists_of_mark hmark
      obtain ⟨σ, c, target', rfl, hrest, hkeeps', hshows'⟩ := Session.exists_of_replaceFile_ok h
      -- The path leads to the same place as when the mark was put there.
      have htarget : target' = target :=
        Except.ok.inj (hshows'.locate_eq.symm.trans (hkeeps'.locate_eq hshows.locate_eq))
      subst htarget
      have hrest := hrest.imp fun _ => left_mark_of_unreplaced hkeeps hshows
      exact leaves_of_last (hsteps.trans (hrest.imp fun _ => onTheWay_mark))
        ⟨target', hkeeps.trans hkeeps', hshows'⟩

theorem leaves_of_ends [Decoders] {result : Except Stop Outcome}
    (h : s.Ends tools input output force t failing result σ remains) :
    Leaves output t remains σ := by
  have hsame : Unreplaced output t t := (Keeps.refl [] t).unreplaced output
  have hnothing : Leaves output t .asBefore (.start t failing) :=
    leaves_of_passes (.refl (onTheWay_of_unreplaced .asBefore hsame)) hsame
  cases h with
  | uninspected _ => exact hnothing
  | unchecked _ _ _ => exact hnothing
  | upToDate _ _ _ => exact hnothing
  | due _ _ _ _ h => exact leaves_of_endsMaking h
  | forced _ _ h => exact leaves_of_endsMaking h

/-! ## The run after -/

theorem isIncomplete_mark : isIncomplete (incompleteMark ++ "\n") = true := by decide

/-- **A header with the mark is found incomplete**, whatever it is compared with. -/
theorem freshness_of_shows {target : Location} {text : String} (h : t.Shows output target text)
    (hmark : isIncomplete text = true) (tools : List String) (source : String)
    (dependencies : List String) (fingerprint : Nat) :
    t.freshness tools output source dependencies fingerprint = .ok .incomplete := by
  obtain ⟨node, hnode⟩ := h.exists_find
  unfold freshness
  dsimp only
  rw [hnode, readText_of_kind? h.locate_eq h.kind_eq]
  dsimp only
  rw [if_pos hmark]

/-- The reason is only told. -/
theorem making_because [Decoders] (s : Settings) (input output : String) (fingerprint : Nat)
    (ds : List Declaration) (found : Staleness) :
    s.making input output fingerprint ds (some found) =
      Outcome.because found <$> s.making input output fingerprint ds none := by
  unfold making
  simp only [map_bind, map_pure, Outcome.because]

theorem run_map {α β : Type} (f : α → β) (x : Run α) (st : RunState) :
    (f <$> x).run.run st = Prod.map (Except.map f) id (x.run.run st) := by
  rw [ExceptT.run_map, StateT.run_map]
  rfl

/-- A run that finds the mark makes the header as if that was demanded. -/
theorem outcome_of_shows [Decoders] {target : Location} {text : String}
    (h : t.Shows output target text) (hmark : isIncomplete text = true) (s : Settings)
    (tools : List String) (input : String) (failing : List (Nat × WriteFault)) :
    (s.generate tools input output false).outcome t failing =
      Prod.map (Except.map (Outcome.because .incomplete)) id
        ((s.generate tools input output true).outcome t failing) := by
  unfold Run.outcome
  rw [generate_eq, generate_eq, run_bind_of_eq Run.run_tree, run_bind_of_eq Run.run_tree]
  dsimp only [Session.start]
  cases s.inspect t input with
  | error e =>
      rw [run_bind_of_eq_error Run.run_lift_stop_error,
        run_bind_of_eq_error Run.run_lift_stop_error]
      rfl
  | ok found =>
      obtain ⟨ds, set⟩ := found
      rw [run_bind_of_eq Run.run_lift_stop, run_bind_of_eq Run.run_lift_stop]
      dsimp only
      rw [if_neg Bool.false_ne_true, if_pos rfl, freshness_of_shows h hmark,
        run_bind_of_eq Run.run_lift, if_neg (fun heq => by cases heq), making_because, run_map]

/-- **What a run leaves where the header belongs is the file that was there, the mark, or the
finished header**, however it ends, whichever of its writes fail and wherever it is cut off. It is
untouched unless the header has to be made, it is the mark when that fails after the mark is put
there, and the header only when the run says so. No other file is changed. A run that finds the mark
makes the header. -/
theorem generate_remains [Decoders] (s : Settings) (tools : List String) (input output : String)
    (force : Bool) (t : FileTree) (failing : List (Nat × WriteFault)) :
    (∃ remains, s.Ends tools input output force t failing
        ((s.generate tools input output force).outcome t failing).1
        ((s.generate tools input output force).outcome t failing).2.session remains ∧
      Leaves output t remains ((s.generate tools input output force).outcome t failing).2.session) ∧
    ∀ (t' : FileTree) (target : Location), t'.Shows output target (incompleteMark ++ "\n") →
      (∀ tools source dependencies fingerprint,
        t'.freshness tools output source dependencies fingerprint = .ok .incomplete) ∧
      ∀ (s' : Settings) (tools : List String) (input : String)
          (failing : List (Nat × WriteFault)),
        (s'.generate tools input output false).outcome t' failing =
          Prod.map (Except.map (Outcome.because .incomplete)) id
            ((s'.generate tools input output true).outcome t' failing) := by
  refine ⟨?_, fun t' target hshows =>
    ⟨freshness_of_shows hshows isIncomplete_mark,
      fun s' => outcome_of_shows hshows isIncomplete_mark s'⟩⟩
  obtain ⟨remains, hends⟩ := exists_ends s tools input output force t failing
  exact ⟨remains, hends, leaves_of_ends hends⟩

end Settings

end EmbeddedBuffers
