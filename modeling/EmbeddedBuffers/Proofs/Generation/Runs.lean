import EmbeddedBuffers.Proofs.Generation.Payloads

/-!
# Runs

What happened in a run that made a header or found it fresh, and that nothing more is needed for
making one. Main statements: `exists_of_generated`, `exists_of_upToDate` and
`exists_run_generate`.
-/

namespace EmbeddedBuffers

/-! ## Steps -/

theorem run_bind_of_eq {ε σ α β : Type} {x : ExceptT ε (StateM σ) α}
    {f : α → ExceptT ε (StateM σ) β} {s s₁ : σ} {a : α} (h : x.run.run s = (.ok a, s₁)) :
    (x >>= f).run.run s = (f a).run.run s₁ := by
  rw [ExceptT.run_bind, StateT.run_bind]
  show (match (x.run.run s).1 with
    | .ok a => (f a).run
    | .error e => pure (.error e)).run (x.run.run s).2 = _
  rw [h]

theorem run_bind_of_eq_error {ε σ α β : Type} {x : ExceptT ε (StateM σ) α}
    {f : α → ExceptT ε (StateM σ) β} {s s₁ : σ} {e : ε} (h : x.run.run s = (.error e, s₁)) :
    (x >>= f).run.run s = (.error e, s₁) := by
  rw [ExceptT.run_bind, StateT.run_bind]
  show (match (x.run.run s).1 with
    | .ok a => (f a).run
    | .error e => pure (.error e)).run (x.run.run s).2 = _
  rw [h]
  rfl

namespace Run

variable {α : Type} {st st' : RunState}

theorem eq_of_run_lift {x : Except Problem α} {a : α}
    (h : (liftM x : Run α).run.run st = (.ok a, st')) : x = .ok a ∧ st' = st := by
  cases x with
  | error p => cases h
  | ok a' =>
      cases h
      exact ⟨rfl, rfl⟩

theorem eq_of_run_lift_stop {x : Except Stop α} {a : α}
    (h : (liftM x : Run α).run.run st = (.ok a, st')) : x = .ok a ∧ st' = st := by
  cases x with
  | error s => cases h
  | ok a' =>
      cases h
      exact ⟨rfl, rfl⟩

theorem run_change_eq (f : Session → Except Problem Unit × Session) : (change f).run.run st =
    (liftM (f st.session).1 : Run Unit).run.run { st with session := (f st.session).2 } := rfl

theorem eq_of_run_change {f : Session → Except Problem Unit × Session}
    (h : (change f).run.run st = (.ok (), st')) : f st.session = (.ok (), st'.session) := by
  rw [run_change_eq] at h
  obtain ⟨hresult, rfl⟩ := eq_of_run_lift h
  exact Prod.ext hresult rfl

theorem run_tree : tree.run.run st = (.ok st.session.tree, st) := rfl

theorem run_tell {ns : List Notice} :
    (tell ns).run.run st = (.ok (), { st with notices := st.notices ++ ns }) := rfl

theorem run_lift {a : α} : (liftM (.ok a : Except Problem α) : Run α).run.run st = (.ok a, st) := rfl

theorem run_lift_stop {a : α} : (liftM (.ok a : Except Stop α) : Run α).run.run st = (.ok a, st) :=
  rfl

theorem run_lift_error {p : Problem} :
    (liftM (.error p : Except Problem α) : Run α).run.run st = (.error (.problem p), st) := rfl

theorem run_lift_stop_error {e : Stop} :
    (liftM (.error e : Except Stop α) : Run α).run.run st = (.error e, st) := rfl

theorem run_change_error {f : Session → Except Problem Unit × Session} {σ : Session} {p : Problem}
    (h : f st.session = (.error p, σ)) :
    (change f).run.run st = (.error (.problem p), { st with session := σ }) := by
  rw [run_change_eq, h]
  rfl

theorem run_change {f : Session → Except Problem Unit × Session} {σ : Session}
    (h : f st.session = (.ok (), σ)) :
    (change f).run.run st = (.ok (), { st with session := σ }) := by
  rw [run_change_eq, h]
  rfl

end Run

namespace Settings

variable [Decoders] {s : Settings} {tools : List String} {input output : String} {force : Bool}
  {st st' : RunState}

/-- The part of a run that makes a header. -/
def making (s : Settings) (input output : String) (fingerprint : Nat) (ds : List Declaration)
    (reason : Option Staleness) : Run Outcome := do
  Run.change fun session => session.replaceFile output (incompleteMark ++ "\n")
  let (ps, notices) := s.payloads (s.context (← Run.tree) input) ds
  Run.tell notices
  let ps ← (ps : Except Stop _)
  let text ← (s.header input fingerprint ds ps : Except Problem _)
  Run.change fun session => session.replaceFile output text
  return .generated reason (ds.zipWith summary ps)

/-- A run makes the header at once when it has to, and else asks first whether it is fresh. -/
theorem generate_eq (s : Settings) (tools : List String) (input output : String) (force : Bool) :
    s.generate tools input output force = (do
      let tree ← Run.tree
      let (ds, set) ← (s.inspect tree input : Except Stop _)
      if force then s.making input output (s.fingerprint ds set) ds none
      else
        let found ← (tree.freshness tools output input set.paths (s.fingerprint ds set) :
          Except Problem _)
        if some found = some .fresh then return .upToDate
        else s.making input output (s.fingerprint ds set) ds (some found)) := by
  unfold generate
  refine bind_congr fun tree => bind_congr fun (ds, set) => ?_
  cases force with
  | true => rfl
  | false =>
      simp only [Bool.false_eq_true, if_false, bind_map_left]
      rfl

variable {fingerprint : Nat} {ds : List Declaration} {reason : Option Staleness} {text : String}

/-- What a run writes: the mark, and over it the header of the payloads that were made. -/
structure Writes (s : Settings) (input output : String) (fingerprint : Nat)
    (ds : List Declaration) (σ σ' : Session) (text : String) : Prop where
  made : ∃ marked ps, σ.replaceFile output (incompleteMark ++ "\n") = (.ok (), marked) ∧
    (s.payloads (s.context marked.tree input) ds).1 = .ok ps ∧
    s.header input fingerprint ds ps = .ok text ∧ marked.replaceFile output text = (.ok (), σ')

theorem writes_of_making {outcome : Outcome}
    (h : (s.making input output fingerprint ds reason).run.run st = (.ok outcome, st')) :
    ∃ summaries text, outcome = .generated reason summaries ∧
      s.Writes input output fingerprint ds st.session st'.session text := by
  unfold making at h
  obtain ⟨_, st₁, hmark, h⟩ := exists_of_run_bind h
  have hmark := Run.eq_of_run_change hmark
  obtain ⟨tree, st₂, htree, h⟩ := exists_of_run_bind h
  cases htree
  generalize hmade : s.payloads (s.context st₁.session.tree input) ds = made at h
  obtain ⟨results, notices⟩ := made
  obtain ⟨_, st₂, htell, h⟩ := exists_of_run_bind h
  cases htell
  obtain ⟨ps, st₃, hps, h⟩ := exists_of_run_bind h
  obtain ⟨rfl, rfl⟩ := Run.eq_of_run_lift_stop hps
  obtain ⟨text, st₄, htext, h⟩ := exists_of_run_bind h
  obtain ⟨hheader, rfl⟩ := Run.eq_of_run_lift htext
  obtain ⟨_, st₅, hwrite, h⟩ := exists_of_run_bind h
  have hwrite := Run.eq_of_run_change hwrite
  cases h
  exact ⟨_, text, rfl, ⟨st₁.session, ps, hmark, by rw [hmade], hheader, hwrite⟩⟩

theorem run_making {σ' : Session}
    (h : s.Writes input output fingerprint ds st.session σ' text) :
    ∃ summaries notices, (s.making input output fingerprint ds reason).run.run st =
      (.ok (.generated reason summaries), ⟨σ', notices⟩) := by
  obtain ⟨marked, ps, hmark, hps, htext, hwrite⟩ := h.made
  refine ⟨ds.zipWith summary ps,
    st.notices ++ (s.payloads (s.context marked.tree input) ds).2, ?_⟩
  unfold making
  generalize hmade : s.payloads (s.context marked.tree input) ds = made at hps
  obtain ⟨results, notices⟩ := made
  subst hps
  rw [run_bind_of_eq (Run.run_change hmark), run_bind_of_eq Run.run_tree]
  dsimp only
  rw [hmade]
  dsimp only
  rw [run_bind_of_eq Run.run_tell, run_bind_of_eq Run.run_lift_stop, htext,
    run_bind_of_eq Run.run_lift, run_bind_of_eq (Run.run_change hwrite)]
  rfl

/-- What a run did that made a header. -/
theorem exists_of_generated {t : FileTree} {summaries : List BufferSummary}
    (h : (s.generate tools input output force).outcome t =
      (.ok (.generated reason summaries), st')) :
    ∃ ds set text, s.inspect t input = .ok (ds, set) ∧
      s.Writes input output (s.fingerprint ds set) ds (.start t) st'.session text := by
  unfold Run.outcome at h
  rw [generate_eq] at h
  obtain ⟨tree, st₁, htree, hrun⟩ := exists_of_run_bind h
  cases htree
  obtain ⟨⟨ds, set⟩, st₁, hlift, hmake⟩ := exists_of_run_bind hrun
  obtain ⟨hinspect, rfl⟩ := Run.eq_of_run_lift_stop hlift
  cases force with
  | true =>
      dsimp only at hmake
      rw [if_pos rfl] at hmake
      obtain ⟨_, text, -, htext⟩ := writes_of_making hmake
      exact ⟨ds, set, text, hinspect, htext⟩
  | false =>
      dsimp only at hmake
      rw [if_neg Bool.false_ne_true] at hmake
      obtain ⟨found, st₂, hlift, hlast⟩ := exists_of_run_bind hmake
      obtain ⟨-, rfl⟩ := Run.eq_of_run_lift hlift
      split at hlast
      · cases hlast
      · obtain ⟨_, text, -, htext⟩ := writes_of_making hlast
        exact ⟨ds, set, text, hinspect, htext⟩

/-- What a run found that did not make a header. -/
theorem exists_of_upToDate {t : FileTree}
    (h : (s.generate tools input output force).outcome t = (.ok .upToDate, st')) :
    ∃ ds set, s.inspect t input = .ok (ds, set) ∧
      t.freshness tools output input set.paths (s.fingerprint ds set) = .ok .fresh := by
  unfold Run.outcome at h
  rw [generate_eq] at h
  obtain ⟨tree, st₁, htree, hrun⟩ := exists_of_run_bind h
  cases htree
  obtain ⟨⟨ds, set⟩, st₁, hlift, hmake⟩ := exists_of_run_bind hrun
  obtain ⟨hinspect, rfl⟩ := Run.eq_of_run_lift_stop hlift
  cases force with
  | true =>
      dsimp only at hmake
      rw [if_pos rfl] at hmake
      obtain ⟨_, _, heq, -⟩ := writes_of_making hmake
      cases heq
  | false =>
      dsimp only at hmake
      rw [if_neg Bool.false_ne_true] at hmake
      obtain ⟨found, st₂, hlift, hlast⟩ := exists_of_run_bind hmake
      obtain ⟨hfound, rfl⟩ := Run.eq_of_run_lift hlift
      split at hlast
      · next hfresh =>
        rw [Option.some.inj hfresh] at hfound
        exact ⟨ds, set, hinspect, hfound⟩
      · obtain ⟨_, _, heq, -⟩ := writes_of_making hlast
        cases heq

/-- A run that has to make a header makes it. -/
theorem outcome_generate {t : FileTree} {set : PathSet} {σ' : Session}
    (hinspect : s.inspect t input = .ok (ds, set))
    (h : s.Writes input output (s.fingerprint ds set) ds (.start t) σ' text) :
    ∃ summaries notices, (s.generate tools input output true).outcome t =
      (.ok (.generated none summaries), ⟨σ', notices⟩) := by
  obtain ⟨summaries, notices, hrun⟩ : ∃ summaries notices,
      (s.making input output (s.fingerprint ds set) ds none).run.run ⟨.start t, []⟩ =
        (.ok (.generated none summaries), ⟨σ', notices⟩) := run_making h
  refine ⟨summaries, notices, ?_⟩
  have hinspect' : s.inspect (Session.start t).tree input = .ok (ds, set) := hinspect
  unfold Run.outcome
  rw [generate_eq, run_bind_of_eq Run.run_tree, hinspect', run_bind_of_eq Run.run_lift_stop]
  exact hrun

/-- A run that finds the header fresh leaves everything as it is. -/
theorem outcome_of_fresh {t : FileTree} {set : PathSet} (hinspect : s.inspect t input = .ok (ds, set))
    (hfresh : t.freshness tools output input set.paths (s.fingerprint ds set) = .ok .fresh) :
    (s.generate tools input output false).outcome t = (.ok .upToDate, ⟨.start t, []⟩) := by
  have hinspect' : s.inspect (Session.start t).tree input = .ok (ds, set) := hinspect
  unfold Run.outcome
  rw [generate_eq, run_bind_of_eq Run.run_tree, hinspect', run_bind_of_eq Run.run_lift_stop]
  dsimp only
  have hfresh' : (Session.start t).tree.freshness tools output input set.paths
      (s.fingerprint ds set) = .ok .fresh := hfresh
  rw [if_neg Bool.false_ne_true, hfresh', run_bind_of_eq Run.run_lift, if_pos rfl]
  rfl

end Settings

end EmbeddedBuffers
