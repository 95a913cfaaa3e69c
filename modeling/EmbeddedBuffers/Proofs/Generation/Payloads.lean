import EmbeddedBuffers.Generation.Basic
import EmbeddedBuffers.Proofs.Codec.Threads
import EmbeddedBuffers.Proofs.Header.Body
import EmbeddedBuffers.Proofs.Production.Reading

/-!
# Payloads

The payload of a declaration depends on the file that it finds, and neither on the other
declarations nor on the number of workers. Whether it is encoded is up to the declaration alone.
Main statements: `payload_eq`, `payloads_eq_ok` and `alike_of_payloadOf`.
-/

namespace EmbeddedBuffers

/-- What succeeds in steps has steps that succeed, one in the state that the other leaves. -/
theorem exists_of_run_bind {ε σ α β : Type} {x : ExceptT ε (StateM σ) α}
    {f : α → ExceptT ε (StateM σ) β} {s s' : σ} {b : β}
    (h : (x >>= f).run.run s = (.ok b, s')) :
    ∃ a s₁, x.run.run s = (.ok a, s₁) ∧ (f a).run.run s₁ = (.ok b, s') := by
  rw [ExceptT.run_bind, StateT.run_bind] at h
  change (match (x.run.run s).1 with
    | .ok a => (f a).run
    | .error e => pure (.error e)).run (x.run.run s).2 = _ at h
  obtain ⟨r, s₁, hx⟩ : ∃ r s₁, x.run.run s = (r, s₁) := ⟨_, _, rfl⟩
  rw [hx] at h
  cases r with
  | error e => cases h
  | ok a => exact ⟨a, s₁, hx, h⟩

/-- A step that leaves no notices. -/
theorem Noted.eq_of_run_lift {α : Type} {x : Except Problem α} {ns ns' : List Notice} {a : α}
    (h : (liftM x : Noted α).run.run ns = (.ok a, ns')) : x = .ok a := by
  cases x with
  | error p => cases h
  | ok a' =>
      cases h
      rfl

namespace Settings

/-- All results are there when every job has one. -/
theorem collectResults_eq_ok {α : Type} {results : List (Except Stop α)} {as : List α} :
    collectResults results = .ok as ↔ results = as.map .ok := by
  unfold collectResults
  dsimp only
  split
  · next c hcrash =>
    constructor
    · intro h
      cases h
    · rintro rfl
      obtain ⟨r, hr, hsome⟩ := List.exists_of_findSome?_eq_some hcrash
      obtain ⟨a, -, rfl⟩ := List.mem_map.1 hr
      cases hsome
  · exact mapM_eq_ok.trans (by rw [List.map_id])

variable [Decoders] {ctx ctx' : Context} {d : Declaration}

/-- **The payload of a declaration depends on the file that it finds**, and not on the number of
threads. -/
theorem payload_eq (h : d.SameReads ctx ctx') (threads threads' : Nat) :
    payload ctx threads d = payload ctx' threads' d := by
  unfold payload
  simp only [materialize_eq h, Codec.encode_threads _ _ _ threads threads']

/-- The payload of a declaration in a context, if its bytes can be made. -/
def payloadOf (ctx : Context) (d : Declaration) : Except Stop (Header.Payload × Nat) :=
  (payload ctx 1 d).outcome.1

/-- The payloads are gathered in the order of the declarations, as is all that was to say. -/
theorem payloads_eq (s : Settings) (ctx : Context) (ds : List Declaration) :
    s.payloads ctx ds = (collectResults (ds.map (payloadOf ctx)),
      ds.flatMap fun d => (payload ctx 1 d).outcome.2) := by
  have hthreads : (fun d => (payload ctx (max 1 (s.workers / max 1 ds.length)) d).outcome) =
      fun d => (payload ctx 1 d).outcome :=
    funext fun d => by rw [payload_eq (.refl d ctx) _ 1]
  unfold payloads
  dsimp only
  rw [hthreads, Pool.map_eq, List.map_map, List.flatMap_map]
  rfl

theorem payloads_eq_ok {s : Settings} {ds : List Declaration}
    {ps : List (Header.Payload × Nat)} :
    (s.payloads ctx ds).1 = .ok ps ↔ ds.map (payloadOf ctx) = ps.map .ok := by
  rw [payloads_eq, collectResults_eq_ok]

/-! ## Forms -/

/-- A payload has a comment when the declaration asks for a compression. -/
theorem length_comment_of_payloadOf {p : Header.Payload × Nat} (h : payloadOf ctx d = .ok p) :
    ∃ r, d.request = .ok r ∧ (Header.Entry.comment ⟨d, p.1⟩).length = if r.isNone then 0 else 1 := by
  have hrun : (payload ctx 1 d).run.run [] = (.ok p, (payload ctx 1 d).outcome.2) :=
    Prod.ext h rfl
  unfold payload at hrun
  obtain ⟨produced, ns, -, hrun⟩ := exists_of_run_bind hrun
  obtain ⟨r, ns', hr, hrun⟩ := exists_of_run_bind hrun
  have hr := mapError_eq_ok.1 (Noted.eq_of_run_lift hr)
  refine ⟨r, hr, ?_⟩
  dsimp only at hrun
  cases hnone : r.isNone with
  | true =>
      rw [hnone, if_pos rfl] at hrun
      cases hrun
      rfl
  | false =>
      rw [hnone, if_neg Bool.false_ne_true] at hrun
      split at hrun
      · cases hrun
        rfl
      · split at hrun
        · obtain ⟨_, _, -, hrun⟩ := exists_of_run_bind hrun
          cases hrun
        · cases hrun

/-- Payloads of one declaration have the same form. -/
theorem alike_of_payloadOf {p p' : Header.Payload × Nat} (h : payloadOf ctx d = .ok p)
    (h' : payloadOf ctx' d = .ok p') : Header.Entry.Alike ⟨d, p.1⟩ ⟨d, p'.1⟩ := by
  obtain ⟨r, hr, hlen⟩ := length_comment_of_payloadOf h
  obtain ⟨r', hr', hlen'⟩ := length_comment_of_payloadOf h'
  rw [hr] at hr'
  cases hr'
  exact ⟨rfl, hlen.trans hlen'.symm⟩

/-! ## Entries -/

/-- What a declaration puts into a header, if its bytes can be made. -/
def entryOf (ctx : Context) (d : Declaration) : Header.Entry :=
  match payloadOf ctx d with
  | .ok p => ⟨d, p.1⟩
  | .error _ => ⟨d, default⟩

theorem entryOf_eq {p : Header.Payload × Nat} (h : payloadOf ctx d = .ok p) :
    entryOf ctx d = ⟨d, p.1⟩ := by
  rw [entryOf, h]

theorem declaration_entryOf (ctx : Context) (d : Declaration) : (entryOf ctx d).declaration = d := by
  unfold entryOf
  split <;> rfl

theorem exists_payloads {s : Settings} {ds : List Declaration}
    (h : ∀ d ∈ ds, ∃ p, payloadOf ctx d = .ok p) : ∃ ps, (s.payloads ctx ds).1 = .ok ps := by
  obtain ⟨ps, hps⟩ := exists_map_eq_ok.2 h
  exact ⟨ps, payloads_eq_ok.2 hps⟩

/-- The header is that of the entries of the declarations. -/
theorem header_eq {s : Settings} {ds : List Declaration} {ps : List (Header.Payload × Nat)}
    (h : (s.payloads ctx ds).1 = .ok ps) (input : String) (fingerprint : Nat) :
    (∀ d ∈ ds, ∃ p, payloadOf ctx d = .ok p) ∧ s.header input fingerprint ds ps =
      Header.render s.maxValues (sourceName input) fingerprint (ds.map (entryOf ctx)) := by
  have hmap := payloads_eq_ok.1 h
  have hall : (∀ d ∈ ds, ∃ p, payloadOf ctx d = .ok p) ∧
      (ds.zip ps).map (fun e => (⟨e.1, e.2.1⟩ : Header.Entry)) = ds.map (entryOf ctx) := by
    clear h
    induction ds generalizing ps with
    | nil => exact ⟨fun _ h => absurd h List.not_mem_nil, rfl⟩
    | cons d ds ih =>
        cases ps with
        | nil => cases hmap
        | cons p ps =>
            rw [List.map_cons, List.map_cons, List.cons.injEq] at hmap
            obtain ⟨hrest, heq⟩ := ih hmap.2
            refine ⟨List.forall_mem_cons.2 ⟨⟨p, hmap.1⟩, hrest⟩, ?_⟩
            rw [List.zip_cons_cons, List.map_cons, List.map_cons, heq, entryOf_eq hmap.1]
  exact ⟨hall.1, by rw [header, hall.2]⟩

end Settings

end EmbeddedBuffers
