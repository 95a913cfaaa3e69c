import EmbeddedBuffers.Proofs.Files.Replacement
import EmbeddedBuffers.Proofs.Generation.Runs

/-!
# What a run writes

A run leaves the header at its place and nothing else changed. Declarations that look past that
place find the same before the run, while the mark stands there, and afterwards. Main statements:
`holds_of_writes` and `exists_writes_iff`.
-/

namespace EmbeddedBuffers

open FileTree

/-! ## Declarations in agreeing trees -/

/-- The paths at which the file of a declaration is looked for. -/
def Context.candidates (ctx : Context) (d : Declaration) : List String :=
  match d.pathIndex? with
  | none => []
  | some i =>
    match d.textArgument i "a data file path" >>= ctx.macros.substitute with
    | .ok requested => ctx.search.candidates requested
    | .error _ => []

variable {a b : FileTree} {place : Location}

/-- A declaration that looks past a place finds the same in trees that agree off it. -/
theorem sameReads_of_agreeOff (h : AgreeOff place a b) (ha : a.Settled)
    (hplace : (a.get? place).isSome = true) {search : PathSet} {macros : Macros} {d : Declaration}
    (hcandidates : ∀ path ∈ (Context.mk a search macros).candidates d, a.locate path ≠ .ok place) :
    d.SameReads ⟨a, search, macros⟩ ⟨b, search, macros⟩ := by
  intro i hi
  unfold Context.candidates at hcandidates
  rw [hi] at hcandidates
  dsimp only at hcandidates
  have hpath : ∀ t : FileTree, (Context.mk t search macros).path d i =
      (d.textArgument i "a data file path" >>= macros.substitute) >>= search.resolve t := by
    intro t
    rw [bind_assoc]
    rfl
  rw [hpath, hpath]
  cases htext : d.textArgument i "a data file path" >>= macros.substitute with
  | error p => exact ⟨rfl, fun path h => by cases h⟩
  | ok requested =>
      rw [htext] at hcandidates
      have hresolve := PathSet.resolve_eq h search requested hcandidates
        fun path hpath => h.symm.locate_ne hplace (hcandidates path hpath)
      refine ⟨hresolve, fun path hfound => ?_⟩
      obtain ⟨r, ⟨candidate, hmem, hr⟩, rfl, hlocate⟩ := PathSet.exists_of_resolve ha hfound
      exact h.read_eq hlocate fun heq => hcandidates candidate hmem (heq ▸ hr)

namespace Settings

/-- The file of a header with its text, and the rest of the tree as it was. -/
structure Holds (a b : FileTree) (target : Location) (text : String) : Prop where
  agreeOff : AgreeOff target a b
  kind_eq : b.kind? target = some (.file (.bytes (utf8 text)) 0)

theorem Holds.isSome_get? {target : Location} {text : String} (h : Holds a b target text) :
    (b.get? target).isSome = true := by
  rw [FileTree.isSome_get?, h.kind_eq]
  rfl

theorem Holds.trans_same {c : FileTree} {target : Location} {text : String}
    (h : Holds a b target text) (hsame : SameFiles b c) : Holds a c target text :=
  ⟨h.agreeOff.trans_same hsame, (hsame.2 target).symm.trans h.kind_eq⟩

theorem holds_of_replaceFile {σ σ' : Session} {output text : String} {target : Location}
    (hdir : σ.tree.isDirectory (Path.directory output) = true)
    (htarget : σ.tree.moveTarget output = .ok target)
    (h : σ.replaceFile output text = (.ok (), σ')) : Holds σ.tree σ'.tree target text := by
  obtain ⟨target', htarget', hreplaced⟩ := Session.replaced_of_replaceFile hdir h
  rw [htarget] at htarget'
  cases htarget'
  obtain ⟨_, _, -, -, -, hno, rfl⟩ := moveTarget_eq_ok.1 htarget
  exact ⟨hreplaced.agreeOff hno, kind?_eq_of_get? hreplaced.get?_target⟩

/-! ## What a run writes -/

variable [Decoders]

/-- The lines that a declaration puts into the header of a source, if its bytes can be made and
there are any. -/
def emitted (s : Settings) (t : FileTree) (input : String) (d : Declaration) :
    Except Stop (List String) := do
  let (p, _) ← payloadOf (s.context t input) d
  (Header.Entry.check ⟨d, p⟩ : Except Problem _)
  return Header.Entry.lines (max 1 s.maxValues) ⟨d, p⟩

theorem emitted_eq_ok {s : Settings} {t : FileTree} {input : String} {d : Declaration}
    {lines : List String} : s.emitted t input d = .ok lines ↔
      (∃ p, payloadOf (s.context t input) d = .ok p) ∧
        (entryOf (s.context t input) d).check = .ok () ∧
          lines = (entryOf (s.context t input) d).lines (max 1 s.maxValues) := by
  unfold emitted entryOf
  cases hp : payloadOf (s.context t input) d with
  | error e => simp [bind, Except.bind]
  | ok p =>
      cases hc : Header.Entry.check ⟨d, p.1⟩ with
      | error e =>
          have hlift : (liftM (.error e : Except Problem Unit) : Except Stop Unit) =
            .error (.problem e) := rfl
          simp [bind, Except.bind, hc, hlift]
      | ok u =>
          have hlift : (liftM (.ok u : Except Problem Unit) : Except Stop Unit) = .ok u := rfl
          simp [bind, Except.bind, hc, hlift, pure, Except.pure, eq_comm]

/-- Declarations whose header can be made emit their lines, and the other way round. -/
theorem emitted_of_render {s : Settings} {t : FileTree} {input text : String} {fingerprint : Nat}
    {ds : List Declaration} (hall : ∀ d ∈ ds, ∃ p, payloadOf (s.context t input) d = .ok p)
    (hrender : Header.render s.maxValues (sourceName input) fingerprint
      (ds.map (entryOf (s.context t input))) = .ok text) :
    ∀ d ∈ ds, s.emitted t input d =
      .ok ((entryOf (s.context t input) d).lines (max 1 s.maxValues)) := by
  have hcheck := Header.forM_check_eq_ok.1 (Header.render_eq_ok.1 hrender).1
  intro d hd
  exact emitted_eq_ok.2 ⟨hall d hd, hcheck _ (List.mem_map_of_mem hd), rfl⟩

theorem exists_render {s : Settings} {t : FileTree} {input : String} {ds : List Declaration}
    (h : ∀ d ∈ ds, ∃ lines, s.emitted t input d = .ok lines) (fingerprint : Nat) :
    (∀ d ∈ ds, ∃ p, payloadOf (s.context t input) d = .ok p) ∧
      ∃ text, Header.render s.maxValues (sourceName input) fingerprint
        (ds.map (entryOf (s.context t input))) = .ok text := by
  refine ⟨fun d hd => ?_, ?_⟩
  · obtain ⟨lines, hlines⟩ := h d hd
    exact (emitted_eq_ok.1 hlines).1
  · refine ⟨_, Header.render_eq_ok.2 ⟨Header.forM_check_eq_ok.2 ?_, rfl⟩⟩
    intro e he
    obtain ⟨d, hd, rfl⟩ := List.mem_map.1 he
    obtain ⟨lines, hlines⟩ := h d hd
    exact (emitted_eq_ok.1 hlines).2.1

/-- The headers of the same declarations under two settings with lines of one width are the same
when every declaration emits the same lines. -/
theorem text_eq_iff {s₁ s₂ : Settings} {t : FileTree} {input text₁ text₂ : String}
    {fingerprint : Nat} {ds : List Declaration} (hmaxValues : s₁.maxValues = s₂.maxValues)
    (hall₁ : ∀ d ∈ ds, ∃ p, payloadOf (s₁.context t input) d = .ok p)
    (hall₂ : ∀ d ∈ ds, ∃ p, payloadOf (s₂.context t input) d = .ok p)
    (h₁ : Header.render s₁.maxValues (sourceName input) fingerprint
      (ds.map (entryOf (s₁.context t input))) = .ok text₁)
    (h₂ : Header.render s₂.maxValues (sourceName input) fingerprint
      (ds.map (entryOf (s₂.context t input))) = .ok text₂) :
    text₁ = text₂ ↔ ∀ d ∈ ds, s₂.emitted t input d = s₁.emitted t input d := by
  have hemitted₁ := emitted_of_render hall₁ h₁
  have hemitted₂ := emitted_of_render hall₂ h₂
  have halike : ∀ pair ∈ ds.map fun d =>
      (entryOf (s₁.context t input) d, entryOf (s₂.context t input) d), pair.1.Alike pair.2 := by
    intro pair hpair
    obtain ⟨d, hd, rfl⟩ := List.mem_map.1 hpair
    obtain ⟨p₁, hp₁⟩ := hall₁ d hd
    obtain ⟨p₂, hp₂⟩ := hall₂ d hd
    dsimp only
    rw [entryOf_eq hp₁, entryOf_eq hp₂]
    exact alike_of_payloadOf hp₁ hp₂
  have hfst : (ds.map fun d => (entryOf (s₁.context t input) d, entryOf (s₂.context t input) d)).map
      (·.1) = ds.map (entryOf (s₁.context t input)) := List.map_map
  have hsnd : (ds.map fun d => (entryOf (s₁.context t input) d, entryOf (s₂.context t input) d)).map
      (·.2) = ds.map (entryOf (s₂.context t input)) := List.map_map
  rw [← hfst] at h₁
  rw [← hsnd, ← hmaxValues] at h₂
  rw [Header.render_eq_iff halike h₁ h₂, List.forall_mem_map]
  refine forall_congr' fun d => forall_congr' fun hd => ?_
  rw [hemitted₁ d hd, hemitted₂ d hd, ← hmaxValues, Except.ok.injEq, eq_comm]

variable {s : Settings} {input output text : String} {fingerprint : Nat} {ds : List Declaration}
  {σ : Session} {target : Location}

theorem holds_of_writes (hdir : a.isDirectory (Path.directory output) = true)
    (htarget : a.moveTarget output = .ok target)
    (h : s.Writes input output fingerprint ds (.start a) σ text) : Holds a σ.tree target text := by
  obtain ⟨marked, ps, hmark, -, -, hwrite⟩ := h.made
  have hmarked : Holds a marked.tree target _ :=
    holds_of_replaceFile (σ := .start a) hdir htarget hmark
  have hwritten := holds_of_replaceFile (hmarked.agreeOff.isDirectory hdir)
    (hmarked.agreeOff.moveTarget_eq htarget) hwrite
  exact ⟨hmarked.agreeOff.trans hwritten.agreeOff, hwritten.kind_eq⟩

/-- A run writes the header of what the declarations find, where they look past its place. -/
theorem exists_writes_iff {t : FileTree} (ht : t.Settled) (hplace : (t.get? target).isSome = true)
    (hagree : AgreeOff target t a) (hdir : a.isDirectory (Path.directory output) = true)
    (htarget : a.moveTarget output = .ok target)
    (hcandidates : ∀ d ∈ ds, ∀ path ∈ (s.context t input).candidates d,
      t.locate path ≠ .ok target) :
    (∃ σ, s.Writes input output fingerprint ds (.start a) σ text) ↔
      (∀ d ∈ ds, ∃ p, payloadOf (s.context t input) d = .ok p) ∧
        Header.render s.maxValues (sourceName input) fingerprint
          (ds.map (entryOf (s.context t input))) = .ok text := by
  have hpayload : ∀ {marked : FileTree}, AgreeOff target a marked → ∀ d ∈ ds,
      payloadOf (s.context marked input) d = payloadOf (s.context t input) d := by
    intro marked hmarked d hd
    have hreads := sameReads_of_agreeOff (hagree.trans hmarked) ht hplace (hcandidates d hd)
    exact congrArg (fun x => (Noted.outcome x).1) (payload_eq hreads 1 1).symm
  have hentry : ∀ {marked : FileTree}, AgreeOff target a marked →
      ds.map (entryOf (s.context marked input)) = ds.map (entryOf (s.context t input)) := by
    intro marked hmarked
    refine List.map_congr_left fun d hd => ?_
    rw [entryOf, entryOf, hpayload hmarked d hd]
  constructor
  · rintro ⟨σ, h⟩
    obtain ⟨marked, ps, hmark, hps, hheader, -⟩ := h.made
    have hmarked : AgreeOff target a marked.tree :=
      (holds_of_replaceFile (σ := .start a) hdir htarget hmark).agreeOff
    obtain ⟨hall, heq⟩ := header_eq hps input fingerprint
    rw [heq, hentry hmarked] at hheader
    refine ⟨fun d hd => ?_, hheader⟩
    rw [← hpayload hmarked d hd]
    exact hall d hd
  · rintro ⟨hall, hrender⟩
    obtain ⟨marked, hmark, -, hfailing⟩ := Session.exists_replaceFile (s := .start a) hdir htarget
      rfl (incompleteMark ++ "\n")
    have hmarked : AgreeOff target a marked.tree :=
      (holds_of_replaceFile (σ := .start a) hdir htarget hmark).agreeOff
    obtain ⟨ps, hps⟩ : ∃ ps, (s.payloads (s.context marked.tree input) ds).1 = .ok ps := by
      refine exists_payloads fun d hd => ?_
      rw [hpayload hmarked d hd]
      exact hall d hd
    obtain ⟨σ, hwrite, -⟩ := Session.exists_replaceFile (hmarked.isDirectory hdir)
      (hmarked.moveTarget_eq htarget) hfailing text
    refine ⟨σ, ⟨marked, ps, hmark, hps, ?_, hwrite⟩⟩
    rw [(header_eq hps input fingerprint).2, hentry hmarked, hrender]

end Settings

end EmbeddedBuffers
