import EmbeddedBuffers.Production.Registry
import EmbeddedBuffers.Proofs.Files.Following

/-!
# What a buffer is made from

Besides the declaration, its bytes depend on one file at most: the one that a certain argument
leads to. The place of that argument says which file a declaration depends on, too. Main
statements: `dependencies_eq_ok` and `materialize_eq`.
-/

namespace EmbeddedBuffers

namespace Declaration

/-- The argument with the file that a declaration reads. -/
def pathIndex? (d : Declaration) : Option Nat :=
  match d.kind with
  | .data | .mpff => some 0
  | .compressed =>
    match Production.source d with
    | .ok .file => some 1
    | _ => none
  | .image => some 1
  | .jtag => some 2
  | .variableFont => some 5
  | .fixedFont => some 6

/-- A declaration finds the same file in both contexts, with the same contents. -/
def SameReads (d : Declaration) (ctx ctx' : Context) : Prop :=
  ∀ i, d.pathIndex? = some i → ctx.path d i = ctx'.path d i ∧
    ∀ path, ctx.path d i = .ok path → ctx.tree.read path = ctx'.tree.read path

theorem SameReads.refl (d : Declaration) (ctx : Context) : d.SameReads ctx ctx :=
  fun _ _ => ⟨rfl, fun _ _ => rfl⟩

end Declaration

/-! ## Dependencies -/

namespace Registry

variable {ctx : Context} {d : Declaration} {paths : List String}

theorem dependencies_producer_eq_ok {i : Nat}
    (h : (do return [← ctx.path d i] : Except Problem (List String)) = .ok paths) :
    ∃ path, ctx.path d i = .ok path ∧ paths = [path] := by
  cases hpath : ctx.path d i with
  | error p =>
      rw [hpath] at h
      cases h
  | ok path =>
      rw [hpath] at h
      cases h
      exact ⟨path, rfl, rfl⟩

/-- **A live declaration depends on the file that its argument leads to.** -/
theorem dependencies_eq_ok [Decoders] (hlive : d.live = true)
    (h : builtin.dependencies ctx d = .ok paths) :
    match d.pathIndex? with
    | some i => ∃ path, ctx.path d i = .ok path ∧ paths = [path]
    | none => paths = [] := by
  unfold dependencies at h
  rw [hlive] at h
  have h := mapError_eq_ok.1 h
  unfold Declaration.pathIndex?
  unfold require builtin at h
  dsimp only at h
  cases hkind : d.kind <;> rw [hkind] at h
  case compressed =>
      change (Production.source d >>= _) = _ at h
      dsimp only
      cases hsource : Production.source d with
      | error p =>
          rw [hsource] at h
          cases h
      | ok source =>
          rw [hsource] at h
          cases source with
          | file => exact dependencies_producer_eq_ok h
          | values vs =>
              cases h
              rfl
  all_goals exact dependencies_producer_eq_ok h

/-- A set of dependencies holds those of every live declaration. -/
theorem exists_dependencies [Decoders] {ds : List Declaration} {set : PathSet}
    (h : builtin.dependencySet ctx ds = .ok set) (hd : d ∈ ds) (hlive : d.live = true) :
    ∃ paths, builtin.dependencies ctx d = .ok paths := by
  unfold dependencySet at h
  have hmem : d ∈ ds.filter (·.live) := List.mem_filter.2 ⟨hd, hlive⟩
  generalize ds.filter (·.live) = live at h hmem
  generalize PathSet.empty = start at h
  induction live generalizing start with
  | nil => exact absurd hmem List.not_mem_nil
  | cons d' live ih =>
      rw [List.foldlM_cons] at h
      obtain ⟨next, hnext, h⟩ := exists_of_bind_eq_ok h
      obtain ⟨paths, hpaths, -⟩ := exists_of_bind_eq_ok hnext
      rcases List.mem_cons.1 hmem with rfl | hmem
      · exact ⟨paths, hpaths⟩
      · exact ih hmem next h

end Registry

/-! ## Bytes -/

theorem lift_ok_bind {α β : Type} (a : α) (f : α → Noted β) :
    (liftM (.ok a : Except Problem α) >>= f) = f a := rfl

theorem lift_error_bind {α β : Type} (p : Problem) (f : α → Noted β) :
    (liftM (.error p : Except Problem α) >>= f) = throw (.problem p) := rfl

/-- What is produced behind a step that may fail is produced from what the step gives. -/
theorem exists_of_lift_bind {α β : Type} {x : Except Problem α} {f : α → Noted β} {b : β}
    (h : (liftM x >>= f).outcome.1 = .ok b) : ∃ a, x = .ok a ∧ (f a).outcome.1 = .ok b := by
  cases x with
  | error p => cases h
  | ok a => exact ⟨a, rfl, h⟩

namespace Production

/-- A producer reads the file that one argument leads to, and nothing else. -/
def ReadsAt (p : Producer) (i : Nat) : Prop :=
  ∀ (d : Declaration) (ctx ctx' : Context), ctx.path d i = ctx'.path d i →
    (∀ path, ctx.path d i = .ok path → ctx.tree.read path = ctx'.tree.read path) →
      p.produce d ctx = p.produce d ctx'

theorem readsAt_file (i : Nat) : ReadsAt (file i) i := by
  intro d ctx ctx' hpath hread
  cases h : ctx.path d i with
  | error p => simp only [file, Context.bytes, ← hpath, h, bind, Except.bind]
  | ok path =>
      simp only [file, Context.bytes, ← hpath, h, FileTree.readBytes, hread path h, bind, Except.bind]

theorem readsAt_jtag : ReadsAt jtag 2 := by
  intro d ctx ctx' hpath hread
  cases h : ctx.path d 2 with
  | error p => simp only [jtag, Context.bytes, ← hpath, h, bind, Except.bind]
  | ok path =>
      simp only [jtag, Context.bytes, ← hpath, h, FileTree.readBytes, hread path h, bind, Except.bind]

theorem readsAt_image [Decoders] : ReadsAt image 1 := by
  intro d ctx ctx' hpath hread
  cases h : ctx.path d 1 with
  | error p => simp only [image, ← hpath, h, lift_error_bind]
  | ok path => simp only [image, ← hpath, h, lift_ok_bind, Context.picture, hread path h]

theorem readsAt_fixedFont [Decoders] : ReadsAt fixedFont 6 := by
  intro d ctx ctx' hpath hread
  cases h : ctx.path d 6 with
  | error p => simp only [fixedFont, ← hpath, h, lift_error_bind]
  | ok path => simp only [fixedFont, ← hpath, h, lift_ok_bind, Context.picture, hread path h]

theorem readsAt_variableFont [Decoders] : ReadsAt variableFont 5 := by
  intro d ctx ctx' hpath hread
  cases h : ctx.path d 5 with
  | error p => simp only [variableFont, ← hpath, h, lift_error_bind]
  | ok path => simp only [variableFont, ← hpath, h, lift_ok_bind, Context.picture, hread path h]

theorem readsAt_rasterFont [Decoders] : ReadsAt rasterFont 0 := by
  intro d ctx ctx' hpath hread
  cases h : ctx.path d 0 with
  | error p => simp only [rasterFont, ← hpath, h, lift_error_bind]
  | ok path => simp only [rasterFont, ← hpath, h, lift_ok_bind, Context.glyphs, hread path h]

end Production

variable {ctx ctx' : Context} {d : Declaration}

theorem compressed_produce_eq (hkind : d.kind = .compressed) (h : d.SameReads ctx ctx') :
    Production.compressed.produce d ctx = Production.compressed.produce d ctx' := by
  unfold Production.compressed
  dsimp only
  cases hsource : Production.source d with
  | error p => simp only [lift_error_bind]
  | ok source =>
      rw [lift_ok_bind, lift_ok_bind]
      cases source with
      | values vs => rfl
      | file =>
          have hindex : d.pathIndex? = some 1 := by
            rw [Declaration.pathIndex?, hkind]
            dsimp only
            rw [hsource]
          exact Production.readsAt_file 1 d ctx ctx' (h 1 hindex).1 (h 1 hindex).2

/-- Every kind has a producer, which makes the same bytes from the same file. -/
theorem exists_producer [Decoders] (h : d.SameReads ctx ctx') :
    ∃ p, Registry.builtin.require d = .ok p ∧ p.produce d ctx = p.produce d ctx' := by
  unfold Registry.require Registry.builtin
  dsimp only
  unfold Declaration.SameReads Declaration.pathIndex? at h
  cases hkind : d.kind <;> rw [hkind] at h
  case compressed => exact ⟨_, rfl, compressed_produce_eq hkind (by
    unfold Declaration.SameReads Declaration.pathIndex?
    rwa [hkind])⟩
  case data => exact ⟨_, rfl, Production.readsAt_file 0 d ctx ctx' (h 0 rfl).1 (h 0 rfl).2⟩
  case image => exact ⟨_, rfl, Production.readsAt_image d ctx ctx' (h 1 rfl).1 (h 1 rfl).2⟩
  case fixedFont => exact ⟨_, rfl, Production.readsAt_fixedFont d ctx ctx' (h 6 rfl).1 (h 6 rfl).2⟩
  case variableFont =>
      exact ⟨_, rfl, Production.readsAt_variableFont d ctx ctx' (h 5 rfl).1 (h 5 rfl).2⟩
  case mpff => exact ⟨_, rfl, Production.readsAt_rasterFont d ctx ctx' (h 0 rfl).1 (h 0 rfl).2⟩
  case jtag => exact ⟨_, rfl, Production.readsAt_jtag d ctx ctx' (h 2 rfl).1 (h 2 rfl).2⟩

/-- The same file makes the same bytes. -/
theorem materialize_eq [Decoders] (h : d.SameReads ctx ctx') :
    Registry.builtin.materialize ctx d = Registry.builtin.materialize ctx' d := by
  obtain ⟨p, hp, heq⟩ := exists_producer h
  simp only [Registry.materialize, hp, lift_ok_bind, heq]

end EmbeddedBuffers
