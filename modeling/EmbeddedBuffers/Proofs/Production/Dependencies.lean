import EmbeddedBuffers.Production.Outlines
import EmbeddedBuffers.Proofs.Files.Replacement
import EmbeddedBuffers.Proofs.Generation.Payloads

/-!
# What a buffer depends on

The two sides of a producer agree: where the bytes are made, the files that are found without
opening them are the files that were read. Nothing else is read, so bytes and files stay the same
while other files are rewritten. Of several declarations, the set of their files holds every file
once, in the order in which they come up. Main statement: `Registry.dependencies_cover`.
-/

namespace EmbeddedBuffers

/-! ## Values that a computation may end with -/

/-- A computation that ends with a value ends with one that has a property. -/
def Noted.Yields {α : Type} (P : α → Prop) (x : Noted α) : Prop :=
  ∀ ns a ns', x.run.run ns = (.ok a, ns') → P a

namespace Noted.Yields

variable {α β : Type} {P : β → Prop} {f : α → Noted β}

theorem bind {x : Noted α} (h : ∀ a, Yields P (f a)) : Yields P (x >>= f) := by
  intro ns b ns' hrun
  obtain ⟨a, ns₁, -, hrun⟩ := exists_of_run_bind hrun
  exact h a ns₁ b ns' hrun

theorem lift_bind {x : Except Problem α} (h : ∀ a, x = .ok a → Yields P (f a)) :
    Yields P ((liftM x : Noted α) >>= f) := by
  intro ns b ns' hrun
  obtain ⟨a, ns₁, hx, hrun⟩ := exists_of_run_bind hrun
  exact h a (Noted.eq_of_run_lift hx) ns₁ b ns' hrun

theorem pure {b : β} (h : P b) : Yields P (Pure.pure b) := by
  intro ns b' ns' hrun
  cases hrun
  exact h

theorem throw (e : Stop) : Yields P (MonadExcept.throw e) := by
  intro ns b ns' hrun
  cases hrun

theorem throw_bind (e : Stop) : Yields P (MonadExcept.throw e >>= f) := by
  intro ns b ns' hrun
  obtain ⟨a, ns₁, hthrow, -⟩ := exists_of_run_bind hrun
  cases hthrow

theorem ite {c : Prop} [Decidable c] {x y : Noted β} (hx : c → Yields P x)
    (hy : ¬c → Yields P y) : Yields P (if c then x else y) := by
  split
  · next hc => exact hx hc
  · next hc => exact hy hc

theorem adapt {x : Noted β} (h : Yields P x) (g : Stop → Stop) : Yields P (ExceptT.adapt g x) := by
  intro ns b ns' hrun
  have hadapt : (ExceptT.adapt g x).run.run ns =
      ((x.run.run ns).1.mapError g, (x.run.run ns).2) := rfl
  rw [hadapt, Prod.mk.injEq] at hrun
  exact h ns b (x.run.run ns).2 (Prod.ext (mapError_eq_ok.1 hrun.1) rfl)

end Noted.Yields

open Noted

/-! ## The two sides of a producer -/

namespace Production

/-- Where the bytes are made, the files that are found are those that were read. -/
def Agrees (p : Producer) : Prop :=
  ∀ d ctx, Yields (fun produced => p.dependencies d ctx = .ok produced.dependencies)
    (p.produce d ctx)

variable {ctx : Context} {d : Declaration} {i : Nat} {path : String}

theorem path_of_bytes {data : List UInt8} (h : ctx.bytes d i = .ok (path, data)) :
    ctx.path d i = .ok path := by
  obtain ⟨path', hpath, h⟩ := exists_of_bind_eq_ok h
  obtain ⟨_, -, h⟩ := exists_of_bind_eq_ok h
  cases h
  exact hpath

/-- The one file of a declaration, once it is found. -/
theorem only_path (h : ctx.path d i = .ok path) :
    (do return [← ctx.path d i] : Except Problem (List String)) = .ok [path] := by
  rw [h]
  rfl

theorem agrees_file (i : Nat) : Agrees (file i) := fun _ _ =>
  .lift_bind fun _ hbytes => .pure (only_path (path_of_bytes hbytes))

theorem agrees_compressed : Agrees compressed := by
  intro d ctx
  refine .lift_bind fun source hsource => ?_
  simp only [compressed, hsource]
  cases source with
  | file => exact agrees_file 1 d ctx
  | values vs => exact .lift_bind fun _ _ => .pure rfl

theorem agrees_image [Decoders] : Agrees image := fun _ _ =>
  .bind fun _ => .bind fun _ => .lift_bind fun _ hpath => .bind fun _ => .pure (only_path hpath)

theorem agrees_fixedFont [Decoders] : Agrees fixedFont := fun _ _ =>
  .bind fun _ => .bind fun _ => .ite (fun _ => .throw_bind _) fun _ =>
    .lift_bind fun _ hpath => .bind fun _ => .bind fun _ => .pure (only_path hpath)

theorem agrees_variableFont [Decoders] : Agrees variableFont := by
  intro d ctx
  refine .bind fun r => .lift_bind fun path hpath => .bind fun picture => .bind fun _ =>
    .ite (fun _ => .throw_bind _) fun _ => ?_
  dsimp only
  split
  · exact .pure (only_path hpath)
  · exact .throw _

theorem agrees_rasterFont [Decoders] : Agrees rasterFont := by
  intro d ctx
  -- The size is an argument or the default one, and what follows does not depend on which.
  refine .ite (fun _ => .bind fun size => ?_) (fun _ => .bind fun size => ?_) <;>
  · refine .ite (fun _ => .throw_bind _) fun _ => .lift_bind fun path hpath =>
      .bind fun typeface => ?_
    split
    · exact .pure (only_path hpath)
    · exact .throw _

theorem agrees_jtag : Agrees jtag := by
  intro d ctx
  refine .bind fun stream => .ite (fun _ => .throw_bind _) fun _ =>
    .lift_bind fun (path, bytes) hbytes => ?_
  dsimp only
  split
  · exact .pure (only_path (path_of_bytes hbytes))
  · exact .throw _

theorem agrees_builtin [Decoders] {kind : Kind} {p : Producer}
    (h : Registry.builtin.get? kind = some p) : Agrees p := by
  cases kind <;> cases h
  case data => exact agrees_file 0
  case compressed => exact agrees_compressed
  case image => exact agrees_image
  case fixedFont => exact agrees_fixedFont
  case variableFont => exact agrees_variableFont
  case mpff => exact agrees_rasterFont
  case jtag => exact agrees_jtag

end Production

namespace Registry

variable {ctx ctx' : Context} {d : Declaration}

/-- **Where the bytes of a declaration are made, its dependencies are the files that were read.** -/
theorem dependencies_of_materialize [Decoders] (ctx : Context) (d : Declaration) :
    Yields (fun produced => builtin.dependencies ctx d = .ok produced.dependencies)
      (builtin.materialize ctx d) := by
  refine .adapt (.ite (fun _ => .throw_bind _) fun hlive => .lift_bind fun p hp => ?_) _
  have hget : builtin.get? d.kind = some p := by
    unfold require at hp
    split at hp
    · next heq =>
      cases hp
      exact heq
    · cases hp
  intro ns produced ns' hrun
  unfold dependencies
  rw [if_neg hlive, hp]
  exact mapError_eq_ok.2 (Production.agrees_builtin hget d ctx ns produced ns' hrun)

/-- The bytes of a dead declaration are not made. -/
theorem live_of_materialize [Decoders] {produced : Produced}
    (h : (builtin.materialize ctx d).outcome.1 = .ok produced) : d.live = true := by
  cases hlive : d.live with
  | true => rfl
  | false =>
      unfold materialize at h
      rw [hlive] at h
      cases h

/-- A declaration that finds the same file depends on the same. -/
theorem dependencies_eq [Decoders] (h : d.SameReads ctx ctx') :
    builtin.dependencies ctx d = builtin.dependencies ctx' d := by
  have hfile : ∀ i, d.pathIndex? = some i →
      (do return [← ctx.path d i] : Except Problem (List String)) = (do return [← ctx'.path d i]) :=
    fun i hi => by rw [(h i hi).1]
  unfold dependencies
  split
  · rfl
  · refine congrArg _ ?_
    unfold require builtin
    unfold Declaration.pathIndex? at hfile
    cases hkind : d.kind <;> rw [hkind] at hfile
    case compressed =>
        show (Production.source d >>= _) = (Production.source d >>= _)
        dsimp only at hfile
        cases hsource : Production.source d with
        | error p => rfl
        | ok source =>
            rw [hsource] at hfile
            cases source with
            | file => exact hfile 1 rfl
            | values vs => rfl
    case data => exact hfile 0 rfl
    case image => exact hfile 1 rfl
    case fixedFont => exact hfile 6 rfl
    case variableFont => exact hfile 5 rfl
    case mpff => exact hfile 0 rfl
    case jtag => exact hfile 2 rfl

/-- Declarations that depend on the same files have the same set of files. -/
theorem dependencySet_congr [Decoders] {ds : List Declaration}
    (h : ∀ d ∈ ds, builtin.dependencies ctx d = builtin.dependencies ctx' d) :
    builtin.dependencySet ctx ds = builtin.dependencySet ctx' ds := by
  have hlive : ∀ d ∈ ds.filter (·.live), builtin.dependencies ctx d = builtin.dependencies ctx' d :=
    fun d hd => h d (List.mem_filter.1 hd).1
  unfold dependencySet
  generalize ds.filter (·.live) = live at hlive
  generalize PathSet.empty = seen
  induction live generalizing seen with
  | nil => rfl
  | cons d live ih =>
      obtain ⟨hd, hlive⟩ := List.forall_mem_cons.1 hlive
      rw [List.foldlM_cons, List.foldlM_cons, hd]
      exact bind_congr fun seen => ih hlive seen

end Registry

/-! ## Files that are rewritten -/

namespace FileTree

/-- The same directories and files in two trees, whatever the files hold. -/
structure SameForm (a b : FileTree) : Prop where
  home_eq : a.home = b.home
  form_eq : ∀ place, (a.get? place).map Node.isDirectory = (b.get? place).map Node.isDirectory

/-- A tree whose files were rewritten, but for those that some paths lead to. -/
structure Rewritten (kept : List String) (a b : FileTree) : Prop extends SameForm a b where
  kept_eq : ∀ path ∈ kept, ∀ place, a.locate path = .ok place → a.kind? place = b.kind? place

namespace SameForm

variable {a b : FileTree} (h : SameForm a b)

include h

theorem isSome_eq (place : Location) : (a.get? place).isSome = (b.get? place).isSome := by
  rw [← Option.isSome_map (f := Node.isDirectory), h.form_eq, Option.isSome_map]

theorem hasDirectory_eq (place : Location) : a.hasDirectory place = b.hasDirectory place := by
  have hform : ∀ t : FileTree, t.hasDirectory place =
      ((t.get? place).map Node.isDirectory).getD false := by
    intro t
    unfold hasDirectory
    cases t.get? place <;> rfl
  rw [hform, hform, h.form_eq]

theorem locate_eq (path : String) : a.locate path = b.locate path := by
  have henter : a.enter = b.enter := by
    funext place part
    unfold enter
    rw [h.hasDirectory_eq, h.isSome_eq]
  unfold locate follow startOf
  rw [henter, h.home_eq]

theorem isFile_eq (path : String) : a.isFile path = b.isFile path := by
  have hform : ∀ {t : FileTree} {place}, t.locate path = .ok place →
      t.isFile path = ((t.get? place).isSome && !t.hasDirectory place) := by
    intro t place hplace
    unfold isFile find hasDirectory
    rw [hplace]
    simp only [bind, Except.bind]
    cases t.get? place with
    | none => rfl
    | some node => cases node <;> rfl
  cases hb : b.locate path with
  | error f => rw [isFile_of_locate_error hb, isFile_of_locate_error ((h.locate_eq path).trans hb)]
  | ok place =>
      rw [hform hb, hform ((h.locate_eq path).trans hb), h.isSome_eq, h.hasDirectory_eq]

theorem path_eq (search : PathSet) (macros : Macros) (d : Declaration) (i : Nat) :
    (Context.mk a search macros).path d i = (Context.mk b search macros).path d i := by
  have hresolve : ∀ requested, search.resolve a requested = search.resolve b requested := by
    intro requested
    have hisFile : a.isFile = b.isFile := funext h.isFile_eq
    unfold PathSet.resolve canonical
    simp only [hisFile, h.locate_eq]
  unfold Context.path
  simp only [hresolve]

end SameForm

theorem Rewritten.read_eq {kept : List String} {a b : FileTree} (h : Rewritten kept a b)
    {path : String} (hpath : path ∈ kept) : a.read path = b.read path := by
  cases ha : a.locate path with
  | error f =>
      have hb := (h.locate_eq path).symm.trans ha
      unfold read find
      rw [ha, hb]
      rfl
  | ok place =>
      have hb := (h.locate_eq path).symm.trans ha
      rw [FileTree.read_eq ha, FileTree.read_eq hb, h.kept_eq path hpath place ha]

end FileTree

/-- A declaration reads nothing but the files that it depends on. -/
theorem sameReads_of_rewritten [Decoders] {a b : FileTree} {search : PathSet} {macros : Macros}
    {d : Declaration} {paths : List String} (hlive : d.live = true)
    (hpaths : Registry.builtin.dependencies ⟨a, search, macros⟩ d = .ok paths)
    (h : FileTree.Rewritten paths a b) : d.SameReads ⟨a, search, macros⟩ ⟨b, search, macros⟩ := by
  have hfound := Registry.dependencies_eq_ok hlive hpaths
  intro i hi
  rw [hi] at hfound
  obtain ⟨path, hpath, rfl⟩ := hfound
  refine ⟨h.path_eq search macros d i, fun path' hpath' => ?_⟩
  rw [hpath] at hpath'
  cases hpath'
  exact h.read_eq List.mem_cons_self

/-! ## Sets of files -/

namespace FileTree

variable {t : FileTree} {place place' : Location}

theorem components_render (h : t.Reached place) :
    Path.components place.render = .root :: place.map .name := by
  have hspoken : place.filter (fun part => !Path.isSilent part) = place :=
    List.filter_eq_self.2 fun part hpart => by simp [(h.isName part hpart).spoken]
  have hnames : place.map Path.component = place.map .name :=
    List.map_congr_left fun part hpart => if_neg (h.isName part hpart).ne_parent
  unfold Path.components
  rw [parts_render h]
  cases place with
  | nil => rfl
  | cons part place =>
      rw [if_neg (List.cons_ne_nil _ _)]
      have hsilent : (!Path.isSilent "") = false := rfl
      rw [List.filter_cons_of_neg (by simp [hsilent]), hspoken, hnames]
      rfl

/-- Absolute paths of places that were reached are the same only as texts. -/
theorem same_render (h : t.Reached place) (h' : t.Reached place') :
    Path.same place.render place'.render = true ↔ place.render = place'.render := by
  rw [Path.same, beq_iff_eq]
  refine ⟨fun heq => ?_, congrArg _⟩
  rw [components_render h, components_render h', List.cons.injEq] at heq
  rw [(List.map_inj_right fun _ _ => Path.Component.name.inj).1 heq.2]

end FileTree

/-- Absolute paths of places that were reached. -/
def Absolute (t : FileTree) (paths : List String) : Prop :=
  ∀ path ∈ paths, ∃ place, t.Reached place ∧ path = place.render

namespace PathSet

variable {t : FileTree} {seen paths : List String}

theorem insert_eraseDups {path : String} (h : Absolute t (seen ++ [path])) :
    insert ⟨seen.eraseDups⟩ path = ⟨(seen ++ [path]).eraseDups⟩ := by
  obtain ⟨place, hplace, hpath⟩ := h path (List.mem_append_right _ List.mem_cons_self)
  have hcontains : contains ⟨seen.eraseDups⟩ path = decide (path ∈ seen) := by
    rw [contains, Bool.eq_iff_iff, List.any_eq_true, decide_eq_true_iff]
    constructor
    · rintro ⟨other, hother, hsame⟩
      have hmem := List.mem_eraseDups.1 hother
      obtain ⟨place', hplace', rfl⟩ := h other (List.mem_append_left _ hmem)
      rw [hpath, FileTree.same_render hplace hplace'] at hsame
      rwa [hpath, hsame]
    · intro hmem
      exact ⟨path, List.mem_eraseDups.2 hmem, beq_self_eq_true _⟩
  rw [insert, hcontains, eraseDups_concat]
  simp only [decide_eq_true_eq]
  split <;> rfl

/-- Files are added in the order in which they come up, each once. -/
theorem extend_eraseDups (h : Absolute t (seen ++ paths)) :
    extend ⟨seen.eraseDups⟩ paths = ⟨(seen ++ paths).eraseDups⟩ := by
  induction paths generalizing seen with
  | nil => rw [List.append_nil]; rfl
  | cons path paths ih =>
      rw [List.append_cons] at h ⊢
      rw [← ih h]
      refine congrArg (fun set : PathSet => set.extend paths) ?_
      exact insert_eraseDups fun path hpath => h path (List.mem_append_left _ hpath)

end PathSet

namespace Registry

variable {ctx : Context} {d : Declaration}

/-- What a declaration depends on is found under its absolute path. -/
theorem absolute_of_dependencies [Decoders] (hsettled : ctx.tree.Settled) {paths : List String}
    (h : builtin.dependencies ctx d = .ok paths) : Absolute ctx.tree paths := by
  cases hlive : d.live with
  | false =>
      unfold dependencies at h
      rw [hlive] at h
      cases h
      exact fun _ h => absurd h List.not_mem_nil
  | true =>
      have hfound := dependencies_eq_ok hlive h
      cases hi : d.pathIndex? with
      | none =>
          rw [hi] at hfound
          subst hfound
          exact fun _ h => absurd h List.not_mem_nil
      | some i =>
          rw [hi] at hfound
          obtain ⟨path, hpath, rfl⟩ := hfound
          obtain ⟨_, -, hpath⟩ := exists_of_bind_eq_ok hpath
          obtain ⟨_, -, hpath⟩ := exists_of_bind_eq_ok hpath
          obtain ⟨place, ⟨_, -, hlocate⟩, rfl, -⟩ := PathSet.exists_of_resolve hsettled hpath
          intro path hmem
          rw [List.mem_singleton.1 hmem]
          exact ⟨place, hsettled.reached_of_locate hlocate, rfl⟩

/-- The set of the files of some declarations holds the files of the live ones, each once and in
the order in which they come up. -/
theorem dependencySet_eq [Decoders] (hsettled : ctx.tree.Settled) (ds : List Declaration) :
    builtin.dependencySet ctx ds =
      ((ds.filter (·.live)).mapM (builtin.dependencies ctx)).map fun lists =>
        ⟨lists.flatten.eraseDups⟩ := by
  unfold dependencySet
  generalize ds.filter (·.live) = live
  suffices h : ∀ seen, Absolute ctx.tree seen →
      live.foldlM (fun set d => do return set.extend (← builtin.dependencies ctx d))
        (⟨seen.eraseDups⟩ : PathSet) =
      (live.mapM (builtin.dependencies ctx)).map fun lists =>
        ⟨(seen ++ lists.flatten).eraseDups⟩ from
    h [] fun _ h => absurd h List.not_mem_nil
  induction live with
  | nil =>
      intro seen _
      rw [List.foldlM_nil, List.mapM_nil]
      show Except.ok _ = Except.ok (PathSet.mk (seen ++ List.flatten []).eraseDups)
      rw [List.flatten_nil, List.append_nil]
  | cons d live ih =>
      intro seen hseen
      rw [List.foldlM_cons, List.mapM_cons]
      cases hpaths : builtin.dependencies ctx d with
      | error p => rfl
      | ok paths =>
          have hall : Absolute ctx.tree (seen ++ paths) := by
            intro path hpath
            rcases List.mem_append.1 hpath with hpath | hpath
            · exact hseen path hpath
            · exact absolute_of_dependencies hsettled hpaths path hpath
          show live.foldlM _ (PathSet.extend ⟨seen.eraseDups⟩ paths) = _
          rw [PathSet.extend_eraseDups hall, ih _ hall]
          cases live.mapM (builtin.dependencies ctx) with
          | error p => rfl
          | ok lists =>
              show Except.ok (PathSet.mk (seen ++ paths ++ lists.flatten).eraseDups) =
                Except.ok (PathSet.mk (seen ++ (paths :: lists).flatten).eraseDups)
              rw [List.flatten_cons, List.append_assoc]

/-- **Declarations depend on what is read for them.** Where the bytes are made, the dependencies are
the files that were read, and both stay the same when other files are rewritten. The set of
dependencies of several declarations holds the files of the live ones, each once and in the order in
which they come up, and nothing else. -/
theorem dependencies_cover [Decoders] (ctx : Context) (hsettled : ctx.tree.Settled) :
    (∀ d produced, (builtin.materialize ctx d).outcome.1 = .ok produced →
      builtin.dependencies ctx d = .ok produced.dependencies ∧
        ∀ tree, ctx.tree.Rewritten produced.dependencies tree →
          builtin.dependencies { ctx with tree } d = .ok produced.dependencies ∧
            (builtin.materialize { ctx with tree } d).outcome =
              (builtin.materialize ctx d).outcome) ∧
    ∀ ds, builtin.dependencySet ctx ds =
        ((ds.filter (·.live)).mapM (builtin.dependencies ctx)).map (fun lists =>
          ⟨lists.flatten.eraseDups⟩) ∧
      ∀ set, builtin.dependencySet ctx ds = .ok set → set.paths.Nodup ∧
        ∀ path, path ∈ set.paths ↔ ∃ d ∈ ds, d.live = true ∧
          ∃ paths, builtin.dependencies ctx d = .ok paths ∧ path ∈ paths := by
  refine ⟨fun d produced hproduced => ?_, fun ds => ⟨dependencySet_eq hsettled ds, ?_⟩⟩
  · have hpaths := dependencies_of_materialize ctx d [] produced _ (Prod.ext hproduced rfl)
    refine ⟨hpaths, fun tree htree => ?_⟩
    have hreads := sameReads_of_rewritten (live_of_materialize hproduced) hpaths htree
    exact ⟨(dependencies_eq hreads).symm.trans hpaths, congrArg _ (materialize_eq hreads).symm⟩
  · intro set hset
    rw [dependencySet_eq hsettled] at hset
    obtain ⟨lists, hlists, rfl⟩ := Argument.map_eq_ok hset
    refine ⟨nodup_eraseDups _, fun path => ?_⟩
    rw [List.mem_eraseDups, List.mem_flatten]
    constructor
    · rintro ⟨paths, hmem, hpath⟩
      obtain ⟨d, hd, hpaths⟩ := exists_of_mem_mapM hlists paths hmem
      rw [List.mem_filter] at hd
      exact ⟨d, hd.1, hd.2, paths, hpaths, hpath⟩
    · rintro ⟨d, hd, hlive, paths, hpaths, hpath⟩
      have hmem := List.mem_map_of_mem (f := builtin.dependencies ctx)
        (List.mem_filter.2 ⟨hd, hlive⟩)
      rw [mapM_eq_ok.1 hlists, hpaths] at hmem
      obtain ⟨paths', hmem, heq⟩ := List.mem_map.1 hmem
      exact ⟨paths, Except.ok.inj heq ▸ hmem, hpath⟩

/-- Two files in the working directory. -/
def besideEachOther : Context where
  tree := ⟨[], [(["a"], .file (.bytes [7]) 1), (["b"], .file (.bytes [8]) 1)], 1⟩
  search := ⟨["."]⟩
  macros := .empty

/-- A declaration that reads a file as it is. -/
def reading (name file : String) (live : Bool) : Declaration :=
  ⟨.data, .u8, "uint8_t", name, [.string file], [], "in.h", default, live⟩

/-- Whatever is written to the other file. -/
theorem rewritten_besideEachOther (data : List UInt8) (time : Nat) :
    besideEachOther.tree.Rewritten ["/a"]
      (besideEachOther.tree.put ["b"] (.file (.bytes data) time)) := by
  refine ⟨⟨rfl, fun place => ?_⟩, fun path hpath place hplace => ?_⟩
  · by_cases hb : place = ["b"]
    · rw [hb, FileTree.get?_put_self _ (List.cons_ne_nil _ _)]
      rfl
    · rw [FileTree.get?_put_ne _ hb]
  · rw [List.mem_singleton.1 hpath] at hplace
    cases hplace
    rw [FileTree.kind?, FileTree.kind?, FileTree.get?_put_ne _ (by decide)]

/-- A file that two declarations read, and one that only a dead one names. -/
theorem dependencies_cover_besideEachOther : besideEachOther.tree.Settled ∧
    builtin.dependencies besideEachOther (reading "A" "a" true) = .ok ["/a"] ∧
    (∀ data time, (builtin.materialize { besideEachOther with
        tree := besideEachOther.tree.put ["b"] (.file (.bytes data) time) }
          (reading "A" "a" true)).outcome = (.ok ⟨[7], ["/a"]⟩, [])) ∧
    builtin.dependencySet besideEachOther
      [reading "A" "a" true, reading "B" "b" false, reading "C" "./a" true] = .ok ⟨["/a"]⟩ := by
  have hmade : (builtin.materialize besideEachOther (reading "A" "a" true)).outcome =
      (.ok ⟨[7], ["/a"]⟩, []) := by decide +kernel
  obtain ⟨hcover, hset⟩ := dependencies_cover besideEachOther .root
  obtain ⟨hpaths, hrest⟩ := hcover _ _ (congrArg Prod.fst hmade)
  refine ⟨.root, hpaths, fun data time => ?_, (hset _).1.trans (by decide +kernel)⟩
  exact (hrest _ (rewritten_besideEachOther data time)).2.trans hmade

end Registry

end EmbeddedBuffers
