import EmbeddedBuffers.Production.Outlines
import EmbeddedBuffers.Proofs.Generation.Writing
import EmbeddedBuffers.Proofs.Header.Complete
import EmbeddedBuffers.Proofs.Source.Spellings

/-!
# What an up-to-date answer is worth

A header that is called up to date was made with the same definitions from the same declarations,
and the same files were read for it. Nothing says which declaration reads which of them, and the
search directories are not recorded: under other directories two declarations may swap their
files, and the answer stays the same. Main statement: `UpToDate.forced_iff`, which says when the
header that would be made is the one that is there.
-/

namespace EmbeddedBuffers

open FileTree

/-! ## The file of a header -/

theorem fromUTF8?_utf8 (text : String) : String.fromUTF8? ⟨(utf8 text).toArray⟩ = some text := by
  have hbytes : (⟨(utf8 text).toArray⟩ : ByteArray) = text.toByteArray := rfl
  rw [hbytes, String.fromUTF8?, dif_pos text.isValidUTF8]
  rfl

theorem utf8_inj {text text' : String} (h : utf8 text = utf8 text') : text = text' := by
  have hsome := fromUTF8?_utf8 text
  rw [h, fromUTF8?_utf8] at hsome
  exact (Option.some.inj hsome).symm

namespace FileTree

variable {t : FileTree} {target : Location} {path text : String}

theorem readBytes_of_kind? (hlocate : t.locate path = .ok target)
    (hkind : t.kind? target = some (.file (.bytes (utf8 text)) 0)) :
    t.readBytes path = .ok (utf8 text) := by
  unfold readBytes
  rw [read_eq hlocate, hkind]
  rfl

theorem readText_of_kind? (hlocate : t.locate path = .ok target)
    (hkind : t.kind? target = some (.file (.bytes (utf8 text)) 0)) :
    t.readText path = .ok text := by
  unfold readText
  rw [readBytes_of_kind? hlocate hkind]
  simp only [bind, Except.bind, pure, Except.pure, fromUTF8?_utf8]

end FileTree

namespace Settings

variable {a t : FileTree} {target : Location} {output text : String}

theorem Holds.readBytes (h : Holds a t target text) (hlocate : t.locate output = .ok target) :
    t.readBytes output = .ok (utf8 text) := readBytes_of_kind? hlocate h.kind_eq

theorem Holds.readText (h : Holds a t target text) (hlocate : t.locate output = .ok target) :
    t.readText output = .ok text := readText_of_kind? hlocate h.kind_eq

end Settings

/-- A path whose text can be read leads to a file. -/
theorem exists_of_readText {t : FileTree} {path text : String} (h : t.readText path = .ok text) :
    ∃ r, t.locate path = .ok r ∧ t.hasDirectory r = false := by
  obtain ⟨data, hdata, -⟩ := exists_of_bind_eq_ok h
  obtain ⟨content, hread, -⟩ := exists_of_bind_eq_ok hdata
  obtain ⟨node, hnode, -⟩ := exists_of_bind_eq_ok hread
  obtain ⟨r, hr, -⟩ := exists_of_bind_eq_ok hnode
  refine ⟨r, hr, ?_⟩
  rw [read_eq hr] at hread
  split at hread
  · next heq =>
    rw [hasDirectory_eq, heq]
    rfl
  · cases hread
  · cases hread

/-- A fresh header records the fingerprint. -/
theorem exists_of_fresh {t : FileTree} {tools : List String} {output source : String}
    {dependencies : List String} {fingerprint : Nat}
    (h : t.freshness tools output source dependencies fingerprint = .ok .fresh) :
    (∃ r, t.locate output = .ok r) ∧ ∃ header, t.readText output = .ok header ∧
      Header.recordedFingerprint? header.toList = some fingerprint := by
  unfold freshness at h
  cases hfind : t.find output with
  | error f =>
      rw [hfind] at h
      cases f <;> cases h
  | ok node =>
      rw [hfind] at h
      obtain ⟨r, hr, -⟩ := exists_of_bind_eq_ok hfind
      refine ⟨⟨r, hr⟩, ?_⟩
      cases htext : t.readText output with
      | error f =>
          rw [htext] at h
          cases h
      | ok header =>
          rw [htext] at h
          dsimp only at h
          split at h
          · cases h
          · split at h
            · cases h
            · next heq => exact ⟨header, rfl, Classical.not_not.1 heq⟩

namespace Settings

/-- What the fingerprint of a header stands for. -/
def ingredients (s : Settings) (ds : List Declaration) (set : PathSet) : Ingredients :=
  .of s.macros ds set.paths s.maxValues

/-- A forced run makes a header of exactly these bytes. -/
def Makes [Decoders] (s : Settings) (tools : List String) (input output : String) (t : FileTree)
    (bytes : List UInt8) : Prop :=
  ∃ summaries st, (s.generate tools input output true).outcome t =
    (.ok (.generated none summaries), st) ∧ st.session.tree.readBytes output = .ok bytes

/-- A header that a run under some settings made from the files of one tree, and that a run under
other settings calls up to date when all files are as the first run left them. -/
structure UpToDate [Decoders] (s₁ s₂ : Settings) (tools : List String) (input output : String)
    (t₀ t : FileTree) : Prop where
  settled : t₀.Settled
  directory : t₀.isDirectory (Path.directory output) = true
  made : ∃ force reason summaries st, (s₁.generate tools input output force).outcome t₀ =
    (.ok (.generated reason summaries), st) ∧ SameFiles st.session.tree t
  fresh : ∃ st, (s₂.generate tools input output false).outcome t = (.ok .upToDate, st)
  /-- The source is another file. -/
  source_apart : t.locate input ≠ t.locate output
  /-- No declaration looks for its file where the header is. -/
  files_apart : ∀ ds set, s₂.inspect t input = .ok (ds, set) → ∀ d ∈ ds,
    ∀ path ∈ (s₁.context t input).candidates d ++ (s₂.context t input).candidates d,
      t.locate path ≠ t.locate output
  /-- The fingerprints of both runs do not collide. -/
  no_collision : ∀ ds₁ set₁ ds₂ set₂, s₁.inspect t₀ input = .ok (ds₁, set₁) →
    s₂.inspect t input = .ok (ds₂, set₂) → s₁.fingerprint ds₁ set₁ = s₂.fingerprint ds₂ set₂ →
      s₁.ingredients ds₁ set₁ = s₂.ingredients ds₂ set₂

theorem fingerprint_lt (s : Settings) (ds : List Declaration) (set : PathSet) :
    s.fingerprint ds set < 2 ^ 64 := UInt64.toNat_lt _

/-- Inspecting a source reads its text, and finds what its live declarations depend on. -/
theorem inspect_eq_ok [Decoders] {s : Settings} {t : FileTree} {input : String}
    {ds : List Declaration} {set : PathSet} (h : s.inspect t input = .ok (ds, set)) :
    ∃ source, t.readText input = .ok source ∧
      liveDeclarations s.macros input source = .ok ds ∧
      Registry.builtin.dependencySet (s.context t input) ds = .ok set := by
  unfold inspect at h
  obtain ⟨source, hsource, hds⟩ := exists_of_bind_eq_ok h
  obtain ⟨ds', hlive, hset⟩ := exists_of_bind_eq_ok hds
  obtain ⟨set', hdeps, heq⟩ := exists_of_bind_eq_ok hset
  cases heq
  exact ⟨source, mapError_eq_ok.1 (mapError_eq_ok.1 hsource), hlive,
    mapError_eq_ok.1 hdeps⟩

theorem live_of_liveDeclarations {m : Macros} {path source : String} {ds : List Declaration}
    (h : liveDeclarations m path source = .ok ds) : ∀ d ∈ ds, d.live = true := by
  obtain ⟨-, rfl⟩ := liveDeclarations_eq_ok.1 h
  exact fun d hd => (List.mem_filter.1 hd).2

namespace UpToDate

variable [Decoders] {s₁ s₂ : Settings} {tools : List String} {input output : String}
  {t₀ t : FileTree}

/-- What both runs have in common, and the header that the first one left. -/
structure Common (s₁ s₂ : Settings) (input output : String) (t₀ t : FileTree)
    (target : Location) (ds : List Declaration) (fingerprint : Nat) (held : String) : Prop where
  target_eq : t.locate output = .ok target
  moveTarget_eq : t₀.moveTarget output = .ok target
  holds : Holds t₀ t target held
  settled : t.Settled
  macros_eq : s₁.macros = s₂.macros
  maxValues_eq : s₁.maxValues = s₂.maxValues
  writes : ∃ σ, s₁.Writes input output fingerprint ds (.start t₀) σ held
  inspect_eq : ∃ set, s₂.inspect t input = .ok (ds, set) ∧ s₂.fingerprint ds set = fingerprint

theorem common (h : UpToDate s₁ s₂ tools input output t₀ t) :
    ∃ target ds fingerprint held,
      Common s₁ s₂ input output t₀ t target ds fingerprint held := by
  obtain ⟨force, reason, summaries, st₁, hgenerated, hsame⟩ := h.made
  obtain ⟨st₂, hfresh⟩ := h.fresh
  obtain ⟨ds₁, set₁, held, hinspect₁, hwrites⟩ := exists_of_generated hgenerated
  obtain ⟨ds₂, set₂, hinspect₂, hfresh⟩ := exists_of_upToDate hfresh
  obtain ⟨marked, ps, hmark, hps, hheader, hwrite⟩ := hwrites.made
  obtain ⟨target, htarget, -⟩ := Session.replaced_of_replaceFile (s := .start t₀) h.directory hmark
  have hholds : Holds t₀ t target held :=
    (holds_of_writes h.directory htarget hwrites).trans_same hsame
  obtain ⟨⟨r, hr⟩, header, htext, hrecorded⟩ := exists_of_fresh hfresh
  have hlocate : t.locate output = .ok target := by
    rw [hr, eq_of_moveTarget (hholds.agreeOff.moveTarget_eq htarget) hr]
  have hheld := hholds.readText hlocate
  rw [htext] at hheld
  cases hheld
  obtain ⟨source, hsource, hlive₂, -⟩ := inspect_eq_ok hinspect₂
  obtain ⟨source₁, hsource₁, hlive₁, -⟩ := inspect_eq_ok hinspect₁
  -- The source is the same file for both runs.
  obtain ⟨place, hplace, hfile⟩ := exists_of_readText hsource
  have hne : place ≠ target := by
    rintro rfl
    exact h.source_apart (hplace.trans hlocate.symm)
  have hread : t.readText input = t₀.readText input := by
    unfold FileTree.readText FileTree.readBytes
    rw [hholds.agreeOff.symm.read_eq hplace hne]
  rw [hsource, hsource₁] at hread
  cases hread
  -- Its name cannot hold a second mark, so the fingerprint that was found is the one recorded.
  have hsettled : t.Settled := hholds.agreeOff.settled hholds.isSome_get? h.settled
  obtain ⟨name, hname, hslash⟩ := hsettled.exists_fileName? hplace hfile
  have hfingerprint : s₂.fingerprint ds₂ set₂ = s₁.fingerprint ds₁ set₁ := by
    refine Header.eq_of_recordedFingerprint? ?_ (s₁.fingerprint_lt ds₁ set₁) hheader hrecorded
    rw [sourceName, hname]
    exact hslash
  have hingredients := h.no_collision ds₁ set₁ ds₂ set₂ hinspect₁ hinspect₂ hfingerprint.symm
  have hmacros : s₁.macros = s₂.macros := congrArg Ingredients.macros hingredients
  rw [← hmacros, hlive₁] at hlive₂
  cases hlive₂
  exact ⟨target, ds₁, _, held, hlocate, htarget, hholds, hsettled, hmacros,
    congrArg Ingredients.maxValues hingredients, ⟨st₁.session, hwrites⟩,
    ⟨set₂, hinspect₂, hfingerprint⟩⟩

/-- Declarations that find the same files emit the same lines. -/
theorem emitted_eq {ds : List Declaration} {set : PathSet}
    (hmaxValues : s₁.maxValues = s₂.maxValues)
    (hinspect : s₂.inspect t input = .ok (ds, set)) {d : Declaration} (hd : d ∈ ds)
    (hsame : Registry.builtin.dependencies (s₂.context t input) d =
      Registry.builtin.dependencies (s₁.context t input) d) :
    s₂.emitted t input d = s₁.emitted t input d := by
  obtain ⟨source, -, hlive, hset⟩ := inspect_eq_ok hinspect
  have hlive := live_of_liveDeclarations hlive d hd
  obtain ⟨paths, hpaths⟩ := Registry.exists_dependencies hset hd hlive
  have hfound := Registry.dependencies_eq_ok hlive hpaths
  rw [hsame] at hpaths
  have hfound₁ := Registry.dependencies_eq_ok hlive hpaths
  have hreads : d.SameReads (s₂.context t input) (s₁.context t input) := by
    intro i hi
    rw [hi] at hfound hfound₁
    obtain ⟨path, hpath, rfl⟩ := hfound
    obtain ⟨path₁, hpath₁, heq⟩ := hfound₁
    cases heq
    exact ⟨hpath.trans hpath₁.symm, fun _ _ => rfl⟩
  unfold emitted payloadOf
  rw [payload_eq hreads 1 1, hmaxValues]

/-- **The header that a forced run makes is the one that is there exactly when every declaration
emits the same lines under both settings**, which it does where it finds the same file. -/
theorem forced_iff (h : UpToDate s₁ s₂ tools input output t₀ t) :
    ∃ held ds set, t.readBytes output = .ok held ∧ s₂.inspect t input = .ok (ds, set) ∧
      (s₂.Makes tools input output t held ↔
        ∀ d ∈ ds, s₂.emitted t input d = s₁.emitted t input d) ∧
      ∀ d ∈ ds, Registry.builtin.dependencies (s₂.context t input) d =
          Registry.builtin.dependencies (s₁.context t input) d →
        s₂.emitted t input d = s₁.emitted t input d := by
  obtain ⟨target, ds, fingerprint, held, hcommon⟩ := h.common
  obtain ⟨σ, hwrites⟩ := hcommon.writes
  obtain ⟨set, hinspect, rfl⟩ := hcommon.inspect_eq
  have hplace := hcommon.holds.isSome_get?
  have hbytes := hcommon.holds.readBytes hcommon.target_eq
  refine ⟨utf8 held, ds, set, hbytes, hinspect, ?_,
    fun d hd => emitted_eq hcommon.maxValues_eq hinspect hd⟩
  have hapart : ∀ d ∈ ds, ∀ path ∈
      (s₁.context t input).candidates d ++ (s₂.context t input).candidates d,
      t.locate path ≠ .ok target := by
    intro d hd path hpath
    rw [← hcommon.target_eq]
    exact h.files_apart ds set hinspect d hd path hpath
  -- Both runs write what the declarations emit in the tree between them.
  have hdir := hcommon.holds.agreeOff.isDirectory h.directory
  have htarget := hcommon.holds.agreeOff.moveTarget_eq hcommon.moveTarget_eq
  have hself : AgreeOff target t t :=
    ⟨rfl, fun _ _ => rfl, hcommon.holds.agreeOff.noDirectory.2,
      hcommon.holds.agreeOff.noDirectory.2⟩
  obtain ⟨hall₁, hrender₁⟩ := (exists_writes_iff hcommon.settled hplace
    hcommon.holds.agreeOff.symm h.directory hcommon.moveTarget_eq fun d hd path hpath =>
      hapart d hd path (List.mem_append_left _ hpath)).1 ⟨σ, hwrites⟩
  have hwrites₂ : ∀ text,
      (∃ σ, s₂.Writes input output (s₂.fingerprint ds set) ds (.start t) σ text) ↔
      (∀ d ∈ ds, ∃ p, payloadOf (s₂.context t input) d = .ok p) ∧
        Header.render s₂.maxValues (sourceName input) (s₂.fingerprint ds set)
          (ds.map (entryOf (s₂.context t input))) = .ok text := fun text =>
    exists_writes_iff hcommon.settled hplace hself hdir htarget fun d hd path hpath =>
      hapart d hd path (List.mem_append_right _ hpath)
  constructor
  · rintro ⟨summaries, st, hrun, hread⟩
    obtain ⟨ds', set', text, hinspect', hmade⟩ := exists_of_generated hrun
    rw [hinspect] at hinspect'
    cases hinspect'
    have hholds := holds_of_writes hdir htarget hmade
    have hlocate := hholds.agreeOff.locate_eq hcommon.target_eq fun _ => hholds.isSome_get?
    rw [hholds.readBytes hlocate] at hread
    obtain rfl := utf8_inj (Except.ok.inj hread)
    obtain ⟨hall₂, hrender₂⟩ := (hwrites₂ _).1 ⟨_, hmade⟩
    exact (text_eq_iff hcommon.maxValues_eq hall₁ hall₂ hrender₁ hrender₂).1 rfl
  · intro hemitted
    have hlines : ∀ d ∈ ds, ∃ lines, s₂.emitted t input d = .ok lines := fun d hd =>
      ⟨_, (hemitted d hd).trans (emitted_of_render hall₁ hrender₁ d hd)⟩
    obtain ⟨hall₂, text, hrender₂⟩ := exists_render hlines (s₂.fingerprint ds set)
    obtain rfl := (text_eq_iff hcommon.maxValues_eq hall₁ hall₂ hrender₁ hrender₂).2 hemitted
    obtain ⟨σ', hmade⟩ := (hwrites₂ _).2 ⟨hall₂, hrender₂⟩
    obtain ⟨summaries, notices, hrun⟩ := outcome_generate hinspect hmade
    have hholds := holds_of_writes hdir htarget hmade
    have hlocate := hholds.agreeOff.locate_eq hcommon.target_eq fun _ => hholds.isSome_get?
    exact ⟨summaries, _, hrun, hholds.readBytes hlocate⟩

end UpToDate

/-! ## Files that change places -/

/-- Settings with one search directory. -/
def searching (dir : String) : Settings := ⟨.empty, ⟨[dir]⟩, 16, some 1, {}⟩

/-- A source that names two files by their directories, and one of them without. -/
def twoFiles : FileTree where
  home := []
  nodes :=
    [(["in.h"], .file (.bytes (utf8 ("BPDataBuffer(bool, a, \"d/x\")\n" ++
        "BPDataBuffer(bool, b, \"e/x\")\nBPDataBuffer(bool, c, \"x\")\n"))) 1),
      (["d"], .directory 1), (["d", "x"], .file (.bytes [0]) 1),
      (["e"], .directory 1), (["e", "x"], .file (.bytes [1]) 1)]
  now := 2

/-- A run that looks in the first directory. -/
def firstRun : Except Stop Outcome × RunState :=
  ((searching "d").generate [] "in.h" "out.h" true).outcome twoFiles

/-- The files after that run. -/
def firstTree : FileTree := firstRun.2.session.tree

def isGenerated : Except Stop Outcome → Bool
  | .ok (.generated _ _) => true
  | _ => false

theorem exists_of_isGenerated {r : Except Stop Outcome × RunState} (h : isGenerated r.1 = true) :
    ∃ reason summaries, r = (.ok (.generated reason summaries), r.2) := by
  obtain ⟨outcome, st⟩ := r
  unfold isGenerated at h
  split at h
  · next heq => exact ⟨_, _, Prod.ext heq rfl⟩
  · cases h

/-- What the second run finds: declarations without slashes outside their arguments, files that
are older than the header, and the header at none of the places that are looked at. -/
def secondLook : Bool :=
  match (searching "e").inspect firstTree "in.h" with
  | .error _ => false
  | .ok (ds, set) =>
    (firstTree.staleInput? 2 ("in.h" :: set.paths)).isNone && ds.all fun d =>
      !d.typeName.toList.contains '/' && !d.symbol.toList.contains '/' && d.scope.isEmpty &&
        (((searching "d").context firstTree "in.h").candidates d ++
          ((searching "e").context firstTree "in.h").candidates d).all fun path =>
            (firstTree.locate path).toOption != (firstTree.locate "out.h").toOption

/-- Whether some declaration emits other lines from the second directory on. -/
def secondDiffers : Bool :=
  match (searching "e").inspect firstTree "in.h" with
  | .error _ => false
  | .ok (ds, _) => ds.any fun d => ((searching "e").emitted firstTree "in.h" d).toOption !=
      ((searching "d").emitted firstTree "in.h" d).toOption

/-- The runs as they are evaluated, in one step as they share the first tree. -/
theorem searching_evaluated : isGenerated firstRun.1 = true ∧
    (twoFiles.readText "in.h").toOption = (firstTree.readText "in.h").toOption ∧
    ((searching "d").deps twoFiles "in.h").toOption =
      ((searching "e").deps firstTree "in.h").toOption ∧
    (firstTree.find "out.h").toOption.map Node.time = some 2 ∧
    (firstTree.locate "in.h").toOption ≠ (firstTree.locate "out.h").toOption ∧
    secondLook = true ∧ secondDiffers = true := by
  decide +kernel

/-- Both runs find the same: the files of the second run, looked for from the other directory on,
are those of the first, in the same order. -/
theorem found_searching {ds₁ ds₂ : List Declaration} {set₁ set₂ : PathSet}
    (h₁ : (searching "d").inspect twoFiles "in.h" = .ok (ds₁, set₁))
    (h₂ : (searching "e").inspect firstTree "in.h" = .ok (ds₂, set₂)) :
    ds₁ = ds₂ ∧ set₁ = set₂ := by
  obtain ⟨-, hsource, hdeps, -⟩ := searching_evaluated
  obtain ⟨source₁, hsource₁, hlive₁, -⟩ := inspect_eq_ok h₁
  obtain ⟨source₂, hsource₂, hlive₂, -⟩ := inspect_eq_ok h₂
  rw [hsource₁, hsource₂] at hsource
  cases hsource
  refine ⟨Except.ok.inj (hlive₁.symm.trans hlive₂), ?_⟩
  unfold deps at hdeps
  rw [h₁, h₂] at hdeps
  exact Option.some.inj hdeps

theorem ingredients_searching {ds₁ ds₂ : List Declaration} {set₁ set₂ : PathSet}
    (h₁ : (searching "d").inspect twoFiles "in.h" = .ok (ds₁, set₁))
    (h₂ : (searching "e").inspect firstTree "in.h" = .ok (ds₂, set₂)) :
    ds₁ = ds₂ ∧ (searching "d").ingredients ds₁ set₁ = (searching "e").ingredients ds₂ set₂ := by
  obtain ⟨rfl, rfl⟩ := found_searching h₁ h₂
  exact ⟨rfl, rfl⟩

theorem exists_secondLook : ∃ ds set, (searching "e").inspect firstTree "in.h" = .ok (ds, set) ∧
    firstTree.staleInput? 2 ("in.h" :: set.paths) = none ∧ ∀ d ∈ ds,
      ('/' ∉ d.typeName.toList ∧ '/' ∉ d.symbol.toList ∧ d.scope = []) ∧
        ∀ path ∈ ((searching "d").context firstTree "in.h").candidates d ++
          ((searching "e").context firstTree "in.h").candidates d,
          firstTree.locate path ≠ firstTree.locate "out.h" := by
  obtain ⟨-, -, -, -, -, hlook, -⟩ := searching_evaluated
  unfold secondLook at hlook
  split at hlook
  · cases hlook
  · next ds set hinspect =>
    simp only [Bool.and_eq_true, List.all_eq_true, Bool.not_eq_true', List.isEmpty_iff,
      Option.isNone_iff_eq_none, bne_iff_ne, List.contains_eq_mem, decide_eq_false_iff_not] at hlook
    refine ⟨ds, set, hinspect, hlook.1, fun d hd => ?_⟩
    obtain ⟨⟨⟨htype, hsymbol⟩, hscope⟩, hpaths⟩ := hlook.2 d hd
    exact ⟨⟨htype, hsymbol, hscope⟩, fun path hpath heq => hpaths path hpath (by rw [heq])⟩

/-- The header is fresh for a run that looks in the other directory. -/
theorem outcome_searching {reason : Option Staleness} {summaries : List BufferSummary}
    (hrun : firstRun = (.ok (.generated reason summaries), firstRun.2)) :
    ((searching "e").generate [] "in.h" "out.h" false).outcome firstTree =
      (.ok .upToDate, ⟨.start firstTree, []⟩) := by
  have hdir : twoFiles.isDirectory (Path.directory "out.h") = true := by decide +kernel
  have htarget : twoFiles.moveTarget "out.h" = .ok ["out.h"] := by rfl
  obtain ⟨-, -, -, hnode, -⟩ := searching_evaluated
  obtain ⟨ds₁, set₁, held, hinspect₁, hwrites⟩ := exists_of_generated hrun
  obtain ⟨ds₂, set₂, hinspect₂, hstale, hall⟩ := exists_secondLook
  obtain ⟨rfl, hingredients⟩ := ingredients_searching hinspect₁ hinspect₂
  have hfingerprint : (searching "d").fingerprint ds₁ set₁ = (searching "e").fingerprint ds₁ set₂ :=
    congrArg Ingredients.fingerprint hingredients
  have hholds : Holds twoFiles firstTree ["out.h"] held := holds_of_writes hdir htarget hwrites
  obtain ⟨marked, ps, -, hps, hheader, -⟩ := hwrites.made
  rw [(header_eq hps _ _).2, hfingerprint] at hheader
  have hname : '\n' ∉ (sourceName "in.h").toList := by decide +kernel
  have hslashless : ∀ e ∈ ds₁.map (entryOf ((searching "d").context marked.tree "in.h")),
      e.Slashless := by
    intro e he
    obtain ⟨d, hd, rfl⟩ := List.mem_map.1 he
    obtain ⟨⟨htype, hsymbol, hscope⟩, -⟩ := hall d hd
    constructor <;> rw [declaration_entryOf]
    · exact htype
    · exact hsymbol
    · rw [hscope]
      exact fun _ h => absurd h List.not_mem_nil
  cases hfind : firstTree.find "out.h" with
  | error f =>
      rw [hfind] at hnode
      cases hnode
  | ok node =>
      rw [hfind] at hnode
      have htime : node.time = 2 := Option.some.inj hnode
      obtain ⟨r, hr, -⟩ := exists_of_bind_eq_ok hfind
      obtain rfl := eq_of_moveTarget (hholds.agreeOff.moveTarget_eq htarget) hr
      refine outcome_of_fresh hinspect₂ (freshness_eq_fresh hfind (hholds.readText hr)
        (Header.isIncomplete_render hname hslashless hheader)
        (Header.recordedFingerprint?_render hname (fingerprint_lt _ _ _) hheader) ?_ rfl)
      rw [htime]
      exact hstale

/-- The same files are read when the search starts in the other directory. -/
theorem upToDate_searching :
    UpToDate (searching "d") (searching "e") [] "in.h" "out.h" twoFiles firstTree := by
  obtain ⟨hgenerated, -, -, -, hapart, -⟩ := searching_evaluated
  obtain ⟨reason, summaries, hrun⟩ := exists_of_isGenerated hgenerated
  obtain ⟨ds, set, hinspect, -, hall⟩ := exists_secondLook
  refine ⟨.root, by decide +kernel, ⟨true, reason, summaries, firstRun.2, hrun, rfl, fun _ => rfl⟩,
    ⟨_, outcome_searching hrun⟩, ?_, ?_, ?_⟩
  · exact fun heq => hapart (congrArg Except.toOption heq)
  · intro ds' set' hinspect' d hd
    rw [hinspect] at hinspect'
    cases hinspect'
    exact (hall d hd).2
  · intro _ _ _ _ h₁ h₂ _
    exact (ingredients_searching h₁ h₂).2

/-- **The answer is wrong here**: made again, the buffer without a directory in its path gets the
bytes of the other file. -/
theorem not_makes_searching :
    UpToDate (searching "d") (searching "e") [] "in.h" "out.h" twoFiles firstTree ∧
      ∃ held, firstTree.readBytes "out.h" = .ok held ∧
        ¬ (searching "e").Makes [] "in.h" "out.h" firstTree held := by
  obtain ⟨held, ds, set, hheld, hinspect, hiff, -⟩ := UpToDate.forced_iff upToDate_searching
  refine ⟨upToDate_searching, held, hheld, fun hmakes => ?_⟩
  have hall := hiff.1 hmakes
  obtain ⟨-, -, -, -, -, -, hdiffer⟩ := searching_evaluated
  unfold secondDiffers at hdiffer
  rw [hinspect, List.any_eq_true] at hdiffer
  obtain ⟨d, hd, hne⟩ := hdiffer
  rw [hall d hd, bne_self_eq_false] at hne
  cases hne

end Settings

end EmbeddedBuffers
