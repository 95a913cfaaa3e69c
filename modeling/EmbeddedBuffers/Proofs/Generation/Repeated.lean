import EmbeddedBuffers.Proofs.Generation.Interrupted
import EmbeddedBuffers.Proofs.Production.Dependencies

/-!
# Runs that are repeated

A run that made a header is worth nothing more than the header: a second run with the same settings
finds the same declarations and the same files, so it leaves the header as it is, and when it has to
make one, because that is demanded or because the mark stands on some line, it makes the same text.
Main statement: `JustMade.generate_again`.
-/

namespace EmbeddedBuffers

open FileTree

/-! ## Texts with the mark -/

namespace Text

/-- Whether the line feed at the end of a line comes after a carriage return does not show in the
trimmed line. -/
theorem trim_endLine (line : List Char) : trim (endLine line) = trim line.reverse := by
  unfold endLine
  split
  · next line =>
    obtain ⟨before, after, heq, hbefore, hafter⟩ := exists_trim line.reverse
    have hblanks : ∀ c ∈ after ++ ['\r'], isBlank c = true := by
      intro c hc
      rcases List.mem_append.1 hc with hc | hc
      · exact hafter c hc
      · rw [List.mem_singleton.1 hc]
        decide
    have htrim := trim_append (trimmed_trim line.reverse) hbefore hblanks
    rw [← List.append_assoc, ← heq] at htrim
    rw [List.reverse_cons, htrim]
  · rfl

/-- What begins after a line feed, or with the text, has its own lines in the text. -/
theorem lines_subset {before : List Char} (h : ∀ c ∈ before.getLast?, c = '\n')
    (rest : List Char) : lines rest ⊆ lines (before ++ rest) := by
  rcases List.eq_nil_or_concat before with rfl | ⟨start, c, rfl⟩
  · exact fun _ h => h
  · rw [List.concat_eq_append, List.getLast?_concat] at h
    obtain rfl := h c rfl
    obtain ⟨first, others, heq, -⟩ := linesFrom_append_lineFeed [] start rest
    have hlines : lines (start ++ '\n' :: rest) = (first :: others) ++ lines rest := heq
    rw [List.concat_eq_append, List.append_assoc, List.singleton_append, hlines]
    exact List.subset_append_right _ _

/-- A piece of a text from one line feed to the next is a line, if it is not empty. -/
theorem exists_mem_lines {before line after : List Char} (hbefore : ∀ c ∈ before.getLast?, c = '\n')
    (hfeed : '\n' ∉ line) (hne : line ≠ []) (hafter : ∀ c ∈ after.head?, c = '\n') :
    ∃ l ∈ lines (before ++ (line ++ after)), trim l = trim line := by
  have hline : ∃ l ∈ lines (line ++ after), trim l = trim line := by
    rw [lines, linesFrom_append hfeed, List.append_nil]
    cases after with
    | nil =>
        refine ⟨line, ?_, rfl⟩
        cases hopen : line.reverse with
        | nil => exact absurd (List.reverse_eq_nil_iff.1 hopen) hne
        | cons c start =>
            rw [linesFrom, ← hopen, List.reverse_reverse]
            · exact List.mem_cons_self
            · exact List.cons_ne_nil c start
    | cons c rest =>
        obtain rfl := hafter c rfl
        refine ⟨endLine line.reverse, ?_, ?_⟩
        · rw [linesFrom, if_pos rfl]
          exact List.mem_cons_self
        · rw [trim_endLine, List.reverse_reverse]
  obtain ⟨l, hl, htrim⟩ := hline
  exact ⟨l, lines_subset hbefore _ hl, htrim⟩

end Text

/-- The mark stands on some line of a text, with nothing but blanks around it. -/
def Planted (text : String) : Prop :=
  ∃ before left right after : List Char,
    text.toList = before ++ (left ++ incompleteMark.toList ++ right ++ after) ∧
      (∀ c ∈ before.getLast?, c = '\n') ∧
      (∀ c ∈ left ++ right, Text.isBlank c = true ∧ c ≠ '\n') ∧ ∀ c ∈ after.head?, c = '\n'

theorem trimmed_incompleteMark : Text.Trimmed incompleteMark.toList := by
  have hhead : incompleteMark.toList.head? = some '/' := rfl
  have hlast : incompleteMark.toList.getLast? = some 'e' := rfl
  constructor
  · rw [hhead]
    rintro c ⟨⟩
    decide
  · rw [hlast]
    rintro c ⟨⟩
    decide

theorem Planted.isIncomplete {text : String} (h : Planted text) : isIncomplete text = true := by
  obtain ⟨before, left, right, after, htext, hbefore, hblanks, hafter⟩ := h
  have hfeed : '\n' ∉ left ++ incompleteMark.toList ++ right := by
    intro hmem
    rw [List.append_assoc, List.mem_append, List.mem_append] at hmem
    rcases hmem with hmem | hmem | hmem
    · exact (hblanks _ (List.mem_append_left _ hmem)).2 rfl
    · exact absurd hmem (by decide)
    · exact (hblanks _ (List.mem_append_right _ hmem)).2 rfl
  have hne : left ++ incompleteMark.toList ++ right ≠ [] :=
    List.append_ne_nil_of_left_ne_nil (List.append_ne_nil_of_right_ne_nil _ (by decide)) _
  obtain ⟨line, hline, htrim⟩ := Text.exists_mem_lines hbefore hfeed hne hafter
  rw [Text.trim_append trimmed_incompleteMark
    (fun c hc => (hblanks c (List.mem_append_left _ hc)).1)
    fun c hc => (hblanks c (List.mem_append_right _ hc)).1] at htrim
  unfold EmbeddedBuffers.isIncomplete
  rw [List.any_eq_true, htext]
  exact ⟨line, hline, beq_iff_eq.2 htrim⟩

/-! ## Headers of scanned declarations -/

/-- What a scan yields puts no slash outside comments and the names of namespaces. -/
theorem Header.slashless_of_spelled {e : Header.Entry} (h : e.declaration.Spelled) :
    e.Slashless := by
  have hwritten : ∀ typeName ∈ ElementType.written, '/' ∉ typeName.toList := by decide +kernel
  constructor
  · exact hwritten _ h.typeName
  · intro hmem
    exact absurd (h.symbol _ hmem) (by decide)
  · intro name hname hmem
    exact absurd (h.scope name hname _ hmem) (by decide)

namespace Settings

variable {s : Settings} {tools : List String} {input output : String} {t₀ t a : FileTree}
  {target place : Location} {ds : List Declaration} {set : PathSet}

/-! ## Declarations and files that are found again -/

/-- What is found when a source is inspected follows from its text. -/
theorem inspect_of [Decoders] {source : String} (hsource : t.readText input = .ok source)
    (hlive : liveDeclarations s.macros input source = .ok ds)
    (hset : Registry.builtin.dependencySet (s.context t input) ds = .ok set) :
    s.inspect t input = .ok (ds, set) := by
  have hread : t.source input = .ok source := by
    rw [FileTree.source, hsource]
    rfl
  unfold inspect
  rw [hread]
  show (liveDeclarations s.macros input source >>= _) = _
  rw [hlive]
  dsimp only [bind, Except.bind]
  rw [hset]
  rfl

/-- **What is found when a source is inspected stays the same in trees that agree off a place** at
which neither the source nor the file of a declaration is looked for. -/
theorem inspect_iff [Decoders] (h : AgreeOff target t a) (ht : t.Settled)
    (hplace : (t.get? target).isSome = true) (hsource : t.locate input = .ok place)
    (hne : place ≠ target)
    (hcandidates : ∀ d ∈ ds, ∀ path ∈ (s.context t input).candidates d,
      t.locate path ≠ .ok target) :
    s.inspect t input = .ok (ds, set) ↔ s.inspect a input = .ok (ds, set) := by
  have hread : t.readText input = a.readText input := by
    unfold FileTree.readText FileTree.readBytes
    rw [h.read_eq hsource hne]
  have hset : Registry.builtin.dependencySet (s.context t input) ds =
      Registry.builtin.dependencySet (s.context a input) ds :=
    Registry.dependencySet_congr fun d hd =>
      Registry.dependencies_eq (sameReads_of_agreeOff h ht hplace (hcandidates d hd))
  constructor
  · intro hinspect
    obtain ⟨source, hsource, hlive, hdeps⟩ := inspect_eq_ok hinspect
    exact inspect_of (hread ▸ hsource) hlive (hset ▸ hdeps)
  · intro hinspect
    obtain ⟨source, hsource, hlive, hdeps⟩ := inspect_eq_ok hinspect
    exact inspect_of (hread ▸ hsource) hlive (hset ▸ hdeps)

/-- A header that a run made from the files of one tree, in the tree after it. -/
structure JustMade [Decoders] (s : Settings) (tools : List String) (input output : String)
    (t₀ t : FileTree) : Prop where
  settled : t₀.Settled
  directory : t₀.isDirectory (Path.directory output) = true
  /-- All files are as the run left them. -/
  made : ∃ force reason summaries st, (s.generate tools input output force).outcome t₀ =
    (.ok (.generated reason summaries), st) ∧ SameFiles st.session.tree t
  /-- The source is another file. -/
  source_apart : t.locate input ≠ t.locate output
  /-- No declaration looks for its file where the header is. -/
  files_apart : ∀ ds set, s.inspect t₀ input = .ok (ds, set) → ∀ d ∈ ds,
    ∀ path ∈ (s.context t input).candidates d, t.locate path ≠ t.locate output
  name_unbroken : ∀ name ∈ Path.fileName? input, '\n' ∉ name.toList
  /-- The header is newer than all that was read for it. -/
  newer : ∀ header, t.find output = .ok header → ∀ ds set, s.inspect t₀ input = .ok (ds, set) →
    ∀ path ∈ input :: set.paths, ∃ node, t.find path = .ok node ∧ node.time < header.time
  newer_tools : ∀ header, t.find output = .ok header → ∀ path ∈ tools, ∀ node,
    t.find path = .ok node → node.time < header.time

namespace JustMade

/-- What the run found, and the header that it left. -/
structure Found [Decoders] (s : Settings) (input output : String) (t₀ t : FileTree)
    (target : Location) (ds : List Declaration) (set : PathSet) (held : String) : Prop where
  directory : t₀.isDirectory (Path.directory output) = true
  moveTarget_eq : t₀.moveTarget output = .ok target
  holds : Holds t₀ t target held
  settled : t.Settled
  source : ∃ place, t.locate input = .ok place ∧ place ≠ target ∧ t.hasDirectory place = false
  apart : ∀ d ∈ ds, ∀ path ∈ (s.context t input).candidates d, t.locate path ≠ .ok target
  inspect_eq : s.inspect t₀ input = .ok (ds, set)
  writes : ∃ σ, s.Writes input output (s.fingerprint ds set) ds (.start t₀) σ held

variable {held : String}

theorem found [Decoders] (h : JustMade s tools input output t₀ t) :
    ∃ target ds set held, Found s input output t₀ t target ds set held := by
  obtain ⟨force, reason, summaries, st, hgenerated, hsame⟩ := h.made
  obtain ⟨ds, set, held, hinspect, hwrites⟩ := exists_of_generated hgenerated
  obtain ⟨marked, ps, hmark, -⟩ := hwrites.made
  obtain ⟨target, htarget, -⟩ := Session.replaced_of_replaceFile (s := .start t₀) h.directory hmark
  have hholds : Holds t₀ t target held :=
    (holds_of_writes h.directory htarget hwrites).trans_same hsame
  have hlocate : t.locate output = .ok target :=
    locate_of_moveTarget (hholds.agreeOff.moveTarget_eq htarget) hholds.isSome_get?
  obtain ⟨source, hsource, -⟩ := inspect_eq_ok hinspect
  obtain ⟨place, hplace, hfile⟩ := exists_of_readText hsource
  have hplace' : t.locate input = .ok place :=
    hholds.agreeOff.locate_eq hplace fun _ => hholds.isSome_get?
  refine ⟨target, ds, set, held, h.directory, htarget, hholds,
    hholds.agreeOff.settled hholds.isSome_get? h.settled, ⟨place, hplace', ?_, ?_⟩, ?_, hinspect,
    ⟨st.session, hwrites⟩⟩
  · rintro rfl
    exact h.source_apart (hplace'.trans hlocate.symm)
  · rw [← hholds.agreeOff.hasDirectory_eq, hfile]
  · intro d hd path hpath
    rw [← hlocate]
    exact h.files_apart ds set hinspect d hd path hpath

namespace Found

variable [Decoders] (h : Found s input output t₀ t target ds set held)

include h

theorem locate_eq : t.locate output = .ok target :=
  locate_of_moveTarget (h.holds.agreeOff.moveTarget_eq h.moveTarget_eq) h.holds.isSome_get?

/-- Whatever stands in the place of the header, the same declarations and files are found. -/
theorem inspect_eq_of_agreeOff (ha : AgreeOff target t a) :
    s.inspect a input = .ok (ds, set) := by
  obtain ⟨place, hsource, hne, -⟩ := h.source
  have hplace := h.holds.isSome_get?
  have hinspect : s.inspect t input = .ok (ds, set) :=
    (inspect_iff h.holds.agreeOff.symm h.settled hplace hsource hne h.apart).2 h.inspect_eq
  exact (inspect_iff ha h.settled hplace hsource hne h.apart).1 hinspect

/-- The payloads can be made of the files that are there, and the header is made of them. -/
theorem render_eq : (∀ d ∈ ds, ∃ p, payloadOf (s.context t input) d = .ok p) ∧
    Header.render s.maxValues (sourceName input) (s.fingerprint ds set)
      (ds.map (entryOf (s.context t input))) = .ok held :=
  (exists_writes_iff h.settled h.holds.isSome_get? h.holds.agreeOff.symm h.directory
    h.moveTarget_eq h.apart).1 h.writes

/-- **Whatever stands in the place of the header, a forced run makes the same one.** -/
theorem makes (ha : AgreeOff target t a) (tools : List String) :
    s.Makes tools input output a (utf8 held) := by
  have hagree := h.holds.agreeOff.trans ha
  have hdir := hagree.isDirectory h.directory
  have htarget := hagree.moveTarget_eq h.moveTarget_eq
  obtain ⟨σ, hwrites⟩ := (exists_writes_iff h.settled h.holds.isSome_get? ha hdir htarget
    h.apart).2 h.render_eq
  obtain ⟨summaries, notices, hrun⟩ : ∃ summaries notices,
      (s.generate tools input output true).outcome a =
        (.ok (.generated none summaries), ⟨σ, notices⟩) :=
    outcome_generate (h.inspect_eq_of_agreeOff ha) hwrites
  have hholds := holds_of_writes hdir htarget hwrites
  have hlocate := locate_of_moveTarget (hholds.agreeOff.moveTarget_eq htarget) hholds.isSome_get?
  exact ⟨summaries, _, hrun, hholds.readBytes hlocate⟩

/-- The header is complete and records the fingerprint. -/
theorem legible (hname : ∀ name ∈ Path.fileName? input, '\n' ∉ name.toList) :
    isIncomplete held = false ∧
      Header.recordedFingerprint? held.toList = some (s.fingerprint ds set) := by
  obtain ⟨place, hsource, -, hfile⟩ := h.source
  obtain ⟨name, hfound, -⟩ := h.settled.exists_fileName? hsource hfile
  have hsourceName : '\n' ∉ (sourceName input).toList := by
    rw [sourceName, hfound]
    exact hname name hfound
  have hslashless : ∀ e ∈ ds.map (entryOf (s.context t input)), e.Slashless := by
    intro e he
    obtain ⟨d, hd, rfl⟩ := List.mem_map.1 he
    refine Header.slashless_of_spelled ?_
    rw [declaration_entryOf]
    obtain ⟨source, -, hlive, -⟩ := inspect_eq_ok h.inspect_eq
    rw [← (liveDeclarations_eq_ok.1 hlive).2] at hd
    exact spelled_of_mem_scan (List.mem_filter.1 hd).1
  exact ⟨Header.isIncomplete_render hsourceName hslashless h.render_eq.2,
    Header.recordedFingerprint?_render hsourceName (fingerprint_lt s ds set) h.render_eq.2⟩

end Found

/-- No input is stale that is there and older than the header. -/
theorem staleInput?_eq_none {time : Nat} {paths : List String} :
    t.staleInput? time paths = none ↔
      ∀ path ∈ paths, ∃ node, t.find path = .ok node ∧ node.time < time := by
  induction paths with
  | nil => exact iff_of_true rfl fun _ h => absurd h List.not_mem_nil
  | cons path paths ih =>
      rw [staleInput?, List.forall_mem_cons, ← ih]
      cases t.find path with
      | error f => simp
      | ok node =>
          dsimp only
          split
          · next htime => simp [Nat.not_lt.2 htime]
          · next htime => simp [Nat.lt_of_not_le htime]

theorem staleTool?_eq_none {time : Nat} {paths : List String}
    (h : ∀ path ∈ paths, ∀ node, t.find path = .ok node → node.time < time) :
    t.staleTool? time paths = none := by
  induction paths with
  | nil => rfl
  | cons path paths ih =>
      obtain ⟨hpath, hrest⟩ := List.forall_mem_cons.1 h
      rw [staleTool?]
      cases hfind : t.find path with
      | error f => exact ih hrest
      | ok node =>
          dsimp only
          rw [if_neg (Nat.not_le.2 (hpath node hfind)), ih hrest]

/-- **A run that made a header need not be repeated, and may be.** Without force the header is up to
date and everything stays as it is; with force the same text is made again, and so it is when the
mark was planted on any line. -/
theorem generate_again [Decoders] (h : JustMade s tools input output t₀ t) :
    ∃ held, t.readText output = .ok held ∧
      (s.generate tools input output false).outcome t = (.ok .upToDate, ⟨.start t, []⟩) ∧
      s.Makes tools input output t (utf8 held) ∧
      ∀ target t' planted, t.locate output = .ok target → Holds t t' target planted →
        Planted planted → ∃ summaries st, (s.generate tools input output false).outcome t' =
          (.ok (.generated (some .incomplete) summaries), st) ∧
            st.session.tree.readBytes output = .ok (utf8 held) := by
  obtain ⟨target, ds, set, held, hfound⟩ := h.found
  have hself : AgreeOff target t t :=
    ⟨rfl, fun _ _ => rfl, hfound.holds.agreeOff.noDirectory.2, hfound.holds.agreeOff.noDirectory.2⟩
  have htext := hfound.holds.readText hfound.locate_eq
  refine ⟨held, htext, ?_, hfound.makes hself tools, ?_⟩
  · have hshows : t.Shows output target held := ⟨hfound.locate_eq, hfound.holds.kind_eq⟩
    obtain ⟨header, hheader⟩ := hshows.exists_find
    obtain ⟨hcomplete, hrecorded⟩ := hfound.legible h.name_unbroken
    refine outcome_of_fresh (hfound.inspect_eq_of_agreeOff hself)
      (freshness_eq_fresh hheader htext hcomplete hrecorded ?_ ?_)
    · exact staleInput?_eq_none.2 (h.newer header hheader ds set hfound.inspect_eq)
    · exact staleTool?_eq_none (h.newer_tools header hheader)
  · intro target' t' planted htarget hholds hplanted
    rw [hfound.locate_eq] at htarget
    cases htarget
    obtain ⟨summaries, st, hrun, hbytes⟩ := hfound.makes hholds.agreeOff tools
    have hshows : t'.Shows output target planted :=
      ⟨hholds.agreeOff.locate_eq hfound.locate_eq fun _ => hholds.isSome_get?, hholds.kind_eq⟩
    refine ⟨summaries, st, ?_, hbytes⟩
    rw [outcome_of_shows hshows hplanted.isIncomplete, hrun]
    rfl

/-- A file that is written over is held, whenever that was. -/
theorem holds_put (hno : t.hasDirectory target = false) (hne : target ≠ []) (text : String)
    (time : Nat) : Holds t (t.put target (.file (.bytes (utf8 text)) time)) target text := by
  have hself := get?_put_self t hne (.file (.bytes (utf8 text)) time)
  refine ⟨⟨rfl, fun place hplace => ?_, hno, ?_⟩, kind?_eq_of_get? hself⟩
  · rw [kind?, kind?, get?_put_ne t hplace]
  · rw [hasDirectory, hself]
    rfl

/-- The run in the first directory, whose header is newer than the files. -/
theorem justMade_searching :
    JustMade (searching "d") [] "in.h" "out.h" twoFiles firstTree := by
  obtain ⟨hgenerated, -, -, hnode, hapart, -⟩ := searching_evaluated
  obtain ⟨reason, summaries, hrun⟩ := exists_of_isGenerated hgenerated
  obtain ⟨ds₂, set₂, hinspect₂, hstale, hall⟩ := exists_secondLook
  refine ⟨.root, by decide +kernel, ⟨true, reason, summaries, firstRun.2, hrun, rfl, fun _ => rfl⟩,
    fun heq => hapart (congrArg Except.toOption heq), ?_, ?_, ?_, fun _ _ _ h => (nomatch h)⟩
  · intro ds set hinspect d hd path hpath
    obtain ⟨rfl, -⟩ := found_searching hinspect hinspect₂
    exact (hall d hd).2 path (List.mem_append_left _ hpath)
  · decide +kernel
  · intro header hheader ds set hinspect
    obtain ⟨-, rfl⟩ := found_searching hinspect hinspect₂
    rw [hheader] at hnode
    have htime : header.time = 2 := Option.some.inj hnode
    rw [htime]
    exact staleInput?_eq_none.1 hstale

/-- A line with the mark between blanks. -/
def plantedText : String := "#pragma once\n\t" ++ incompleteMark ++ " \r\n"

theorem generate_again_searching :
    ∃ held, firstTree.readText "out.h" = .ok held ∧
      ((searching "d").generate [] "in.h" "out.h" false).outcome firstTree =
        (.ok .upToDate, ⟨.start firstTree, []⟩) ∧
      (searching "d").Makes [] "in.h" "out.h" firstTree (utf8 held) ∧
      ∃ summaries st, ((searching "d").generate [] "in.h" "out.h" false).outcome
          (firstTree.put ["out.h"] (.file (.bytes (utf8 plantedText)) 5)) =
        (.ok (.generated (some .incomplete) summaries), st) ∧
          st.session.tree.readBytes "out.h" = .ok (utf8 held) := by
  obtain ⟨held, hheld, hagain, hmakes, hplanted⟩ := generate_again justMade_searching
  obtain ⟨target, ds, set, held', hfound⟩ := justMade_searching.found
  have htarget : target = ["out.h"] := by
    have hmove : twoFiles.moveTarget "out.h" = .ok ["out.h"] := by rfl
    exact Except.ok.inj (hfound.moveTarget_eq.symm.trans hmove)
  subst htarget
  have hno := hfound.holds.agreeOff.noDirectory.2
  refine ⟨held, hheld, hagain, hmakes, hplanted ["out.h"] _ plantedText hfound.locate_eq
    (holds_put hno (by decide) plantedText 5) ?_⟩
  have hlast : "#pragma once\n".toList.getLast? = some '\n' := rfl
  refine ⟨"#pragma once\n".toList, ['\t'], [' ', '\r'], ['\n'], by decide, ?_, by decide, ?_⟩
  · rw [hlast]
    rintro c ⟨⟩
    rfl
  · rintro c ⟨⟩
    rfl

end JustMade

end Settings

end EmbeddedBuffers
