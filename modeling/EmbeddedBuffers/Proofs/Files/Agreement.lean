import EmbeddedBuffers.Files.Search
import EmbeddedBuffers.Proofs.Files.Following

/-!
# Trees that agree off one place

Two trees agree off a place when everything else stands in both, whatever the times, and
when neither has a directory at the place. A path that does not lead to the place leads to
the same in both, so what is read and what a search finds is the same.
-/

namespace EmbeddedBuffers.FileTree

/-- What stands at a place, without its time. -/
def kind? (t : FileTree) (place : Location) : Option Node := (t.get? place).map (Node.withTime 0)

theorem hasDirectory_eq (t : FileTree) (place : Location) :
    t.hasDirectory place = ((t.kind? place).map Node.isDirectory).getD false := by
  unfold hasDirectory kind?
  cases t.get? place with
  | none => rfl
  | some node => cases node <;> rfl

theorem isSome_get? (t : FileTree) (place : Location) :
    (t.get? place).isSome = (t.kind? place).isSome := by
  rw [kind?, Option.isSome_map]

/-- The same files in both trees, times apart. -/
def SameFiles (a b : FileTree) : Prop := a.home = b.home ∧ ∀ q, a.kind? q = b.kind? q

/-- The same files in both trees but for what stands at one place, where neither has a
directory. -/
structure AgreeOff (place : Location) (a b : FileTree) : Prop where
  home_eq : a.home = b.home
  kind_eq : ∀ q, q ≠ place → a.kind? q = b.kind? q
  noDirectory : a.hasDirectory place = false ∧ b.hasDirectory place = false

variable {a b c : FileTree} {place p r : Location}

theorem AgreeOff.symm (h : AgreeOff place a b) : AgreeOff place b a :=
  ⟨h.home_eq.symm, fun q hq => (h.kind_eq q hq).symm, h.noDirectory.symm⟩

theorem AgreeOff.trans (hab : AgreeOff place a b) (hbc : AgreeOff place b c) :
    AgreeOff place a c :=
  ⟨hab.home_eq.trans hbc.home_eq, fun q hq => (hab.kind_eq q hq).trans (hbc.kind_eq q hq),
    hab.noDirectory.1, hbc.noDirectory.2⟩

theorem SameFiles.hasDirectory_eq (h : SameFiles a b) (q : Location) :
    a.hasDirectory q = b.hasDirectory q := by
  rw [FileTree.hasDirectory_eq, FileTree.hasDirectory_eq, h.2]

theorem AgreeOff.trans_same (hab : AgreeOff place a b) (hbc : SameFiles b c) :
    AgreeOff place a c :=
  ⟨hab.home_eq.trans hbc.1, fun q hq => (hab.kind_eq q hq).trans (hbc.2 q),
    hab.noDirectory.1, hbc.hasDirectory_eq place ▸ hab.noDirectory.2⟩

theorem AgreeOff.hasDirectory_eq (h : AgreeOff place a b) (q : Location) :
    a.hasDirectory q = b.hasDirectory q := by
  by_cases hq : q = place
  · rw [hq, h.noDirectory.1, h.noDirectory.2]
  · rw [FileTree.hasDirectory_eq, FileTree.hasDirectory_eq, h.kind_eq q hq]

/-! ## Following -/

theorem enter_of_not_directory {t : FileTree} (h : t.hasDirectory p = false) (part : String) :
    t.enter p part = .error .notDirectory := by
  rw [enter, h, if_neg Bool.false_ne_true]

/-- One part of a path leads to the same in both trees, where that is not the place itself or
something stands there in the other tree too. -/
theorem AgreeOff.enter_eq (h : AgreeOff place a b) {part : String} (hr : a.enter p part = .ok r)
    (hplace : r = place → (b.get? place).isSome = true) : b.enter p part = .ok r := by
  rw [enter_eq_ok] at hr ⊢
  cases hr with
  | stay hdir hsilent => exact .stay (h.hasDirectory_eq p ▸ hdir) hsilent
  | up hdir hspoken hparent => exact .up (h.hasDirectory_eq p ▸ hdir) hspoken hparent
  | down hdir hspoken hname hsome =>
      refine .down (h.hasDirectory_eq p ▸ hdir) hspoken hname ?_
      by_cases hq : p ++ [part] = place
      · rw [hq]
        exact hplace hq
      · rw [isSome_get?, ← h.kind_eq _ hq, ← isSome_get?]
        exact hsome

theorem AgreeOff.foldlM_eq (h : AgreeOff place a b) {parts : List String}
    (hr : parts.foldlM a.enter p = .ok r) (hplace : r = place → (b.get? place).isSome = true) :
    parts.foldlM b.enter p = .ok r := by
  induction parts generalizing p with
  | nil => exact hr
  | cons part parts ih =>
      rw [List.foldlM_cons] at hr ⊢
      obtain ⟨q, hq, hr⟩ := exists_of_bind_eq_ok hr
      have hstep : b.enter p part = .ok q := by
        refine h.enter_eq hq ?_
        rintro rfl
        cases parts with
        | nil =>
            cases hr
            exact hplace rfl
        | cons next parts =>
            -- From the place no path goes on.
            rw [List.foldlM_cons, enter_of_not_directory h.noDirectory.1] at hr
            cases hr
      rw [hstep]
      exact ih hr

theorem AgreeOff.follow_eq (h : AgreeOff place a b) {path : String} {parts : List String}
    (hr : a.follow path parts = .ok r) (hplace : r = place → (b.get? place).isSome = true) :
    b.follow path parts = .ok r := by
  have hstart : a.startOf path = b.startOf path := by
    rw [startOf, startOf, h.home_eq]
  unfold follow at hr ⊢
  rw [← hstart]
  exact h.foldlM_eq hr hplace

/-- A path leads to the same in both trees. -/
theorem AgreeOff.locate_eq (h : AgreeOff place a b) {path : String} (hr : a.locate path = .ok r)
    (hplace : r = place → (b.get? place).isSome = true) : b.locate path = .ok r := by
  rw [locate_eq_ok] at hr ⊢
  exact ⟨hr.1, h.follow_eq hr.2 hplace⟩

/-! ## Reading and searching -/

theorem kind?_eq_of_get? {t : FileTree} {node : Node} (h : t.get? p = some node) :
    t.kind? p = some (node.withTime 0) := by
  rw [kind?, h, Option.map_some]

/-- What is read is what stands at the place that the path leads to. -/
theorem read_eq {t : FileTree} {path : String} (h : t.locate path = .ok r) :
    t.read path = match t.kind? r with
      | some (.file content _) => .ok content
      | some (.directory _) => .error .isDirectory
      | none => .error .missing := by
  unfold read find kind?
  rw [h]
  simp only [bind, Except.bind]
  cases t.get? r with
  | none => rfl
  | some node => cases node <;> rfl

theorem AgreeOff.read_eq (h : AgreeOff place a b) {path : String} (hr : a.locate path = .ok r)
    (hne : r ≠ place) : a.read path = b.read path := by
  have hb := h.locate_eq hr fun heq => absurd heq hne
  rw [FileTree.read_eq hr, FileTree.read_eq hb, h.kind_eq r hne]

theorem isFile_eq {t : FileTree} {path : String} (h : t.locate path = .ok r) :
    t.isFile path = ((t.kind? r).map Node.isFile).getD false := by
  unfold isFile find kind?
  rw [h]
  simp only [bind, Except.bind]
  cases t.get? r with
  | none => rfl
  | some node => cases node <;> rfl

theorem isFile_of_locate_error {t : FileTree} {path : String} {f : FileFault}
    (h : t.locate path = .error f) : t.isFile path = false := by
  unfold isFile find
  rw [h]
  rfl

theorem AgreeOff.isFile_eq (h : AgreeOff place a b) {path : String}
    (ha : a.locate path ≠ .ok place) (hb : b.locate path ≠ .ok place) :
    a.isFile path = b.isFile path := by
  cases hla : a.locate path with
  | ok r =>
      have hne : r ≠ place := fun heq => ha (heq ▸ hla)
      have hlb := h.locate_eq hla fun heq => absurd heq hne
      rw [FileTree.isFile_eq hla, FileTree.isFile_eq hlb, h.kind_eq r hne]
  | error f =>
      rw [isFile_of_locate_error hla]
      cases hlb : b.locate path with
      | ok r =>
          have hne : r ≠ place := fun heq => hb (heq ▸ hlb)
          rw [h.symm.locate_eq hlb fun heq => absurd heq hne] at hla
          cases hla
      | error g => rw [isFile_of_locate_error hlb]

/-- Where something stands at the place in one tree, a path that does not lead there does not do
so in the other tree either. -/
theorem AgreeOff.locate_ne (h : AgreeOff place a b) (hplace : (b.get? place).isSome = true)
    {path : String} (hb : b.locate path ≠ .ok place) : a.locate path ≠ .ok place :=
  fun ha => hb (h.locate_eq ha fun _ => hplace)

theorem isDirectory_eq {t : FileTree} {path : String} (h : t.locate path = .ok r) :
    t.isDirectory path = t.hasDirectory r := by
  unfold isDirectory find hasDirectory
  rw [h]
  simp only [bind, Except.bind]
  cases t.get? r <;> rfl

theorem AgreeOff.isDirectory (h : AgreeOff place a b) {path : String}
    (hdir : a.isDirectory path = true) : b.isDirectory path = true := by
  cases hl : a.locate path with
  | error f =>
      rw [FileTree.isDirectory, find, hl] at hdir
      cases hdir
  | ok r =>
      rw [isDirectory_eq hl] at hdir
      have hb := h.locate_eq hl (by
        rintro rfl
        rw [h.noDirectory.1] at hdir
        cases hdir)
      rw [isDirectory_eq hb, ← h.hasDirectory_eq, hdir]

/-- The working directory can be reached in the other tree too. -/
theorem AgreeOff.settled (h : AgreeOff place a b) (hplace : (b.get? place).isSome = true)
    (ha : a.Settled) : b.Settled := by
  have hreached : ∀ {r}, a.Reached r → b.Reached r := by
    intro r hr
    induction hr with
    | root => exact .root
    | @step q name _ hdir hname hsome ih =>
        refine .step ih (h.hasDirectory_eq q ▸ hdir) hname ?_
        by_cases heq : q ++ [name] = place
        · rw [heq, hplace]
        · rw [isSome_get?, ← h.kind_eq _ heq, ← isSome_get?, hsome]
  unfold Settled
  rw [← h.home_eq]
  exact hreached ha

end EmbeddedBuffers.FileTree

namespace EmbeddedBuffers.PathSet

open FileTree

variable {a b : FileTree} {place : Location}

/-- A search that passes the place by finds the same in both trees. -/
theorem resolve_eq (h : AgreeOff place a b) (dirs : PathSet) (requested : String)
    (ha : ∀ path ∈ dirs.candidates requested, a.locate path ≠ .ok place)
    (hb : ∀ path ∈ dirs.candidates requested, b.locate path ≠ .ok place) :
    dirs.resolve a requested = dirs.resolve b requested := by
  have hfind : (dirs.candidates requested).find? a.isFile =
      (dirs.candidates requested).find? b.isFile := by
    generalize dirs.candidates requested = paths at ha hb
    induction paths with
    | nil => rfl
    | cons path paths ih =>
        rw [List.forall_mem_cons] at ha hb
        rw [List.find?_cons, List.find?_cons, h.isFile_eq ha.1 hb.1, ih ha.2 hb.2]
  unfold resolve
  rw [hfind]
  cases hpath : (dirs.candidates requested).find? b.isFile with
  | none => rfl
  | some path =>
      have hmem := List.mem_of_find?_eq_some hpath
      have hfile := List.find?_some hpath
      cases hlb : b.locate path with
      | error f =>
          rw [isFile_of_locate_error hlb] at hfile
          cases hfile
      | ok r =>
          have hne : r ≠ place := fun heq => hb path hmem (heq ▸ hlb)
          dsimp only
          rw [canonical, canonical, hlb, h.symm.locate_eq hlb fun heq => absurd heq hne]

/-- What a search finds is the absolute path of a place that can be reached, and one of its
candidates leads there. -/
theorem exists_of_resolve {t : FileTree} (ht : t.Settled) {dirs : PathSet}
    {requested found : String} (h : dirs.resolve t requested = .ok found) :
    ∃ r, (∃ path ∈ dirs.candidates requested, t.locate path = .ok r) ∧
      found = r.render ∧ t.locate found = .ok r := by
  unfold resolve at h
  split at h
  · next path hpath =>
    have hmem := List.mem_of_find?_eq_some hpath
    rw [canonical] at h
    cases hl : t.locate path with
    | error f =>
        rw [hl] at h
        cases h
    | ok r =>
        rw [hl] at h
        cases h
        exact ⟨r, ⟨path, hmem, hl⟩, rfl, locate_render (ht.reached_of_locate hl)⟩
  · cases h

end EmbeddedBuffers.PathSet
