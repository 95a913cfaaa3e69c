import EmbeddedBuffers.Files.Tree
import EmbeddedBuffers.Proofs.Results

/-!
# Where paths lead

One part of a path stays where it is, leads up, or leads down to something that stands there:
`enter_eq_ok`. Following a path only ever reaches places whose names a path can spell and whose
directories exist, provided that it starts from such a place. The absolute path of a place
that was reached leads back to it: `locate_render`.
-/

namespace EmbeddedBuffers

/-! ## Cutting at a separator -/

namespace Text

theorem splitAt_of_not_mem {sep : Char} {s : List Char} (h : sep ∉ s) : splitAt sep s = [s] := by
  induction s with
  | nil => rfl
  | cons c s ih =>
      rw [List.mem_cons, not_or] at h
      rw [splitAt, if_neg (fun heq => h.1 heq.symm), ih h.2]

theorem splitAt_append {sep : Char} {s : List Char} (h : sep ∉ s) (rest : List Char) :
    splitAt sep (s ++ sep :: rest) = s :: splitAt sep rest := by
  induction s with
  | nil =>
      rw [List.nil_append, splitAt, if_pos rfl]
  | cons c s ih =>
      rw [List.mem_cons, not_or] at h
      rw [List.cons_append, splitAt, if_neg (fun heq => h.1 heq.symm), ih h.2]

theorem splitAt_ne_nil (sep : Char) (s : List Char) : splitAt sep s ≠ [] := by
  cases s with
  | nil => exact List.cons_ne_nil _ _
  | cons c s =>
      rw [splitAt]
      split
      · exact List.cons_ne_nil _ _
      · split <;> exact List.cons_ne_nil _ _

theorem not_mem_of_mem_splitAt {sep : Char} {s part : List Char} (h : part ∈ splitAt sep s) :
    sep ∉ part := by
  induction s generalizing part with
  | nil =>
      rw [splitAt, List.mem_singleton] at h
      subst h
      exact List.not_mem_nil
  | cons c s ih =>
      rw [splitAt] at h
      split at h
      · rcases List.mem_cons.1 h with rfl | h
        · exact List.not_mem_nil
        · exact ih h
      · next hne =>
        split at h
        · rw [List.mem_singleton] at h
          subst h
          simpa using fun heq => hne heq.symm
        · next first parts heq =>
          rcases List.mem_cons.1 h with rfl | h
          · rw [List.mem_cons, not_or]
            exact ⟨fun heq => hne heq.symm, ih (heq ▸ List.mem_cons_self)⟩
          · exact ih (heq ▸ List.mem_cons_of_mem _ h)

/-- Texts without the separator are the parts of what they are joined to. -/
theorem splitAt_intercalate {sep : Char} {parts : List (List Char)}
    (h : ∀ part ∈ parts, sep ∉ part) (hne : parts ≠ []) :
    splitAt sep (List.intercalate [sep] parts) = parts := by
  induction parts with
  | nil => exact absurd rfl hne
  | cons part parts ih =>
      rw [List.forall_mem_cons] at h
      cases parts with
      | nil => rw [List.intercalate_singleton, splitAt_of_not_mem h.1]
      | cons next parts =>
          rw [List.intercalate_cons_cons, List.append_assoc, List.singleton_append,
            splitAt_append h.1, ih h.2 (List.cons_ne_nil _ _)]

end Text

namespace Path

theorem not_mem_of_mem_parts {path part : String} (h : part ∈ parts path) : '/' ∉ part.toList := by
  obtain ⟨chars, hchars, rfl⟩ := List.mem_map.1 h
  rw [String.toList_ofList]
  exact Text.not_mem_of_mem_splitAt hchars

end Path

/-! ## One part of a path -/

namespace FileTree

/-- Where one part of a path leads from a place. -/
inductive Enters (t : FileTree) (place : Location) (part : String) : Location → Prop
  | stay (hdir : t.hasDirectory place = true) (hsilent : Path.isSilent part = true) :
      Enters t place part place
  | up (hdir : t.hasDirectory place = true) (hspoken : Path.isSilent part = false)
      (hparent : part = "..") : Enters t place part place.dropLast
  | down (hdir : t.hasDirectory place = true) (hspoken : Path.isSilent part = false)
      (hname : part ≠ "..") (hsome : (t.get? (place ++ [part])).isSome = true) :
      Enters t place part (place ++ [part])

variable {t : FileTree} {place r : Location}

theorem enter_eq_ok {part : String} : t.enter place part = .ok r ↔ Enters t place part r := by
  constructor
  · intro h
    unfold enter at h
    split at h
    · next hdir =>
      split at h
      · next hsilent =>
        cases h
        exact .stay hdir hsilent
      · next hspoken =>
        have hspoken := eq_false_of_ne_true hspoken
        split at h
        · next hparent =>
          cases h
          exact .up hdir hspoken hparent
        · next hname =>
          split at h
          · next hsome =>
            cases h
            exact .down hdir hspoken hname hsome
          · cases h
    · cases h
  · intro h
    cases h with
    | stay hdir hsilent => rw [enter, if_pos hdir, if_pos hsilent]
    | up hdir hspoken hparent =>
        rw [enter, if_pos hdir, hspoken, if_neg Bool.false_ne_true, if_pos hparent]
    | down hdir hspoken hname hsome =>
        rw [enter, if_pos hdir, hspoken, if_neg Bool.false_ne_true, if_neg hname, if_pos hsome]

/-- A path leads somewhere exactly if it is not empty and its parts do one after the other. -/
theorem locate_eq_ok {path : String} : t.locate path = .ok r ↔
    path.isEmpty = false ∧ (Path.parts path).foldlM t.enter (t.startOf path) = .ok r := by
  unfold locate follow
  cases path.isEmpty with
  | true => exact iff_of_false (fun h => by cases h) (fun h => by cases h.1)
  | false => exact ⟨fun h => ⟨rfl, h⟩, fun h => h.2⟩

end FileTree

/-! ## Places that can be reached -/

/-- What a part of a path can name: no separator in it, and no word of its own. -/
structure IsName (part : String) : Prop where
  noSeparator : '/' ∉ part.toList
  spoken : Path.isSilent part = false
  ne_parent : part ≠ ".."

namespace FileTree

/-- Places that are reached from the root by names, through directories that exist. -/
inductive Reached (t : FileTree) : Location → Prop
  | root : Reached t []
  | step {place : Location} {name : String} : Reached t place → t.hasDirectory place = true →
      IsName name → (t.get? (place ++ [name])).isSome = true → Reached t (place ++ [name])

variable {t : FileTree} {place r : Location}

theorem Reached.dropLast (h : t.Reached place) : t.Reached place.dropLast := by
  cases h with
  | root => exact .root
  | step hplace _ _ _ =>
      rw [List.dropLast_concat]
      exact hplace

theorem Reached.isName (h : t.Reached place) : ∀ name ∈ place, IsName name := by
  induction h with
  | root => exact fun _ h => absurd h List.not_mem_nil
  | step _ _ hname _ ih =>
      intro name hmem
      rcases List.mem_append.1 hmem with hmem | hmem
      · exact ih name hmem
      · rw [List.mem_singleton.1 hmem]
        exact hname

/-- One part of a path leads on to a place that can be reached. -/
theorem Reached.of_enter (h : t.Reached place) {part : String} (hpart : '/' ∉ part.toList)
    (hr : t.enter place part = .ok r) : t.Reached r := by
  cases enter_eq_ok.1 hr with
  | stay => exact h
  | up => exact h.dropLast
  | down hdir hspoken hname hsome => exact .step h hdir ⟨hpart, hspoken, hname⟩ hsome

theorem Reached.of_foldlM {parts : List String} (h : t.Reached place)
    (hparts : ∀ part ∈ parts, '/' ∉ part.toList)
    (hr : parts.foldlM t.enter place = .ok r) : t.Reached r := by
  induction parts generalizing place with
  | nil =>
      cases hr
      exact h
  | cons part parts ih =>
      rw [List.forall_mem_cons] at hparts
      rw [List.foldlM_cons] at hr
      obtain ⟨q, hq, hr⟩ := exists_of_bind_eq_ok hr
      exact ih (h.of_enter hparts.1 hq) hparts.2 hr

/-- The working directory can be reached. -/
def Settled (t : FileTree) : Prop := t.Reached t.home

theorem Settled.reached_startOf (h : t.Settled) (path : String) : t.Reached (t.startOf path) := by
  unfold startOf
  split
  · exact .root
  · exact h

/-- Every path leads to a place that can be reached. -/
theorem Settled.reached_of_locate (h : t.Settled) {path : String}
    (hr : t.locate path = .ok r) : t.Reached r :=
  (h.reached_startOf path).of_foldlM (fun _ => Path.not_mem_of_mem_parts) (locate_eq_ok.1 hr).2

/-- The names on the way to a place that can be reached lead there. -/
theorem Reached.foldlM_enter (h : t.Reached place) : place.foldlM t.enter [] = .ok place := by
  induction h with
  | root => rfl
  | @step place name _ hdir hname hsome ih =>
      rw [List.foldlM_append, ih]
      have hstep : t.enter place name = .ok (place ++ [name]) :=
        enter_eq_ok.2 (.down hdir hname.spoken hname.ne_parent hsome)
      show t.enter place name >>= pure = _
      rw [hstep]
      rfl

theorem parts_render (h : t.Reached place) :
    Path.parts place.render = if place = [] then ["", ""] else "" :: place := by
  have hnames : ∀ part ∈ place.map String.toList, '/' ∉ part := by
    intro part hpart
    obtain ⟨name, hname, rfl⟩ := List.mem_map.1 hpart
    exact (h.isName name hname).noSeparator
  have hlist : place.render.toList =
      [] ++ '/' :: List.intercalate ['/'] (place.map String.toList) := by
    rw [Location.render, String.toList_append, String.toList_intercalate]
    rfl
  rw [Path.parts, hlist, Text.splitAt_append List.not_mem_nil]
  split
  · next hnil =>
    subst hnil
    rfl
  · next hne =>
    rw [Text.splitAt_intercalate hnames (by simpa using hne), List.map_cons, List.map_map]
    simp

/-- **The absolute path of a place that was reached leads back to it.** -/
theorem locate_render (h : t.Reached place) : t.locate place.render = .ok place := by
  have hparts := parts_render h
  have hlist : place.render.toList = '/' :: (String.intercalate "/" place).toList := by
    rw [Location.render, String.toList_append]
    rfl
  have hne : place.render.isEmpty = false := by
    rw [Bool.eq_false_iff]
    intro hempty
    rw [String.isEmpty_iff.1 hempty] at hlist
    cases hlist
  have hstart : t.startOf place.render = [] := by
    rw [startOf, if_pos]
    rw [Path.isAbsolute, hlist]
    rfl
  rw [locate, hne, if_neg Bool.false_ne_true, follow, hstart, hparts]
  have hroot : t.enter [] "" = .ok [] := rfl
  split
  · next hnil =>
    subst hnil
    rfl
  · rw [List.foldlM_cons, hroot]
    exact h.foldlM_enter

/-! ## The name of a file -/

theorem Reached.hasDirectory_dropLast (h : t.Reached place) :
    t.hasDirectory place.dropLast = true := by
  cases h with
  | root => rfl
  | step _ hdir _ _ =>
      rw [List.dropLast_concat]
      exact hdir

/-- A path that ends with a silent part or with `..` leads to a directory, so one that leads to
a file ends with its name. -/
theorem Settled.exists_fileName? (h : t.Settled) {path : String} (hr : t.locate path = .ok r)
    (hfile : t.hasDirectory r = false) :
    ∃ name, Path.fileName? path = some name ∧ '/' ∉ name.toList := by
  have hne : Path.parts path ≠ [] := by
    intro hnil
    exact Text.splitAt_ne_nil _ _ (List.map_eq_nil_iff.1 hnil)
  have hlast := List.dropLast_concat_getLast hne
  have hmem := List.getLast_mem hne
  generalize (Path.parts path).getLast hne = last at hlast hmem
  have hfollow := (locate_eq_ok.1 hr).2
  rw [← hlast, List.foldlM_append] at hfollow
  obtain ⟨q, hq, hfollow⟩ := exists_of_bind_eq_ok hfollow
  have hreached : t.Reached q := (h.reached_startOf path).of_foldlM
    (fun part hpart => Path.not_mem_of_mem_parts ((List.dropLast_subset _) hpart)) hq
  have henter : t.enter q last = .ok r := by
    rw [List.foldlM_cons] at hfollow
    obtain ⟨_, hlast, hfollow⟩ := exists_of_bind_eq_ok hfollow
    cases hfollow
    exact hlast
  cases enter_eq_ok.1 henter with
  | stay hdir =>
      rw [hdir] at hfile
      cases hfile
  | up =>
      rw [hreached.hasDirectory_dropLast] at hfile
      cases hfile
  | down hdir hspoken hparent =>
      refine ⟨last, ?_, Path.not_mem_of_mem_parts hmem⟩
      have hfilter : (Path.parts path).filter (fun part => !Path.isSilent part) =
          (Path.parts path).dropLast.filter (fun part => !Path.isSilent part) ++ [last] := by
        rw [← hlast, List.filter_append, List.dropLast_concat,
          List.filter_cons_of_pos (by simpa using hspoken)]
        rfl
      rw [Path.fileName?, Path.components, hfilter, List.map_append, ← List.append_assoc,
        List.map_singleton, List.getLast?_concat, Path.component, if_neg hparent]

end FileTree

end EmbeddedBuffers
