import EmbeddedBuffers.Files.Change
import EmbeddedBuffers.Proofs.Files.Agreement

/-!
# Replacing a file

In a directory that exists, replacing a file changes what stands at its place and nothing
else: the file beside it that the text goes through has a name that was free, and is gone
afterwards. Main statements: `exists_replaceFile` and `replaced_of_replaceFile`.
-/

namespace EmbeddedBuffers.FileTree

/-! ## Single changes -/

theorem lookup_filter_ne (nodes : List (Location × Node)) {place q : Location} (h : q ≠ place) :
    (nodes.filter (·.1 ≠ place)).lookup q = nodes.lookup q := by
  induction nodes with
  | nil => rfl
  | cons entry nodes ih =>
      obtain ⟨at₀, node⟩ := entry
      by_cases hq : q = at₀
      · subst hq
        rw [List.filter_cons_of_pos (by simpa using h), List.lookup_cons_self, List.lookup_cons_self]
      · have hbeq : (q == at₀) = false := beq_eq_false_iff_ne.2 hq
        rw [List.lookup_cons, hbeq, ← ih]
        by_cases hkeep : at₀ = place
        · rw [List.filter_cons_of_neg (by simpa using hkeep)]
        · rw [List.filter_cons_of_pos (by simpa using hkeep), List.lookup_cons, hbeq]

theorem lookup_filter_self (nodes : List (Location × Node)) (place : Location) :
    (nodes.filter (·.1 ≠ place)).lookup place = none := by
  rw [List.lookup_eq_none_iff]
  intro entry hentry
  have hne := of_decide_eq_true (List.mem_filter.1 hentry).2
  exact bne_iff_ne.2 fun heq => hne heq.symm

variable {t : FileTree} {place q : Location} {node : Node}

theorem get?_put_self (t : FileTree) (hplace : place ≠ []) (node : Node) :
    (t.put place node).get? place = some node := by
  rw [get?, if_neg (by simpa using hplace)]
  exact List.lookup_cons_self

theorem get?_put_ne (t : FileTree) (h : q ≠ place) (node : Node) :
    (t.put place node).get? q = t.get? q := by
  have hbeq : (q == place) = false := beq_eq_false_iff_ne.2 h
  unfold get? put
  dsimp only
  rw [List.lookup_cons, hbeq, lookup_filter_ne _ h]

theorem get?_erase_self (t : FileTree) (hplace : place ≠ []) : (t.erase place).get? place = none := by
  rw [get?, if_neg (by simpa using hplace)]
  exact lookup_filter_self _ _

theorem get?_erase_ne (t : FileTree) (h : q ≠ place) : (t.erase place).get? q = t.get? q := by
  unfold get? erase
  dsimp only
  rw [lookup_filter_ne _ h]

/-! ## Names that are free -/

theorem temporaryName_inj {m n : Nat} (h : s!".tmp{m}" = s!".tmp{n}") : m = n := by
  have hlist := congrArg String.toList h
  simp only [toString, String.toList_append, List.append_cancel_left_eq] at hlist
  have hdigits : Nat.toDigits 10 m = Nat.toDigits 10 n := by
    simpa [Nat.repr_eq_ofList_toDigits] using hlist
  rw [← @Nat.ofDigitChars_ten_toDigits m, hdigits, Nat.ofDigitChars_ten_toDigits]

/-- There are more names to try than there are files and the other name. -/
theorem freeName_spec (t : FileTree) (place : Location) (other : String) :
    t.freeName place other ≠ other ∧ t.get? (place ++ [t.freeName place other]) = none := by
  unfold freeName
  dsimp only
  cases hfind : ((List.range (t.nodes.length + 2)).map fun n => s!".tmp{n}").find?
      fun name => name != other && (t.get? (place ++ [name])).isNone with
  | some name =>
      have hname := List.find?_some hfind
      rw [Bool.and_eq_true, bne_iff_ne, Option.isNone_iff_eq_none] at hname
      exact hname
  | none =>
      exfalso
      have hall := List.find?_eq_none.1 hfind
      have hnodup : ((List.range (t.nodes.length + 2)).map
          fun n => place ++ [s!".tmp{n}"]).Nodup := by
        refine List.pairwise_map.2 (List.nodup_range.imp ?_)
        intro m n hne heq
        exact hne (temporaryName_inj (List.singleton_inj.1 (List.append_cancel_left heq)))
      have hsub : ((List.range (t.nodes.length + 2)).map fun n => place ++ [s!".tmp{n}"]) ⊆
          (place ++ [other]) :: t.nodes.map (·.1) := by
        intro q hq
        obtain ⟨n, hn, rfl⟩ := List.mem_map.1 hq
        have htaken := hall _ (List.mem_map_of_mem hn)
        rw [Bool.and_eq_true, bne_iff_ne, Option.isNone_iff_eq_none, get?, if_neg (by simp)] at htaken
        apply Classical.byContradiction
        intro hmem
        rw [List.mem_cons, not_or] at hmem
        refine htaken ⟨fun heq => hmem.1 (by rw [heq]), List.lookup_eq_none_iff.2 ?_⟩
        intro entry hentry
        exact bne_iff_ne.2 fun heq => hmem.2 (heq ▸ List.mem_map_of_mem hentry)
      have hle := List.Nodup.length_le_of_subset hnodup hsub
      rw [List.length_map, List.length_cons, List.length_map, List.length_range] at hle
      omega

/-! ## Where a file is put -/

theorem foldlM_enter_empty {t : FileTree} {p r : Location} {parts : List String}
    (hparts : ∀ part ∈ parts, part.isEmpty = true) (h : parts.foldlM t.enter p = .ok r) :
    r = p := by
  induction parts with
  | nil =>
      cases h
      rfl
  | cons part parts ih =>
      rw [List.forall_mem_cons] at hparts
      rw [List.foldlM_cons, String.isEmpty_iff.1 hparts.1, enter] at h
      split at h
      · exact ih hparts.2 h
      · cases h

theorem hasDirectory_of_enter {t : FileTree} {p r : Location} {part : String}
    (h : t.enter p part = .ok r) : t.hasDirectory p = true := by
  cases enter_eq_ok.1 h <;> assumption

theorem spoken_of_isEntryName {part : String} (hentry : isEntryName part = true)
    (hempty : part.isEmpty = false) : Path.isSilent part = false ∧ part ≠ ".." := by
  simp only [isEntryName, Bool.and_eq_true, bne_iff_ne] at hentry
  rw [Path.isSilent, Bool.or_eq_false_iff, beq_eq_false_iff_ne, beq_eq_false_iff_ne]
  exact ⟨⟨fun heq => by simp [heq] at hempty, hentry.1⟩, hentry.2⟩

theorem eq_of_enter {t : FileTree} {p r : Location} {part : String}
    (hentry : isEntryName part = true) (hempty : part.isEmpty = false)
    (h : t.enter p part = .ok r) : r = p ++ [part] ∧ (t.get? (p ++ [part])).isSome = true := by
  obtain ⟨hspoken, hname⟩ := spoken_of_isEntryName hentry hempty
  cases enter_eq_ok.1 h with
  | stay _ hsilent => cases hspoken.symm.trans hsilent
  | up _ _ hparent => exact absurd hparent hname
  | down _ _ _ hsome => exact ⟨rfl, hsome⟩

/-- A path is split into the directory that its parts before the last lead to and that last part;
empty parts at the end do not count. -/
theorem split_eq_ok {t : FileTree} {path last : String} {place : Location} :
    t.split path = .ok (place, some last) ↔ path.isEmpty = false ∧ ∃ before,
      (Path.parts path).reverse.dropWhile String.isEmpty = last :: before ∧
        t.follow path before.reverse = .ok place ∧ t.hasDirectory place = true := by
  unfold split
  cases path.isEmpty with
  | true => exact iff_of_false (fun h => by cases h) (fun h => by cases h.1)
  | false =>
      rw [if_neg Bool.false_ne_true]
      cases (Path.parts path).reverse.dropWhile String.isEmpty with
      | nil => exact iff_of_false (fun h => by cases h) (fun ⟨_, _, h, _⟩ => by cases h)
      | cons last' before =>
          constructor
          · intro h
            obtain ⟨p, hp, h⟩ := exists_of_bind_eq_ok h
            split at h
            · next hdir =>
              cases h
              exact ⟨rfl, before, rfl, hp, hdir⟩
            · cases h
          · rintro ⟨-, _, ⟨⟩, hp, hdir⟩
            show (t.follow path before.reverse >>= _) = _
            rw [hp]
            show (if t.hasDirectory place then _ else _) = _
            rw [if_pos hdir]
            rfl

theorem isEmpty_of_split {t : FileTree} {path last : String} {place : Location}
    (h : t.split path = .ok (place, some last)) : last.isEmpty = false := by
  obtain ⟨-, before, heq, -, -⟩ := split_eq_ok.1 h
  have hlast := List.head?_dropWhile_not String.isEmpty (Path.parts path).reverse
  rw [heq] at hlast
  exact Bool.eq_false_iff.2 (by simpa using hlast)

/-- The last part of a path that leads somewhere is entered from the directory of the path. -/
theorem split_of_locate {t : FileTree} {path : String} {r : Location}
    (h : t.locate path = .ok r) :
    t.split path = .ok ([], none) ∨
      ∃ place last, t.split path = .ok (place, some last) ∧ t.enter place last = .ok r := by
  obtain ⟨hne, hfollow⟩ := locate_eq_ok.1 h
  have hparts := List.takeWhile_append_dropWhile (p := String.isEmpty) (l := (Path.parts path).reverse)
  have hempty := List.all_takeWhile (p := String.isEmpty) (l := (Path.parts path).reverse)
  generalize (Path.parts path).reverse.takeWhile String.isEmpty = trailing at hparts hempty
  cases hdrop : (Path.parts path).reverse.dropWhile String.isEmpty with
  | nil =>
      left
      rw [split, hne, if_neg Bool.false_ne_true, hdrop]
  | cons last before =>
      right
      rw [hdrop] at hparts
      have heq := congrArg List.reverse hparts
      rw [List.reverse_reverse, List.reverse_append, List.reverse_cons] at heq
      rw [← heq, List.append_assoc, List.foldlM_append] at hfollow
      obtain ⟨place, hplace, hfollow⟩ := exists_of_bind_eq_ok hfollow
      rw [List.singleton_append, List.foldlM_cons] at hfollow
      obtain ⟨q, hlast, hfollow⟩ := exists_of_bind_eq_ok hfollow
      have hrq : r = q := by
        refine foldlM_enter_empty ?_ hfollow
        intro part hpart
        exact List.all_eq_true.1 hempty part (List.mem_reverse.1 hpart)
      exact ⟨place, last, split_eq_ok.2 ⟨hne, before, hdrop, hplace, hasDirectory_of_enter hlast⟩,
        hrq ▸ hlast⟩

/-- The place to which a file may be moved is an entry of a directory. -/
theorem moveTarget_eq_ok {t : FileTree} {path : String} {target : Location} :
    t.moveTarget path = .ok target ↔
      ∃ place last, t.split path = .ok (place, some last) ∧ isEntryName last = true ∧
        endsOpen path = false ∧ t.hasDirectory (place ++ [last]) = false ∧
        target = place ++ [last] := by
  unfold moveTarget
  cases t.split path with
  | error f => simp [bind, Except.bind]
  | ok found =>
      obtain ⟨place, _ | last⟩ := found
      · simp [bind, Except.bind, throw, throwThe, MonadExceptOf.throw]
      · show (if (!isEntryName last) = true then throw FileFault.busy else
          if endsOpen path = true then throw FileFault.notDirectory else
          if t.hasDirectory (place ++ [last]) = true then throw FileFault.isDirectory else
          pure (place ++ [last])) = Except.ok target ↔ _
        constructor
        · intro h
          split at h
          · cases h
          · next hentry =>
            split at h
            · cases h
            · next hopen =>
              split at h
              · cases h
              · next hdir =>
                cases h
                exact ⟨place, last, rfl, by simpa using hentry, Bool.eq_false_iff.2 hopen,
                  Bool.eq_false_iff.2 hdir, rfl⟩
        · rintro ⟨place', last', heq, hentry, hopen, hdir, rfl⟩
          cases heq
          rw [hentry, hopen, hdir]
          rfl

/-- In agreeing trees a path has the same directory. -/
theorem AgreeOff.split_eq {a b : FileTree} {off place : Location} (h : AgreeOff off a b)
    {path last : String} (hs : a.split path = .ok (place, some last)) :
    b.split path = .ok (place, some last) := by
  obtain ⟨hne, before, hdrop, hplace, hdir⟩ := split_eq_ok.1 hs
  have hoff : place = off → (b.get? off).isSome = true := by
    rintro rfl
    cases h.noDirectory.1.symm.trans hdir
  exact split_eq_ok.2 ⟨hne, before, hdrop, h.follow_eq hplace hoff, h.hasDirectory_eq place ▸ hdir⟩

theorem AgreeOff.moveTarget_eq {a b : FileTree} {off target : Location} (h : AgreeOff off a b)
    {path : String} (ha : a.moveTarget path = .ok target) : b.moveTarget path = .ok target := by
  obtain ⟨place, last, hs, hentry, hopen, hdir, rfl⟩ := moveTarget_eq_ok.1 ha
  exact moveTarget_eq_ok.2
    ⟨place, last, h.split_eq hs, hentry, hopen, h.hasDirectory_eq _ ▸ hdir, rfl⟩

/-- A path that leads somewhere leads to where a file of that path is put. -/
theorem eq_of_moveTarget {t : FileTree} {path : String} {target r : Location}
    (ht : t.moveTarget path = .ok target) (hr : t.locate path = .ok r) : r = target := by
  obtain ⟨place, last, hs, hentry, -, -, rfl⟩ := moveTarget_eq_ok.1 ht
  rcases split_of_locate hr with hroot | ⟨place', last', hs', hlast⟩
  · rw [hroot] at hs
    cases hs
  · rw [hs] at hs'
    cases hs'
    exact (eq_of_enter hentry (isEmpty_of_split hs) hlast).1

theorem exists_locate_of_isDirectory {t : FileTree} {path : String}
    (h : t.isDirectory path = true) : ∃ r, t.locate path = .ok r := by
  cases hl : t.locate path with
  | ok r => exact ⟨r, rfl⟩
  | error f =>
      rw [isDirectory, find, hl] at h
      cases h

/-- Where a directory stands there is no place for a new one. -/
theorem newDirectory_of_locate {t : FileTree} {path : String} {r : Location}
    (h : t.locate path = .ok r) : t.newDirectory path = .error .alreadyExists := by
  rcases split_of_locate h with hroot | ⟨place, last, hs, hlast⟩
  · rw [newDirectory, hroot]
    rfl
  · rw [newDirectory, hs]
    show (if isEntryName last ∧ (t.get? (place ++ [last])).isNone then _ else _) = _
    rw [if_neg]
    · rfl
    · rintro ⟨hentry, hnone⟩
      have hsome := (eq_of_enter hentry (isEmpty_of_split hs) hlast).2
      rw [Option.isNone_iff_eq_none.1 hnone] at hsome
      cases hsome

end EmbeddedBuffers.FileTree

namespace EmbeddedBuffers.Session

open FileTree

/-- Nothing is made where a directory exists. -/
theorem makeDirectories_of_isDirectory {s : Session} {path : String}
    (h : s.tree.isDirectory path = true) (levels : Nat) :
    s.makeDirectories (levels + 1) path = (.ok (), s) := by
  obtain ⟨r, hr⟩ := exists_locate_of_isDirectory h
  rw [makeDirectories, newDirectory_of_locate hr]
  dsimp only
  rw [if_pos h]
  split <;> rfl

/-- A tree after a file was replaced: the text stands at the place, all else is as it was. -/
structure Replaced (a b : FileTree) (target : Location) (text : String) : Prop where
  home_eq : b.home = a.home
  get?_target : b.get? target = some (.file (.bytes (utf8 text)) a.now)
  get?_ne : ∀ q, q ≠ target → b.get? q = a.get? q

/-- The text goes through a file whose name is free, and that file is gone afterwards. -/
theorem replaced_rename {t : FileTree} {temporary target : Location} (htemp : temporary ≠ [])
    (hfree : t.get? temporary = none) (htarget : target ≠ []) (text : String) :
    Replaced t (((t.apply (.write temporary [])).apply (.write temporary (utf8 text))).apply
      (.rename temporary target)) target text := by
  have hget := get?_put_self (t.put temporary (.file (.bytes []) t.now)) htemp
    (.file (.bytes (utf8 text)) (t.put temporary (.file (.bytes []) t.now)).now)
  simp only [apply]
  rw [hget]
  refine ⟨rfl, get?_put_self _ htarget _, ?_⟩
  intro q hq
  dsimp only
  rw [get?_put_ne _ hq]
  by_cases hqt : q = temporary
  · rw [hqt, get?_erase_self _ htemp, hfree]
  · rw [get?_erase_ne _ hqt, get?_put_ne _ hqt, get?_put_ne _ hqt]

/-- While the text is written beside it, a file goes to the same place. -/
theorem agreeOff_write {t : FileTree} {temporary : Location} (htemp : temporary ≠ [])
    (hfree : t.get? temporary = none) (data : List UInt8) :
    AgreeOff temporary t
      ((t.apply (.write temporary [])).apply (.write temporary data)) := by
  refine ⟨rfl, ?_, ?_, ?_⟩
  · intro q hq
    simp only [kind?, apply]
    rw [get?_put_ne _ hq, get?_put_ne _ hq]
  · rw [hasDirectory, hfree]
  · simp only [hasDirectory, apply]
    rw [get?_put_self _ htemp]
    rfl

/-! ## Writes -/

/-- A write gives the file its text or a beginning of it, as the machine has it. -/
theorem writeText_cases (s : Session) (place : Location) (text : String) :
    s.writeText place text = (.ok (), s.perform (.write place (utf8 text))) ∨
      ∃ fault, s.failing.lookup s.changes.length = some fault ∧ s.writeText place text =
        (.error fault.reason, s.perform (.write place ((utf8 text).take fault.written))) := by
  unfold writeText
  cases s.failing.lookup s.changes.length with
  | none => exact .inl rfl
  | some fault => exact .inr ⟨fault, rfl, rfl⟩

theorem writeText_of_nil {s : Session} (h : s.failing = []) (place : Location) (text : String) :
    s.writeText place text = (.ok (), s.perform (.write place (utf8 text))) := by
  rw [writeText, h]
  rfl

/-- What a text that goes through a new file has done when it was not refused. -/
theorem writeThrough_eq_ok {s s' : Session} {temporary : Location} {shown path text : String}
    (h : s.writeThrough temporary shown path text = (.ok (), s')) :
    ∃ target, ((s.tree.apply (.write temporary [])).apply
        (.write temporary (utf8 text))).moveTarget path = .ok target ∧
      s'.tree = ((s.tree.apply (.write temporary [])).apply
        (.write temporary (utf8 text))).apply (.rename temporary target) := by
  unfold writeThrough at h
  obtain hwritten | ⟨fault, -, hfails⟩ :=
    writeText_cases (s.perform (.write temporary [])) temporary text
  · rw [hwritten] at h
    dsimp only [perform] at h
    split at h
    · next target htarget =>
      cases h
      exact ⟨target, htarget, rfl⟩
    · cases h
  · rw [hfails] at h
    cases h

/-- In a directory that exists nothing is made, and the new file has a free name. -/
theorem exists_writeThrough {s : Session} {path : String}
    (hdir : s.tree.isDirectory (Path.directory path) = true) (text : String) :
    ∃ temporary, temporary ≠ [] ∧ s.tree.get? temporary = none ∧
      ∃ shown, s.replaceFile path text = s.writeThrough temporary shown path text := by
  obtain ⟨place, hplace⟩ := exists_locate_of_isDirectory hdir
  refine ⟨place ++ [s.tree.freeName place (lastPart path)], by simp,
    (freeName_spec s.tree place (lastPart path)).2, ?_⟩
  rw [replaceFile]
  dsimp only
  rw [makeDirectories_of_isDirectory hdir]
  dsimp only
  rw [hplace]
  exact ⟨_, rfl⟩

theorem ne_nil_of_moveTarget {t : FileTree} {path : String} {target : Location}
    (h : t.moveTarget path = .ok target) : target ≠ [] := by
  obtain ⟨_, _, -, -, -, -, rfl⟩ := moveTarget_eq_ok.1 h
  simp

/-- **A file that may be moved to its place is replaced, and nothing else changes**, unless a write
fails. -/
theorem exists_replaceFile {s : Session} {path : String} {target : Location}
    (hdir : s.tree.isDirectory (Path.directory path) = true)
    (htarget : s.tree.moveTarget path = .ok target) (hfailing : s.failing = []) (text : String) :
    ∃ s', s.replaceFile path text = (.ok (), s') ∧ Replaced s.tree s'.tree target text ∧
      s'.failing = [] := by
  obtain ⟨temporary, htemp, hfree, shown, hrun⟩ := exists_writeThrough hdir text
  have hmove := (agreeOff_write htemp hfree (utf8 text)).moveTarget_eq htarget
  have hopened : (s.perform (.write temporary [])).failing = [] := hfailing
  rw [hrun, writeThrough, writeText_of_nil hopened]
  dsimp only [perform]
  rw [hmove]
  exact ⟨_, rfl, replaced_rename htemp hfree (ne_nil_of_moveTarget htarget) text, hfailing⟩

theorem Replaced.agreeOff {a b : FileTree} {target : Location} {text : String}
    (h : Replaced a b target text) (hdir : a.hasDirectory target = false) : AgreeOff target a b := by
  refine ⟨h.home_eq.symm, ?_, hdir, ?_⟩
  · intro q hq
    rw [kind?, kind?, h.get?_ne q hq]
  · rw [hasDirectory, h.get?_target]
    rfl

/-- What a replacement that was not refused has done. -/
theorem replaced_of_replaceFile {s s' : Session} {path text : String}
    (hdir : s.tree.isDirectory (Path.directory path) = true)
    (h : s.replaceFile path text = (.ok (), s')) :
    ∃ target, s.tree.moveTarget path = .ok target ∧ Replaced s.tree s'.tree target text := by
  obtain ⟨temporary, htemp, hfree, shown, hrun⟩ := exists_writeThrough hdir text
  obtain ⟨target, htarget, htree⟩ := writeThrough_eq_ok (hrun.symm.trans h)
  have hplain := (agreeOff_write htemp hfree (utf8 text)).symm.moveTarget_eq htarget
  refine ⟨target, hplain, ?_⟩
  rw [htree]
  exact replaced_rename htemp hfree (ne_nil_of_moveTarget hplain) text

end EmbeddedBuffers.Session
