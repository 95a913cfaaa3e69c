import EmbeddedBuffers.Proofs.Files.Replacement

/-!
# Replacing a file, cut off anywhere

A replacement is a row of changes, and a machine may stop after any of them, or fail to write the
text. Until the last change nothing that stood in the tree is touched: there are new directories,
and at most one new file, of a name that the path does not end with. The last change puts the text
in its place. Main statement: `replaceFile_passes`.
-/

namespace EmbeddedBuffers.FileTree

/-- The file that stands at a place, with its time. -/
def file? (t : FileTree) (place : Location) : Option (Content × Nat) :=
  match t.get? place with
  | some (.file content time) => some (content, time)
  | _ => none

/-- Off some places the tree `b` has the files of `a` and no others. Every directory is kept, and
where something stood something stands. -/
structure Keeps (off : List Location) (a b : FileTree) : Prop where
  home_eq : b.home = a.home
  file_eq : ∀ q, q ∉ off → b.file? q = a.file? q
  directory : ∀ q, a.hasDirectory q = true → b.hasDirectory q = true
  stands : ∀ q, (a.get? q).isSome = true → (b.get? q).isSome = true

variable {a b c t : FileTree} {off : List Location} {place target p r : Location}

theorem Keeps.refl (off : List Location) (t : FileTree) : Keeps off t t :=
  ⟨rfl, fun _ _ => rfl, fun _ h => h, fun _ h => h⟩

theorem Keeps.trans (hab : Keeps off a b) (hbc : Keeps off b c) : Keeps off a c :=
  ⟨hbc.home_eq.trans hab.home_eq, fun q hq => (hbc.file_eq q hq).trans (hab.file_eq q hq),
    fun q h => hbc.directory q (hab.directory q h), fun q h => hbc.stands q (hab.stands q h)⟩

theorem Keeps.mono {off' : List Location} (h : Keeps off a b) (hoff : off ⊆ off') :
    Keeps off' a b :=
  ⟨h.home_eq, fun q hq => h.file_eq q fun hmem => hq (hoff hmem), h.directory, h.stands⟩

/-- What is free was free before. -/
theorem Keeps.get?_eq_none (h : Keeps off a b) (hfree : b.get? p = none) : a.get? p = none := by
  cases ha : a.get? p with
  | none => rfl
  | some node =>
      have hsome := h.stands p (by rw [ha]; rfl)
      rw [hfree] at hsome
      cases hsome

/-- A new directory comes where nothing stands. -/
theorem free_of_newDirectory {path : String} (h : t.newDirectory path = .ok place) :
    t.get? place = none := by
  unfold newDirectory at h
  obtain ⟨⟨at₀, last⟩, -, h⟩ := exists_of_bind_eq_ok h
  cases last with
  | none => cases h
  | some last =>
      dsimp only at h
      split at h
      · next hfree =>
        cases h
        exact Option.isNone_iff_eq_none.1 hfree.2
      · cases h

theorem ne_nil_of_free (hfree : t.get? place = none) : place ≠ [] := by
  rintro rfl
  cases hfree

/-- What changes at one place alone is kept if it is kept there. -/
theorem keeps_of_get?_ne (hhome : b.home = a.home) (hne : ∀ q, q ≠ place → b.get? q = a.get? q)
    (hfile : place ∉ off → b.file? place = a.file? place)
    (hdirectory : a.hasDirectory place = true → b.hasDirectory place = true)
    (hstands : (a.get? place).isSome = true → (b.get? place).isSome = true) : Keeps off a b := by
  refine ⟨hhome, ?_, ?_, ?_⟩
  · intro q hoff
    by_cases hq : q = place
    · subst hq
      exact hfile hoff
    · rw [file?, file?, hne q hq]
  · intro q h
    by_cases hq : q = place
    · subst hq
      exact hdirectory h
    · rw [hasDirectory, hne q hq]
      exact h
  · intro q h
    by_cases hq : q = place
    · subst hq
      exact hstands h
    · rwa [hne q hq]

/-- A directory where nothing stood changes no file. -/
theorem keeps_makeDirectory (hfree : t.get? place = none) :
    Keeps [] t (t.apply (.makeDirectory place)) := by
  have hself : (t.apply (.makeDirectory place)).get? place = some (.directory t.now) :=
    get?_put_self t (ne_nil_of_free hfree) _
  refine keeps_of_get?_ne rfl (fun q hq => get?_put_ne t hq _) (fun _ => ?_) (fun _ => ?_) fun _ => ?_
  · rw [file?, file?, hself, hfree]
  · rw [hasDirectory, hself]
    rfl
  · rw [hself]
    rfl

/-- A file that stands where no directory stood, and all else as before. -/
theorem keeps_of_get? {node : Node} (hhome : b.home = a.home) (hdir : a.hasDirectory place = false)
    (hplace : b.get? place = some node) (hne : ∀ q, q ≠ place → b.get? q = a.get? q) :
    Keeps [place] a b := by
  refine keeps_of_get?_ne hhome hne (fun hoff => ?_) (fun h => ?_) fun _ => ?_
  · exact absurd (List.mem_singleton_self place) hoff
  · rw [hdir] at h
    cases h
  · rw [hplace]
    rfl

theorem keeps_write (hplace : place ≠ []) (hdir : t.hasDirectory place = false)
    (data : List UInt8) : Keeps [place] t (t.apply (.write place data)) :=
  keeps_of_get? rfl hdir (get?_put_self t hplace _) fun _ hq => get?_put_ne t hq _

/-- A file that is made at a free place and given its text is all that differs. -/
theorem keeps_writeTwice (hfree : t.get? place = none) (data : List UInt8) :
    Keeps [place] t ((t.apply (.write place [])).apply (.write place data)) := by
  have hplace := ne_nil_of_free hfree
  refine keeps_of_get? rfl (by rw [hasDirectory, hfree]) (get?_put_self _ hplace _) fun q hq => ?_
  simp only [apply]
  rw [get?_put_ne _ hq, get?_put_ne _ hq]

/-- A new file that is removed again leaves nothing behind. -/
theorem Keeps.remove (h : Keeps [place] a b) (hfree : a.get? place = none) :
    Keeps [] a (b.apply (.remove place)) := by
  have hself := get?_erase_self b (ne_nil_of_free hfree)
  have hne : ∀ q, (a.get? q).isSome = true → q ≠ place := by
    rintro q hq rfl
    rw [hfree] at hq
    cases hq
  refine ⟨h.home_eq, ?_, ?_, ?_⟩
  · intro q _
    by_cases hq : q = place
    · -- Here the new file was the only thing to stand, before it nothing did.
      subst hq
      simp only [file?, apply]
      rw [hself, hfree]
    · rw [← h.file_eq q (by simpa using hq)]
      simp only [file?, apply]
      rw [get?_erase_ne b hq]
  · intro q hq
    have hsome : (a.get? q).isSome = true := by
      unfold hasDirectory at hq
      cases hget : a.get? q with
      | none =>
          rw [hget] at hq
          cases hq
      | some node => rfl
    have hkept := h.directory q hq
    simp only [hasDirectory, apply] at hkept ⊢
    rwa [get?_erase_ne b (hne q hsome)]
  · intro q hq
    rw [apply, get?_erase_ne b (hne q hq)]
    exact h.stands q hq

/-! ## Where paths lead -/

theorem Keeps.enter_eq (h : Keeps off a b) {part : String} (hr : a.enter p part = .ok r) :
    b.enter p part = .ok r := by
  rw [enter_eq_ok] at hr ⊢
  cases hr with
  | stay hdir hsilent => exact .stay (h.directory p hdir) hsilent
  | up hdir hspoken hparent => exact .up (h.directory p hdir) hspoken hparent
  | down hdir hspoken hname hsome => exact .down (h.directory p hdir) hspoken hname (h.stands _ hsome)

/-- A path leads where it led before. -/
theorem Keeps.locate_eq (h : Keeps off a b) {path : String} (hr : a.locate path = .ok r) :
    b.locate path = .ok r := by
  -- Every place on the way still stands, so every part is entered as before.
  have hfold : ∀ (parts : List String) (p : Location), parts.foldlM a.enter p = .ok r →
      parts.foldlM b.enter p = .ok r := by
    intro parts
    induction parts with
    | nil => exact fun _ hr => hr
    | cons part parts ih =>
        intro p hr
        rw [List.foldlM_cons] at hr ⊢
        obtain ⟨q, hq, hr⟩ := exists_of_bind_eq_ok hr
        rw [h.enter_eq hq]
        exact ih q hr
  rw [locate_eq_ok] at hr ⊢
  have hstart : b.startOf path = a.startOf path := by rw [startOf, startOf, h.home_eq]
  rw [hstart]
  exact ⟨hr.1, hfold _ _ hr.2⟩

theorem getLast?_splitAt_ne {sep : Char} {s : List Char} (hne : s ≠ [])
    (hlast : s.getLast? ≠ some sep) : (Text.splitAt sep s).getLast? ≠ some [] := by
  induction s with
  | nil => exact absurd rfl hne
  | cons c s ih =>
      rw [Text.splitAt]
      cases s with
      | nil =>
          have hc : c ≠ sep := fun heq => hlast (by rw [heq]; rfl)
          rw [if_neg hc]
          exact fun heq => by cases heq
      | cons d s =>
          rw [List.getLast?_cons_cons] at hlast
          have hrest := ih (List.cons_ne_nil d s) hlast
          have hparts := Text.splitAt_ne_nil sep (d :: s)
          split
          · cases hp : Text.splitAt sep (d :: s) with
            | nil => exact absurd hp hparts
            | cons part parts =>
                rw [hp] at hrest
                rwa [List.getLast?_cons_cons]
          · cases hp : Text.splitAt sep (d :: s) with
            | nil => exact absurd hp hparts
            | cons part parts =>
                rw [hp] at hrest
                dsimp only
                cases parts with
                | nil => exact fun heq => by cases heq
                | cons next parts => rwa [List.getLast?_cons_cons] at hrest ⊢

/-- A path that does not end with a separator ends with a part that is not empty. -/
theorem dropWhile_reverse_parts {path : String} (hne : path.toList ≠ [])
    (hopen : endsOpen path = false) :
    (Path.parts path).reverse.dropWhile String.isEmpty = (Path.parts path).reverse := by
  have hlast : path.toList.getLast? ≠ some '/' := by simpa [endsOpen] using hopen
  cases hreverse : (Path.parts path).reverse with
  | nil => rfl
  | cons last before =>
      refine List.dropWhile_cons_of_neg fun hempty => getLast?_splitAt_ne hne hlast ?_
      have hget : (Path.parts path).getLast? = some last := by
        rw [← List.head?_reverse, hreverse]
        rfl
      rw [Path.parts, List.getLast?_map] at hget
      obtain ⟨chars, hchars, rfl⟩ := Option.map_eq_some_iff.1 hget
      rw [String.isEmpty_iff, ← String.toList_inj, String.toList_ofList] at hempty
      rw [hchars, hempty]
      rfl

theorem enter_of_isEntryName {last : String} (hdir : t.hasDirectory place = true)
    (hentry : isEntryName last = true) (hempty : last.isEmpty = false)
    (hsome : (t.get? (place ++ [last])).isSome = true) :
    t.enter place last = .ok (place ++ [last]) := by
  obtain ⟨hspoken, hname⟩ := spoken_of_isEntryName hentry hempty
  exact enter_eq_ok.2 (.down hdir hspoken hname hsome)

/-- Where a file may be moved to, its path leads once something stands there. -/
theorem locate_of_moveTarget {path : String} (h : t.moveTarget path = .ok target)
    (hsome : (t.get? target).isSome = true) : t.locate path = .ok target := by
  obtain ⟨place, last, hsplit, hentry, hopen, -, rfl⟩ := moveTarget_eq_ok.1 h
  obtain ⟨hne, before, hdrop, hfollow, hdir⟩ := split_eq_ok.1 hsplit
  have hlist : path.toList ≠ [] := by
    intro heq
    rw [String.toList_eq_nil_iff.1 heq] at hne
    cases hne
  -- No parts are empty at the end, so the last one is the name that the file is moved to.
  have hparts : Path.parts path = before.reverse ++ [last] := by
    rw [dropWhile_reverse_parts hlist hopen] at hdrop
    rw [← List.reverse_reverse (Path.parts path), hdrop, List.reverse_cons]
  have henter := enter_of_isEntryName hdir hentry (isEmpty_of_split hsplit) hsome
  unfold follow at hfollow
  rw [locate_eq_ok, hparts, List.foldlM_append, hfollow]
  refine ⟨hne, ?_⟩
  show t.enter place last >>= pure = _
  rw [henter]
  rfl

/-- A path leads to a file that holds a text. -/
structure Shows (t : FileTree) (path : String) (target : Location) (text : String) : Prop where
  locate_eq : t.locate path = .ok target
  kind_eq : t.kind? target = some (.file (.bytes (utf8 text)) 0)

theorem kind?_eq_file {content : Content} :
    t.kind? p = some (.file content 0) ↔ ∃ time, t.file? p = some (content, time) := by
  unfold kind? file?
  cases t.get? p with
  | none => simp
  | some node => cases node <;> simp [Node.withTime]

/-- A file that is kept shows what it showed. -/
theorem Shows.keeps {path text : String} (h : Shows a path target text) (hkeeps : Keeps off a b)
    (hoff : target ∉ off) : Shows b path target text := by
  refine ⟨hkeeps.locate_eq h.locate_eq, ?_⟩
  obtain ⟨time, htime⟩ := kind?_eq_file.1 h.kind_eq
  exact kind?_eq_file.2 ⟨time, (hkeeps.file_eq target hoff).trans htime⟩

theorem Shows.get?_ne_none {path text : String} (h : Shows t path target text) :
    t.get? target ≠ none := by
  intro hnone
  have hkind := h.kind_eq
  rw [kind?, hnone] at hkind
  cases hkind

theorem Shows.exists_find {path text : String} (h : Shows t path target text) :
    ∃ node, t.find path = .ok node := by
  unfold find
  rw [h.locate_eq]
  cases hget : t.get? target with
  | none => exact absurd hget h.get?_ne_none
  | some node => exact ⟨node, by simp only [bind, Except.bind, hget]; rfl⟩

/-- While the file of a path is not replaced yet, every file is as it was. There may be new
directories and one new file, of a name that the path does not end with. -/
def Unreplaced (path : String) (a b : FileTree) : Prop :=
  ∃ temporary : Option Location,
    (∀ place ∈ temporary, a.get? place = none ∧ place.getLast? ≠ some (lastPart path)) ∧
      Keeps temporary.toList a b

theorem Keeps.unreplaced (h : Keeps [] a b) (path : String) : Unreplaced path a b :=
  ⟨none, fun _ h => (Option.not_mem_none _ h).elim, h⟩

end EmbeddedBuffers.FileTree

namespace EmbeddedBuffers.Session

open FileTree

variable {P Q : FileTree → Prop} {s s' s'' : Session}

/-- Changes lead from one session to another, and all trees on the way have a property. -/
inductive Passes (P : FileTree → Prop) (s : Session) : Session → Prop
  | refl (h : P s.tree) : Passes P s s
  | step {s' : Session} {c : Change} (before : Passes P s s') (h : P (s'.tree.apply c)) :
      Passes P s (s'.perform c)

theorem Passes.last (h : Passes P s s') : P s'.tree := by
  cases h with
  | refl h => exact h
  | step _ h => exact h

theorem Passes.trans (h : Passes P s s') (h' : Passes P s' s'') : Passes P s s'' := by
  induction h' with
  | refl _ => exact h
  | step _ hlast ih => exact .step ih hlast

theorem Passes.imp (h : Passes P s s') (himp : ∀ t, P t → Q t) : Passes Q s s' := by
  induction h with
  | refl h => exact .refl (himp _ h)
  | step _ h ih => exact .step ih (himp _ h)

theorem tree_perform {t : FileTree} {c : Change} (h : s.tree = t.replay s.changes) :
    (s.perform c).tree = t.replay (s.perform c).changes := by
  simp only [perform, FileTree.replay] at h ⊢
  rw [List.foldl_append, ← h]
  rfl

/-- Whatever is done of the changes, the tree has the property, and they lead to the last tree. -/
theorem Passes.replay {t : FileTree} {failing : List (Nat × WriteFault)}
    (h : Passes P (.start t failing) s) :
    s.tree = t.replay s.changes ∧ ∀ done, done <+: s.changes → P (t.replay done) := by
  induction h with
  | refl h =>
      refine ⟨rfl, fun done hdone => ?_⟩
      rw [List.prefix_nil.1 hdone]
      exact h
  | @step s' c _ h ih =>
      obtain ⟨htree, hcuts⟩ := ih
      have hreplay := tree_perform (c := c) htree
      refine ⟨hreplay, fun done hdone => ?_⟩
      rcases List.prefix_concat_iff.1 hdone with rfl | hdone
      · exact hreplay ▸ h
      · exact hcuts done hdone

/-- Making directories touches no file. -/
theorem makeDirectories_passes {t : FileTree} (h : Keeps [] t s.tree) (levels : Nat)
    (path : String) : Passes (Keeps [] t) s (s.makeDirectories levels path).2 := by
  have hmake : ∀ {s : Session} {path : String} {place : Location}, Keeps [] t s.tree →
      s.tree.newDirectory path = .ok place →
        Passes (Keeps [] t) s (s.perform (.makeDirectory place)) := by
    intro s path place h hnew
    exact .step (.refl h) (h.trans (keeps_makeDirectory (free_of_newDirectory hnew)))
  induction levels generalizing s path with
  | zero => exact .refl h
  | succ levels ih =>
      unfold makeDirectories
      split
      · exact .refl h
      · split
        · next hnew => exact hmake h hnew
        · have habove := ih h ((Path.parent? path).getD "")
          split
          · next heq =>
            rw [heq] at habove
            exact habove
          · next above heq =>
            rw [heq] at habove
            split
            · next hnew => exact habove.trans (hmake habove.last hnew)
            · exact habove
        · exact .refl h

/-- The move of a file beside it onto a path changes the place of that path alone, and the text
stands there. Where it goes does not depend on the file beside it. -/
theorem shows_of_moveTarget {t : FileTree} {temporary target : Location} {path text : String}
    (hfree : t.get? temporary = none)
    (htarget : ((t.apply (.write temporary [])).apply
      (.write temporary (utf8 text))).moveTarget path = .ok target) :
    let moved := ((t.apply (.write temporary [])).apply (.write temporary (utf8 text))).apply
      (.rename temporary target)
    Keeps [target] t moved ∧ Shows moved path target text := by
  have hne := ne_nil_of_free hfree
  have hplain := (agreeOff_write hne hfree (utf8 text)).symm.moveTarget_eq htarget
  obtain ⟨directory, name, -, -, -, hdir, rfl⟩ := moveTarget_eq_ok.1 hplain
  have hroot : directory ++ [name] ≠ [] := by simp
  have hreplaced := replaced_rename hne hfree hroot text
  refine ⟨keeps_of_get? hreplaced.home_eq hdir hreplaced.get?_target hreplaced.get?_ne, ?_⟩
  have hmoved := (hreplaced.agreeOff hdir).moveTarget_eq hplain
  exact ⟨locate_of_moveTarget hmoved (Option.isSome_of_eq_some hreplaced.get?_target),
    kind?_eq_of_get? hreplaced.get?_target⟩

/-- **A replacement touches nothing before its last change**, and with that change the text stands
where the path leads. -/
theorem replaceFile_passes (s : Session) (path text : String) :
    (∃ p s', s.replaceFile path text = (.error p, s') ∧ Passes (Unreplaced path s.tree) s s') ∨
      ∃ s' c target, s.replaceFile path text = (.ok (), s'.perform c) ∧
        Passes (Unreplaced path s.tree) s s' ∧ Keeps [target] s.tree (s'.tree.apply c) ∧
        Shows (s'.tree.apply c) path target text := by
  have hdirectories := makeDirectories_passes (Keeps.refl [] s.tree)
    ((Path.components (Path.directory path)).length + 1) (Path.directory path)
  have hbefore := hdirectories.imp fun t ht => ht.unreplaced path
  -- The cases are the steps that may fail: the directories, the place, the text, the move.
  unfold replaceFile
  dsimp only
  split
  · next f made heq =>
    rw [heq] at hbefore
    exact Or.inl ⟨_, _, rfl, hbefore⟩
  · next made heq =>
    rw [heq] at hdirectories hbefore
    have hmade : Keeps [] s.tree made.tree := hdirectories.last
    split
    · exact Or.inl ⟨_, _, rfl, hbefore⟩
    · next place hplace =>
      obtain ⟨hname, hfree⟩ := freeName_spec made.tree place (lastPart path)
      have hlast : (place ++ [made.tree.freeName place (lastPart path)]).getLast? ≠
          some (lastPart path) := by
        rw [List.getLast?_concat]
        exact fun heq => hname (Option.some.inj heq)
      generalize place ++ [made.tree.freeName place (lastPart path)] = temporary at hfree hlast
      -- The file beside it is made, and it is given the text.
      have hopened : Keeps [temporary] made.tree (made.tree.apply (.write temporary [])) :=
        keeps_write (ne_nil_of_free hfree) (by rw [hasDirectory, hfree]) []
      have hwritten := keeps_writeTwice (t := made.tree) hfree
      have hunreplaced : ∀ {t}, Keeps [temporary] made.tree t → Unreplaced path s.tree t := by
        intro t ht
        refine ⟨some temporary, ?_, (hmade.mono (List.nil_subset _)).trans ht⟩
        rintro q hq
        cases hq
        exact ⟨hmade.get?_eq_none hfree, hlast⟩
      have hsteps : ∀ data, Passes (Unreplaced path s.tree) s
          ((made.perform (.write temporary [])).perform (.write temporary data)) := fun data =>
        .step (.step hbefore (hunreplaced hopened)) (hunreplaced (hwritten data))
      -- The file beside it is removed again when it gets no further.
      have hremoved : ∀ data, Passes (Unreplaced path s.tree) s
          (((made.perform (.write temporary [])).perform (.write temporary data)).perform
            (.remove temporary)) := fun data =>
        .step (hsteps data) ((hmade.trans ((hwritten data).remove hfree)).unreplaced path)
      unfold writeThrough
      obtain htext | ⟨fault, -, hfails⟩ :=
        writeText_cases (made.perform (.write temporary [])) temporary text
      · rw [htext]
        dsimp only
        split
        · next target htarget =>
          obtain ⟨hmoved, hshows⟩ := shows_of_moveTarget hfree htarget
          exact Or.inr ⟨_, _, target, rfl, hsteps _, (hmade.mono (List.nil_subset _)).trans hmoved,
            hshows⟩
        · exact Or.inl ⟨_, _, rfl, hremoved _⟩
      · rw [hfails]
        exact Or.inl ⟨_, _, rfl, hremoved _⟩

/-- A replacement that fails has touched nothing. -/
theorem passes_of_replaceFile_error {path text : String} {p : Problem}
    (h : s.replaceFile path text = (.error p, s')) : Passes (Unreplaced path s.tree) s s' := by
  obtain ⟨p, σ, heq, hsteps⟩ | ⟨σ, c, target, heq, -⟩ := replaceFile_passes s path text
  · rw [h] at heq
    cases heq
    exact hsteps
  · rw [h] at heq
    cases heq

/-- A replacement that succeeds has touched nothing before its last change. -/
theorem exists_of_replaceFile_ok {path text : String}
    (h : s.replaceFile path text = (.ok (), s'')) : ∃ s' c target, s'' = s'.perform c ∧
      Passes (Unreplaced path s.tree) s s' ∧ Keeps [target] s.tree s''.tree ∧
      Shows s''.tree path target text := by
  obtain ⟨p, σ, heq, -⟩ | ⟨σ, c, target, heq, hsteps, hkeeps, hshows⟩ :=
    replaceFile_passes s path text
  · rw [h] at heq
    cases heq
  · rw [h] at heq
    cases heq
    exact ⟨σ, c, target, rfl, hsteps, hkeeps, hshows⟩

end EmbeddedBuffers.Session
