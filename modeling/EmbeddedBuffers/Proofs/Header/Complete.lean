import EmbeddedBuffers.Generation.Freshness
import EmbeddedBuffers.Proofs.Header.Body

/-!
# Headers that are complete

A header records the fingerprint that it was made with where the name of its source is one line,
and no line of it is the mark of an incomplete one: only comments and namespaces hold slashes, and
their lines begin in another way. Main statements: `recordedFingerprint?_render` and `isIncomplete_render`.
-/

namespace EmbeddedBuffers

namespace Text

theorem dropEndWhile_isPrefix (p : Char → Bool) (s : List Char) : dropEndWhile p s <+: s := by
  rw [dropEndWhile, ← List.reverse_suffix, List.reverse_reverse]
  exact List.dropWhile_suffix p

/-- What is left of a text without the blanks at its ends is in front of it, the blanks there
apart. -/
theorem trim_isPrefix_of_blanks {blanks s : List Char} {c : Char}
    (hblanks : ∀ c ∈ blanks, isBlank c = true) (hc : isBlank c = false) :
    trim (blanks ++ c :: s) <+: c :: s := by
  have hstart : trimStart (blanks ++ c :: s) = c :: s := by
    rw [trimStart, List.dropWhile_append_of_pos hblanks, List.dropWhile_cons_of_neg (by simp [hc])]
  rw [trim, trimEnd, hstart]
  exact dropEndWhile_isPrefix isBlank _

theorem trim_subset (s : List Char) : trim s ⊆ s := by
  intro c hc
  exact (List.dropWhile_sublist isBlank).subset ((dropEndWhile_isPrefix isBlank _).subset hc)

end Text

namespace Header

/-- A line of a text of lines is out of one of them, and a beginning of it where that one holds no
line feed. -/
theorem exists_of_mem_lines {l : List String} {line : List Char}
    (h : line ∈ Text.lines (unlines l)) :
    ∃ s ∈ l, line ⊆ s.toList ∧ ('\n' ∉ s.toList → line <+: s.toList) := by
  induction l with
  | nil => exact absurd h List.not_mem_nil
  | cons s l ih =>
      rw [unlines_cons] at h
      have hcases : (line ⊆ s.toList ∧ ('\n' ∉ s.toList → line <+: s.toList)) ∨
          line ∈ Text.lines (unlines l) := by
        by_cases hfeed : '\n' ∈ s.toList
        · obtain ⟨first, others, hlines, hfirst, hothers⟩ :=
            Text.linesFrom_append_lineFeed [] s.toList (unlines l)
          rw [Text.lines, hlines, List.mem_append, List.mem_cons] at h
          rcases h with (rfl | h) | h
          · exact Or.inl ⟨hfirst.subset, fun hno => absurd hfeed hno⟩
          · exact Or.inl ⟨hothers line h, fun hno => absurd hfeed hno⟩
          · exact Or.inr h
        · rw [Text.lines, Text.linesFrom_append hfeed, Text.linesFrom, if_pos rfl, List.append_nil,
            List.mem_cons] at h
          rcases h with rfl | h
          · have hbegin := Text.endLine_isPrefix s.toList.reverse
            rw [List.reverse_reverse] at hbegin
            exact Or.inl ⟨hbegin.subset, fun _ => hbegin⟩
          · exact Or.inr h
      rcases hcases with hline | h
      · exact ⟨s, List.mem_cons_self, hline⟩
      · obtain ⟨s', hs', hline⟩ := ih h
        exact ⟨s', List.mem_cons_of_mem _ hs', hline⟩

/-- The types and the symbols of a header hold no slash. The namespaces may, as a line begins with
the word before them. -/
structure Entry.Slashless (e : Entry) : Prop where
  typeName : '/' ∉ e.declaration.typeName.toList
  symbol : '/' ∉ e.declaration.symbol.toList
  scope : ∀ name ∈ e.declaration.scope, '\n' ∉ name.toList

/-- A line that cannot be taken for the mark, as it holds no slash or begins in another way. -/
def Harmless (s : String) : Prop :=
  '/' ∉ s.toList ∨ ∃ blanks c rest, s.toList = blanks ++ c :: rest ∧
    (∀ b ∈ blanks, Text.isBlank b = true) ∧ Text.isBlank c = false ∧
    ¬ incompleteMark.toList <+: c :: rest ∧ '\n' ∉ s.toList

theorem trim_ne_of_harmless {s : String} (h : Harmless s) {line : List Char}
    (hsub : line ⊆ s.toList) (hbegin : '\n' ∉ s.toList → line <+: s.toList) :
    Text.trim line ≠ incompleteMark.toList := by
  have hslash : '/' ∈ incompleteMark.toList := by decide
  intro heq
  have hmem : '/' ∈ line := Text.trim_subset line (heq ▸ hslash)
  rcases h with hno | ⟨blanks, c, rest, hs, hblanks, hc, hmark, hfeed⟩
  · exact hno (hsub hmem)
  · obtain ⟨tail, htail⟩ := hbegin hfeed
    rw [hs] at htail
    have hall : ∀ {l : List Char}, l ⊆ blanks → '/' ∉ l := by
      intro l hl hmem
      exact absurd (hblanks _ (hl hmem)) (by decide)
    rcases List.append_eq_append_iff.1 htail with ⟨more, hblank, -⟩ | ⟨more, rfl, hmore⟩
    · exact hall (hblank ▸ List.subset_append_left _ _) hmem
    · cases more with
      | nil => exact hall (by rw [List.append_nil]; exact fun _ h => h) hmem
      | cons c' more =>
          obtain ⟨rfl, rfl⟩ := List.cons.inj hmore
          have htrim := Text.trim_isPrefix_of_blanks (s := more) hblanks hc
          rw [heq] at htrim
          exact hmark (htrim.trans ⟨tail, rfl⟩)

theorem harmless_of_schemeLine {margin : String} (hmargin : ∀ b ∈ margin.toList, Text.isBlank b = true)
    (hfeed : '\n' ∉ margin.toList) (e : Codec.Encoded) : Harmless (margin ++ schemeLine e) := by
  have hmark : incompleteMark.toList = '/' :: '/' :: ' ' :: 'b' ::
    "ufproc: INCOMPLETE OUTPUT, regenerate".toList := rfl
  obtain ⟨c, rest, heq, hc, -⟩ := Entry.toList_schemeLine e
  refine Or.inr ⟨margin.toList, '/', '/' :: ' ' :: c :: rest, ?_, hmargin, by decide, ?_, ?_⟩
  · rw [String.toList_append, heq]
  · rw [hmark]
    rintro ⟨tail, htail⟩
    simp only [List.cons_append, List.cons.injEq] at htail
    exact hc htail.2.2.2.1.symm
  · rw [String.toList_append, List.mem_append, not_or]
    exact ⟨hfeed, Entry.no_break_schemeLine e _ (by decide)⟩

theorem harmless_lines {e : Entry} (h : e.Slashless) {margin : String}
    (hmargin : ∀ b ∈ margin.toList, Text.isBlank b = true) (hfeed : '\n' ∉ margin.toList)
    {maxValues : Nat} : ∀ s ∈ e.lines maxValues, Harmless (margin ++ s) := by
  have hslash : '/' ∉ margin.toList := fun hmem => absurd (hmargin _ hmem) (by decide)
  have hsize : '/' ∉ e.declaration.sizeSymbol.toList :=
    not_mem_concat.2 ⟨h.symbol, by decide⟩
  have htexts : ∀ s ∈ e.texts, '/' ∉ s.toList := fun s hs =>
    e.separators_texts s hs _ (by decide)
  intro s hs
  rw [Entry.lines_eq, List.mem_append, List.mem_cons] at hs
  rcases hs with hs | rfl | hs
  · unfold Entry.comment at hs
    split at hs
    · exact absurd hs List.not_mem_nil
    · rw [List.mem_singleton.1 hs]
      exact harmless_of_schemeLine hmargin hfeed _
  · refine Or.inl (not_mem_concat.2 ⟨hslash, ?_⟩)
    simp only [not_mem_concat]
    exact ⟨⟨⟨⟨by decide, hsize⟩, by decide⟩, (plain_toString _).no_slash⟩, by decide⟩
  · refine Or.inl (not_mem_concat.2 ⟨hslash, not_mem_arrayLines (by decide) ?_ htexts s hs⟩)
    simp only [not_mem_concat]
    exact ⟨⟨⟨⟨⟨⟨by decide, h.typeName⟩, by decide⟩, h.symbol⟩, by decide⟩, hsize⟩, by decide⟩

/-- A group holds entries of the header, under the namespace of one of them. -/
theorem slashless_groups {entries : List Entry} (h : ∀ e ∈ entries, e.Slashless) :
    ∀ g ∈ groups entries, (∀ name ∈ g.1, '\n' ∉ name.toList) ∧ ∀ e ∈ g.2, e.Slashless := by
  intro g hg
  obtain ⟨⟨e, he, hscope⟩, hentries⟩ := exists_of_mem_groups hg
  exact ⟨hscope ▸ (h e he).scope, fun e' he' => h e' (hentries he')⟩

/-- The line of a namespace is not the mark, whatever its name. -/
theorem harmless_namespace {name : String} (h : '\n' ∉ name.toList) :
    Harmless ("namespace " ++ name) := by
  have hmark : incompleteMark.toList = '/' :: "/ bufproc: INCOMPLETE OUTPUT, regenerate".toList := rfl
  refine Or.inr ⟨[], 'n', "amespace ".toList ++ name.toList, String.toList_append,
    fun _ h => absurd h List.not_mem_nil, by decide, ?_, not_mem_concat.2 ⟨by decide, h⟩⟩
  rw [hmark]
  rintro ⟨tail, htail⟩
  exact absurd (List.cons.inj htail).1 (by decide)

theorem harmless_groupLines {maxValues : Nat} {g : List String × List Entry}
    (hscope : ∀ name ∈ g.1, '\n' ∉ name.toList) (h : ∀ e ∈ g.2, e.Slashless) :
    ∀ s ∈ groupLines maxValues g, Harmless s := by
  intro s hs
  unfold groupLines at hs
  rcases List.mem_append.1 hs with hs | hs
  · rcases List.mem_append.1 hs with hs | hs
    · rcases List.mem_cons.1 hs with rfl | hs
      · exact Or.inl (by decide)
      · obtain ⟨name, hname, hs⟩ := List.mem_flatMap.1 hs
        rcases List.mem_cons.1 hs with rfl | hs
        · exact harmless_namespace (hscope name hname)
        · rw [List.mem_singleton.1 hs]
          exact Or.inl (by decide)
    · obtain ⟨line, hline, rfl⟩ := List.mem_map.1 hs
      obtain ⟨e, he, hline⟩ := List.mem_flatMap.1 hline
      refine harmless_lines (h e he) ?_ ?_ line hline
      · split <;> decide
      · split <;> decide
  · obtain ⟨_, -, rfl⟩ := List.mem_map.1 hs
    exact Or.inl (by decide)

theorem harmless_lowerLines {maxValues : Nat} {entries : List Entry}
    (h : ∀ e ∈ entries, e.Slashless) : ∀ s ∈ lowerLines maxValues entries, Harmless s := by
  have hfixed : ∀ s ∈ ["#pragma once", "", "#include <cstddef>", "#include <cstdint>",
      "#include <limits>"], '/' ∉ s.toList := by decide
  intro s hs
  unfold lowerLines at hs
  rcases List.mem_append.1 hs with hs | hs
  · refine Or.inl (hfixed s ?_)
    rcases List.mem_append.1 hs with hs | hs
    · exact List.mem_append_left ["#include <limits>"] hs
    · split at hs
      · exact List.mem_append_right ["#pragma once", "", "#include <cstddef>", "#include <cstdint>"] hs
      · exact absurd hs List.not_mem_nil
  · obtain ⟨g, hg, hs⟩ := List.mem_flatMap.1 hs
    obtain ⟨hscope, hentries⟩ := slashless_groups h g hg
    exact harmless_groupLines hscope hentries s hs

/-! ## Reading the header again -/

theorem lines_render {maxValues fingerprint : Nat} {sourceName text : String}
    {entries : List Entry} (hname : '\n' ∉ sourceName.toList)
    (h : render maxValues sourceName fingerprint entries = .ok text) :
    Text.lines text.toList = (namePhrase ++ (sourceName.toList ++ ", do not edit".toList)) ::
      (fingerprintMark.toList ++ (Text.hexFixed 16 fingerprint).toList) ::
        Text.lines (unlines (lowerLines maxValues entries)) := by
  rw [toList_render h, Text.lines_line ?_ ?_, lines_marked]
  · rw [List.mem_append, List.mem_append, not_or, not_or]
    exact ⟨by decide, hname, by decide⟩
  · rw [List.getLast?_append, List.getLast?_append]
    exact fun h => absurd (Option.some.inj h) (by decide)

/-- A comment that has another character somewhere is not the mark. -/
theorem trim_ne_of_getElem? {s : List Char} {i : Nat} (hi : i < incompleteMark.toList.length)
    (hhead : s.head? = some '/') (hne : s[i]? ≠ incompleteMark.toList[i]?) :
    Text.trim s ≠ incompleteMark.toList := by
  cases s with
  | nil => cases hhead
  | cons c s =>
      cases hhead
      intro heq
      have htrim : Text.trim ([] ++ '/' :: s) <+: '/' :: s :=
        Text.trim_isPrefix_of_blanks (fun _ h => absurd h List.not_mem_nil) (by decide)
      obtain ⟨tail, htail⟩ := htrim
      rw [List.nil_append, heq] at htail
      rw [← htail, List.getElem?_append_left hi] at hne
      exact hne rfl

/-- **A header that was made is complete.** -/
theorem isIncomplete_render {maxValues fingerprint : Nat} {sourceName text : String}
    {entries : List Entry} (hname : '\n' ∉ sourceName.toList)
    (hentries : ∀ e ∈ entries, e.Slashless)
    (h : render maxValues sourceName fingerprint entries = .ok text) :
    isIncomplete text = false := by
  unfold isIncomplete
  rw [lines_render hname h, List.any_eq_false]
  intro line hline
  rw [List.mem_cons, List.mem_cons] at hline
  rw [beq_iff_eq]
  rcases hline with rfl | rfl | hline
  · exact trim_ne_of_getElem? (i := 3) (by decide) (by rfl) (by rw [List.getElem?_append_left] <;> decide)
  · exact trim_ne_of_getElem? (i := 10) (by decide) (by rfl) (by rw [List.getElem?_append_left] <;> decide)
  · obtain ⟨s, hs, hsub, hbegin⟩ := exists_of_mem_lines hline
    exact trim_ne_of_harmless (harmless_lowerLines hentries s hs) hsub hbegin

theorem strip?_namePhrase (s : List Char) :
    Text.strip? fingerprintMark.toList (namePhrase ++ s) = none := rfl

/-- **A header that was made records its fingerprint.** -/
theorem recordedFingerprint?_render {maxValues fingerprint : Nat} {sourceName text : String}
    {entries : List Entry} (hname : '\n' ∉ sourceName.toList) (hlt : fingerprint < 2 ^ 64)
    (h : render maxValues sourceName fingerprint entries = .ok text) :
    recordedFingerprint? text.toList = some fingerprint := by
  unfold recordedFingerprint?
  rw [lines_render hname h, List.take_succ_cons, List.take_succ_cons, List.findSome?_cons,
    strip?_namePhrase, List.findSome?_cons, Text.strip?_append]
  exact Text.unsigned?_trim_hexFixed hlt

end Header

/-- A header that is complete, records the fingerprint and is newer than all that was read is
fresh. -/
theorem FileTree.freshness_eq_fresh {t : FileTree} {tools dependencies : List String}
    {output source header : String} {fingerprint : Nat} {node : Node}
    (hfind : t.find output = .ok node) (htext : t.readText output = .ok header)
    (hcomplete : isIncomplete header = false)
    (hrecorded : Header.recordedFingerprint? header.toList = some fingerprint)
    (hinputs : t.staleInput? node.time (source :: dependencies) = none)
    (htools : t.staleTool? node.time tools = none) :
    t.freshness tools output source dependencies fingerprint = .ok .fresh := by
  unfold freshness
  rw [hfind, htext]
  dsimp only
  rw [hcomplete, if_neg Bool.false_ne_true, if_neg (not_not_intro hrecorded), hinputs, htools]
  rfl

end EmbeddedBuffers
