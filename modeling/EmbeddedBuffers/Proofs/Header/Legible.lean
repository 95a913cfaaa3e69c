import EmbeddedBuffers.Proofs.Header.Complete
import EmbeddedBuffers.Proofs.Header.Layout

/-!
# Headers read back

A header of scanned declarations can be read back without loss. Empty lines cut it into paragraphs:
what it is, what it includes, and one for every namespace, which is opened and closed around its
buffers. Main statement: `render_legible`.
-/

namespace EmbeddedBuffers

namespace Text

/-- Lines without line ends in them are read back. -/
theorem lines_unlines {lines : List String} (h : ∀ s ∈ lines, ∀ c ∈ ['\n', '\r'], c ∉ s.toList) :
    Text.lines (Header.unlines lines) = lines.map String.toList := by
  induction lines with
  | nil => rfl
  | cons s lines ih =>
      obtain ⟨hs, h⟩ := List.forall_mem_cons.1 h
      rw [Header.unlines_cons, lines_line (hs _ (by decide)), ih h, List.map_cons]
      exact fun hlast => hs '\r' (by decide) (List.mem_of_getLast? hlast)

end Text

namespace Header

/-- What a header holds for a reader. -/
structure Contents where
  fingerprint : Nat
  /-- Whether `<limits>` is included. -/
  limits : Bool
  groups : List (List String × List Shown)
deriving DecidableEq, Repr

namespace Layout

/-! ## The reader -/

/-- The namespaces that some lines open, and the lines behind. -/
def openings : List (List Char) → List String × List (List Char)
  | line :: brace :: rest =>
    match Text.strip? "namespace ".toList line with
    | some name =>
      if brace = ['\x7b'] then (String.ofList name :: (openings rest).1, (openings rest).2)
      else ([], line :: brace :: rest)
    | none => ([], line :: brace :: rest)
  | lines => ([], lines)

/-- The lines before those that close some namespaces. -/
def beforeClosings? (count : Nat) (lines : List (List Char)) : Option (List (List Char)) :=
  if lines.drop (lines.length - count) = List.replicate count ['\x7d'] then
    some (lines.take (lines.length - count))
  else none

/-- A namespace with its buffers. -/
def readGroup (lines : List (List Char)) : Option (List String × List Shown) := do
  let (scope, inner) := openings lines
  let body ← beforeClosings? scope.length inner
  let body ← body.mapM (Text.strip? (if scope.isEmpty then "" else indent).toList)
  let buffers ← readFrom .outside body
  return (scope, buffers)

/-- The contents of a header. -/
def read? (header : List Char) : Option Contents :=
  match (Text.lines header).splitOn [] with
  | _ :: includes :: namespaces => do
    let fingerprint ← recordedFingerprint? header
    let groups ← namespaces.mapM readGroup
    return ⟨fingerprint, includes.contains "#include <limits>".toList, groups⟩
  | _ => none

/-! ## Paragraphs -/

theorem splitOn_flatMap {first : List (List Char)} {others : List (List (List Char))}
    (hfirst : [] ∉ first) (h : ∀ p ∈ others, [] ∉ p) :
    (first ++ others.flatMap ([] :: ·)).splitOn [] = first :: others := by
  induction others generalizing first with
  | nil => rw [List.flatMap_nil, List.append_nil, List.splitOn_eq_singleton hfirst]
  | cons p others ih =>
      obtain ⟨hp, h⟩ := List.forall_mem_cons.1 h
      rw [List.flatMap_cons, List.cons_append,
        List.splitOn_append_cons_self_of_not_mem hfirst, ih hp h]

/-- The lines of a namespace below the empty one. -/
def paragraph (maxValues : Nat) (group : List String × List Entry) : List String :=
  group.1.flatMap (fun name => ["namespace " ++ name, "\x7b"]) ++
    (group.2.flatMap (Entry.lines maxValues)).map ((if group.1.isEmpty then "" else indent) ++ ·) ++
    group.1.map fun _ => "\x7d"

theorem groupLines_eq (maxValues : Nat) (group : List String × List Entry) :
    groupLines maxValues group = "" :: paragraph maxValues group := by
  unfold groupLines paragraph
  simp only [List.cons_append, List.nil_append]

/-! ## Namespaces -/

variable {maxValues : Nat} {scope : List String} {es : List Entry}

theorem openings_append (scope : List String) (rest : List (List Char)) :
    openings ((scope.flatMap fun name => ["namespace " ++ name, "\x7b"]).map String.toList ++ rest) =
      (scope ++ (openings rest).1, (openings rest).2) := by
  induction scope with
  | nil => rfl
  | cons name scope ih =>
      have hbrace : "\x7b".toList = ['\x7b'] := rfl
      rw [List.flatMap_cons, List.map_append, List.append_assoc, List.map_cons, List.map_singleton,
        List.cons_append, List.singleton_append, openings, String.toList_append,
        Text.strip?_append]
      dsimp only
      rw [if_pos hbrace, ih, String.ofList_toList]
      rfl

theorem openings_of_ne {lines : List (List Char)} (h : ∀ line ∈ lines.head?, line.head? ≠ some 'n') :
    openings lines = ([], lines) := by
  have hnone : ∀ {line : List Char}, line.head? ≠ some 'n' →
      Text.strip? "namespace ".toList line = none := by
    intro line hline
    cases hstrip : Text.strip? "namespace ".toList line with
    | none => rfl
    | some rest =>
        rw [Text.strip?_eq_some hstrip] at hline
        exact absurd rfl hline
  unfold openings
  split
  · next line brace rest =>
    rw [hnone (h line rfl)]
  · rfl

theorem beforeClosings?_append (lines : List (List Char)) (scope : List String) :
    beforeClosings? scope.length (lines ++ (scope.map fun _ => "\x7d").map String.toList) =
      some lines := by
  have hclosings : (scope.map fun _ => "\x7d").map String.toList =
      List.replicate scope.length ['\x7d'] := by
    rw [List.map_const', List.map_replicate]
    rfl
  rw [hclosings, beforeClosings?, List.length_append, List.length_replicate, Nat.add_sub_cancel,
    List.drop_left, if_pos rfl, List.take_left]

theorem mapM_strip? (margin : String) (lines : List String) :
    ((lines.map (margin ++ ·)).map String.toList).mapM (Text.strip? margin.toList) =
      some (lines.map String.toList) := by
  rw [List.map_map]
  refine mapM_map_eq_pure fun line _ => ?_
  rw [Function.comp_apply, String.toList_append, Text.strip?_append]
  rfl

/-- No buffer starts like a namespace. -/
theorem exists_lines (e : Entry) (maxValues : Nat) : ∃ c rest more,
    (e.lines maxValues).map String.toList = (c :: rest) :: more ∧ c ≠ 'n' := by
  rw [Entry.lines_eq]
  unfold Entry.comment
  cases e.payload with
  | raw _ =>
      rw [List.nil_append, List.map_cons, toList_sizeLine]
      exact ⟨'c', _, _, rfl, by decide⟩
  | encoded encoded =>
      obtain ⟨c, rest, hline, -⟩ := Entry.toList_schemeLine encoded
      rw [List.map_append, List.map_singleton, List.singleton_append, hline]
      exact ⟨'/', _, _, rfl, by decide⟩

/-- What stands in a namespace does not look like another namespace: a buffer, an indented one or a
closing brace. -/
theorem head?_margin_ne (scope : List String) (es : List Entry) :
    ∀ line ∈ (((es.flatMap (Entry.lines maxValues)).map
        ((if scope.isEmpty then "" else indent) ++ ·)).map String.toList ++
          (scope.map fun _ => "\x7d").map String.toList).head?, line.head? ≠ some 'n' := by
  cases es with
  | nil =>
      cases scope with
      | nil => exact fun line hline => by cases hline
      | cons name scope =>
          intro line hline
          cases hline
          show "\x7d".toList.head? ≠ some 'n'
          decide
  | cons e es =>
      obtain ⟨c, rest, more, hlines, hc⟩ := exists_lines e maxValues
      cases hfirst : e.lines maxValues with
      | nil =>
          rw [hfirst] at hlines
          cases hlines
      | cons first others =>
          rw [hfirst, List.map_cons] at hlines
          intro line hline
          rw [List.flatMap_cons, hfirst] at hline
          cases hline
          rw [String.toList_append, (List.cons.inj hlines).1]
          split
          · exact fun heq => hc (Option.some.inj heq)
          · exact fun heq => by cases heq

/-- **The lines of a namespace are read back as its buffers.** -/
theorem readGroup_paragraph (hpos : 0 < maxValues)
    (h : ∀ e ∈ es, e.declaration.Spelled ∧ e.payload.bytes ≠ []) :
    readGroup ((paragraph maxValues (scope, es)).map String.toList) =
      some (scope, es.map (shown maxValues)) := by
  have hopen : openings ((paragraph maxValues (scope, es)).map String.toList) =
      (scope, ((es.flatMap (Entry.lines maxValues)).map
        ((if scope.isEmpty then "" else indent) ++ ·)).map String.toList ++
          (scope.map fun _ => "\x7d").map String.toList) := by
    unfold paragraph
    rw [List.map_append, List.map_append, List.append_assoc, openings_append,
      openings_of_ne (head?_margin_ne scope es), List.append_nil]
  unfold readGroup
  rw [hopen]
  simp only [Option.bind_eq_bind, beforeClosings?_append, Option.bind_some, mapM_strip?,
    readFrom_flatMap_lines hpos h, Option.pure_def]

/-! ## Lines that are one -/

/-- A text that ends no line. -/
def Unbroken (s : String) : Prop := ∀ c ∈ ['\n', '\r'], c ∉ s.toList

instance (s : String) : Decidable (Unbroken s) := inferInstanceAs (Decidable (∀ c ∈ _, _))

/-- A line that is not empty. -/
structure Line (s : String) : Prop where
  ne_nil : s.toList ≠ []
  unbroken : Unbroken s

theorem unbroken_append {a b : String} : Unbroken (a ++ b) ↔ Unbroken a ∧ Unbroken b := by
  unfold Unbroken
  simp only [not_mem_concat, forall_and]

theorem unbroken_of_isNameChar {s : String} (h : ∀ c ∈ s.toList, Text.isNameChar c = true) :
    Unbroken s := by
  have hall : ∀ c ∈ ['\n', '\r'], Text.isNameChar c = false := by decide
  exact fun c hc => ne_of_isNameChar (hall c hc) h

theorem unbroken_toString (n : Nat) : Unbroken (toString n) := by
  have hall : ∀ c ∈ ['\n', '\r'], c ∈ separators := by decide
  exact fun c hc => (plain_toString n).separators c (hall c hc)

theorem Line.append {a b : String} (ha : Line a) (hb : Unbroken b) : Line (a ++ b) := by
  refine ⟨?_, unbroken_append.2 ⟨ha.unbroken, hb⟩⟩
  rw [String.toList_append]
  exact List.append_ne_nil_of_left_ne_nil ha.ne_nil _

theorem exists_of_mem_commaLines {lines : List String} {s : String} (h : s ∈ commaLines lines) :
    ∃ line ∈ lines, s = line ∨ s = line ++ "," := by
  fun_induction commaLines lines with
  | case1 => cases h
  | case2 line => exact ⟨line, List.mem_cons_self, Or.inl (List.mem_singleton.1 h)⟩
  | case3 line next rest ih =>
      rcases List.mem_cons.1 h with rfl | h
      · exact ⟨line, List.mem_cons_self, Or.inr rfl⟩
      · obtain ⟨line', hline, hs⟩ := ih h
        exact ⟨line', List.mem_cons_of_mem _ hline, hs⟩

/-- The lines of an array are lines where its head and its literals are. -/
theorem line_of_mem_arrayLines {head : String} {texts : List String} (hhead : Line head)
    (htexts : ∀ s ∈ texts, Unbroken s) : ∀ s ∈ arrayLines maxValues head texts, Line s := by
  have hmarks : ∀ c ∈ ['\n', '\r'], c ∉ ", \x7b\x7d;".toList := by decide
  have hbrace : Line "\x7b" ∧ Line "\x7d;" := ⟨⟨by decide, by decide⟩, ⟨by decide, by decide⟩⟩
  intro s hs
  have hunbroken : Unbroken s := fun c hc => not_mem_arrayLines (hmarks c hc)
    (hhead.unbroken c hc) (fun s hs => htexts s hs c hc) s hs
  refine ⟨?_, hunbroken⟩
  unfold arrayLines at hs
  split at hs
  · rw [List.mem_singleton.1 hs, String.toList_append, String.toList_append, String.toList_append,
      List.append_assoc, List.append_assoc]
    exact List.append_ne_nil_of_left_ne_nil hhead.ne_nil _
  · rcases List.mem_append.1 hs with hs | hs
    · rcases List.mem_append.1 hs with hs | hs
      · rcases List.mem_cons.1 hs with rfl | hs
        · exact hhead.ne_nil
        · rw [List.mem_singleton.1 hs]
          exact hbrace.1.ne_nil
      · obtain ⟨line, hline, hs⟩ := exists_of_mem_commaLines hs
        obtain ⟨row, -, rfl⟩ := List.mem_map.1 hline
        have hindent : indent.toList ≠ [] := by decide
        rcases hs with rfl | rfl <;>
          simp only [String.toList_append, List.append_assoc] <;>
          exact List.append_ne_nil_of_left_ne_nil hindent _
    · rw [List.mem_singleton.1 hs]
      exact hbrace.2.ne_nil

theorem line_of_mem_lines {e : Entry} (h : e.declaration.Spelled) :
    ∀ s ∈ e.lines maxValues, Line s := by
  have hseparators : ∀ c ∈ ['\n', '\r'], c ∈ separators ∧ c ∈ ['[', '\n', '\r'] := by decide
  have hsize := unbroken_of_isNameChar h.sizeSymbol
  have hlead : Line "constexpr " ∧ Line "constexpr std::size_t " :=
    ⟨⟨by decide, by decide⟩, ⟨by decide, by decide⟩⟩
  intro s hs
  rw [Entry.lines_eq, List.mem_append, List.mem_cons] at hs
  rcases hs with hs | rfl | hs
  · unfold Entry.comment at hs
    split at hs
    · cases hs
    · next encoded _ =>
      rw [List.mem_singleton.1 hs]
      obtain ⟨c, rest, hline, -⟩ := Entry.toList_schemeLine encoded
      exact ⟨by rw [hline]; exact List.cons_ne_nil _ _, Entry.no_break_schemeLine encoded⟩
  · exact (((hlead.2.append hsize).append (by decide)).append (unbroken_toString _)).append
      (by decide)
  · refine line_of_mem_arrayLines ?_ (fun s hs c hc =>
      e.separators_texts s hs c (hseparators c hc).1) s hs
    have htype : Unbroken e.declaration.typeName :=
      fun c hc => h.not_mem_typeName c (hseparators c hc).2
    exact (((((hlead.1.append htype).append (by decide)).append
      (unbroken_of_isNameChar h.symbol)).append (by decide)).append hsize).append (by decide)

theorem line_of_mem_paragraph (hscope : ∀ name ∈ scope, Unbroken name)
    (h : ∀ e ∈ es, e.declaration.Spelled) : ∀ s ∈ paragraph maxValues (scope, es), Line s := by
  have hfixed : Line "namespace " ∧ Line "\x7b" ∧ Line "\x7d" :=
    ⟨⟨by decide, by decide⟩, ⟨by decide, by decide⟩, ⟨by decide, by decide⟩⟩
  intro s hs
  unfold paragraph at hs
  rcases List.mem_append.1 hs with hs | hs
  · rcases List.mem_append.1 hs with hs | hs
    · obtain ⟨name, hname, hs⟩ := List.mem_flatMap.1 hs
      rcases List.mem_cons.1 hs with rfl | hs
      · exact hfixed.1.append (hscope name hname)
      · rw [List.mem_singleton.1 hs]
        exact hfixed.2.1
    · obtain ⟨line, hline, rfl⟩ := List.mem_map.1 hs
      obtain ⟨e, he, hline⟩ := List.mem_flatMap.1 hline
      have hline := line_of_mem_lines (h e he) line hline
      refine ⟨?_, unbroken_append.2 ⟨?_, hline.unbroken⟩⟩
      · rw [String.toList_append]
        exact List.append_ne_nil_of_right_ne_nil _ hline.ne_nil
      · dsimp only
        split <;> decide
  · obtain ⟨_, -, rfl⟩ := List.mem_map.1 hs
    exact hfixed.2.2

/-! ## The whole header -/

/-- The paragraph of what a header includes. -/
def includes (limits : Bool) : List String :=
  ["#include <cstddef>", "#include <cstdint>"] ++ if limits then ["#include <limits>"] else []

theorem lowerLines_eq (maxValues : Nat) (entries : List Entry) :
    lowerLines maxValues entries = "#pragma once" ::
      (includes (entries.any Entry.needsLimits) ::
        (groups entries).map (paragraph (max 1 maxValues))).flatMap ("" :: ·) := by
  have hgroups : (groups entries).flatMap (groupLines (max 1 maxValues)) =
      ((groups entries).map (paragraph (max 1 maxValues))).flatMap ("" :: ·) := by
    rw [List.flatMap_map, funext (groupLines_eq (max 1 maxValues))]
  rw [lowerLines, hgroups, List.flatMap_cons, includes]
  simp only [List.cons_append, List.nil_append]

/-- The paragraphs below the first hold lines. -/
theorem line_of_mem_paragraphs {entries : List Entry} (maxValues : Nat)
    (h : ∀ e ∈ entries, e.declaration.Spelled) :
    ∀ p ∈ includes (entries.any Entry.needsLimits) ::
      (groups entries).map (paragraph maxValues), ∀ s ∈ p, Line s := by
  have hincludes : ∀ limits, ∀ s ∈ includes limits, s.toList ≠ [] ∧ Unbroken s := by decide
  intro p hp
  rcases List.mem_cons.1 hp with rfl | hp
  · exact fun s hs => ⟨(hincludes _ s hs).1, (hincludes _ s hs).2⟩
  · obtain ⟨g, hg, rfl⟩ := List.mem_map.1 hp
    obtain ⟨⟨e, he, hscope⟩, hentries⟩ := exists_of_mem_groups hg
    refine line_of_mem_paragraph (fun name hname c hc hmem => ?_) fun e he => h e (hentries he)
    have hblank := (h e he).scope name (hscope ▸ hname) c hmem
    have hall : ∀ c ∈ ['\n', '\r'], Text.isBlank c = true := by decide
    rw [hall c hc] at hblank
    cases hblank

/-- A header is its first three lines and its paragraphs. -/
theorem splitOn_lines_render {fingerprint : Nat} {sourceName text : String} {entries : List Entry}
    (hname : '\n' ∉ sourceName.toList) (h : ∀ e ∈ entries, e.declaration.Spelled)
    (hrender : render maxValues sourceName fingerprint entries = .ok text) :
    ∃ first, (Text.lines text.toList).splitOn [] =
      first :: (includes (entries.any Entry.needsLimits) ::
        (groups entries).map (paragraph (max 1 maxValues))).map (·.map String.toList) := by
  have hlines := line_of_mem_paragraphs (max 1 maxValues) h
  generalize hparagraphs : includes (entries.any Entry.needsLimits) ::
    (groups entries).map (paragraph (max 1 maxValues)) = paragraphs at hlines
  have hlower := lowerLines_eq maxValues entries
  rw [hparagraphs] at hlower
  have hunbroken : ∀ s ∈ lowerLines maxValues entries, ∀ c ∈ ['\n', '\r'], c ∉ s.toList := by
    have hfixed : Unbroken "#pragma once" ∧ Unbroken "" := by decide
    rw [hlower]
    intro s hs
    rcases List.mem_cons.1 hs with rfl | hs
    · exact hfixed.1
    · obtain ⟨p, hp, hs⟩ := List.mem_flatMap.1 hs
      rcases List.mem_cons.1 hs with rfl | hs
      · exact hfixed.2
      · exact (hlines p hp s hs).unbroken
  -- The empty lines between paragraphs are the only ones, so the header is cut at just these.
  have hflat : (paragraphs.flatMap ("" :: ·)).map String.toList =
      (paragraphs.map (·.map String.toList)).flatMap ([] :: ·) := by
    rw [List.map_flatMap, List.flatMap_map]
    rfl
  rw [lines_render hname hrender, Text.lines_unlines hunbroken, hlower, List.map_cons, hflat]
  refine ⟨_, @splitOn_flatMap [_, _, _] _ ?_ ?_⟩
  · have hmark : fingerprintMark.toList ≠ [] ∧ namePhrase ≠ [] ∧ "#pragma once".toList ≠ [] := by
      decide
    simp only [List.mem_cons, List.not_mem_nil, or_false, not_or]
    exact ⟨(List.append_ne_nil_of_left_ne_nil hmark.2.1 _).symm,
      (List.append_ne_nil_of_left_ne_nil hmark.1 _).symm, hmark.2.2.symm⟩
  · intro p hp hmem
    obtain ⟨lines, hin, rfl⟩ := List.mem_map.1 hp
    obtain ⟨s, hs, heq⟩ := List.mem_map.1 hmem
    exact (hlines lines hin s hs).ne_nil heq

theorem mapM_readGroup (hpos : 0 < maxValues) (gs : List (List String × List Entry))
    (h : ∀ g ∈ gs, ∀ e ∈ g.2, e.declaration.Spelled ∧ e.payload.bytes ≠ []) :
    ((gs.map (paragraph maxValues)).map (·.map String.toList)).mapM readGroup =
      some (gs.map fun g => (g.1, g.2.map (shown maxValues))) := by
  rw [List.map_map]
  exact mapM_map_eq_pure fun g hg => readGroup_paragraph hpos (h g hg)

theorem contains_includes (limits : Bool) :
    ((includes limits).map String.toList).contains "#include <limits>".toList = limits := by
  cases limits <;> decide

/-- What the reader finds in a header. -/
theorem read?_of_render {fingerprint : Nat} {sourceName text : String} {entries : List Entry}
    (hname : '\n' ∉ sourceName.toList) (hlt : fingerprint < 2 ^ 64)
    (h : ∀ e ∈ entries, e.declaration.Spelled ∧ e.payload.bytes ≠ [])
    (hrender : render maxValues sourceName fingerprint entries = .ok text) :
    read? text.toList = some ⟨fingerprint, entries.any Entry.needsLimits,
      (scopes entries).map fun scope =>
        (scope, (entriesIn entries scope).map (shown (max 1 maxValues)))⟩ := by
  have hpos : 0 < max 1 maxValues := by omega
  obtain ⟨first, hsplit⟩ := splitOn_lines_render hname (fun e he => (h e he).1) hrender
  have hgroups := mapM_readGroup hpos (groups entries) fun g hg e he =>
    h e ((exists_of_mem_groups hg).2 he)
  unfold read?
  rw [hsplit, List.map_cons]
  dsimp only
  rw [recordedFingerprint?_render hname hlt hrender, hgroups, contains_includes, groups_eq]
  simp only [Option.bind_eq_bind, Option.bind_some, Option.pure_def, List.map_map]
  rfl

/-- A buffer shows an entry: what is declared, and the values, of which no line has too many. -/
structure Shows (maxValues : Nat) (b : Shown) (e : Entry) : Prop where
  typeName_eq : b.typeName = e.declaration.typeName
  symbol_eq : b.symbol = e.declaration.symbol
  sizeSymbol_eq : b.sizeSymbol = e.declaration.sizeSymbol
  values_eq : b.rows.flatten = (values e.declaration.element e.payload.bytes).map (·.text)
  size_eq : b.size = b.rows.flatten.length
  length_le : ∀ row ∈ b.rows, row.length ≤ max 1 maxValues

theorem shows_shown (maxValues : Nat) (e : Entry) :
    Shows maxValues (shown (max 1 maxValues) e) e := by
  have hvalues := flatten_arrayRows (max 1 maxValues) e.texts
  refine ⟨rfl, rfl, rfl, hvalues, ?_, fun row hrow => length_le_of_mem_arrayRows (by omega) hrow⟩
  exact (congrArg List.length hvalues).symm

end Layout

/-- The problem of a buffer without bytes. -/
def Entry.emptyProblem (e : Entry) : Problem :=
  (Problem.badProduction e.declaration.qualifiedName
    "produced no data, and zero-length arrays cannot be declared").located e.declaration.path
      e.declaration.line

/-- The first buffer without bytes is refused. -/
theorem forM_check (entries : List Entry) : entries.forM Entry.check =
    match entries.find? (·.payload.bytes.isEmpty) with
    | some e => .error e.emptyProblem
    | none => .ok () := by
  induction entries with
  | nil => rfl
  | cons e entries ih =>
      show (e.check >>= fun _ => entries.forM Entry.check) = _
      rw [ih, List.find?_cons, Entry.check]
      cases e.payload.bytes.isEmpty with
      | true => rfl
      | false => rfl

theorem render_eq_error {maxValues fingerprint : Nat} {sourceName : String} {entries : List Entry}
    {p : Problem} : render maxValues sourceName fingerprint entries = .error p ↔
      ∃ e, entries.find? (·.payload.bytes.isEmpty) = some e ∧ p = e.emptyProblem := by
  unfold render
  rw [forM_check]
  cases entries.find? (·.payload.bytes.isEmpty) with
  | none =>
      constructor
      · intro h
        cases h
      · rintro ⟨_, h, -⟩
        cases h
  | some e =>
      constructor
      · intro h
        cases h
        exact ⟨e, rfl, rfl⟩
      · rintro ⟨_, h, rfl⟩
        cases h
        rfl

/-- **A header of scanned declarations can be read back without loss.** It is refused exactly for a
buffer without bytes, with the problem of the first. Else its text gives back the fingerprint,
whether `<limits>` is needed, and every entry once: by namespace in the order of first appearance,
in a namespace in the order of the entries, with its names, its size and its values. -/
theorem render_legible {m : Macros} {path source sourceName : String} {entries : List Entry}
    (hentries : ∀ e ∈ entries, e.declaration ∈ (scan m path source).declarations)
    (hname : '\n' ∉ sourceName.toList) (maxValues : Nat) (fingerprint : UInt64) :
    (∀ p, render maxValues sourceName fingerprint.toNat entries = .error p ↔
      ∃ e, entries.find? (·.payload.bytes.isEmpty) = some e ∧ p = e.emptyProblem) ∧
    ((∀ e ∈ entries, e.payload.bytes ≠ []) → ∃ text shown,
      render maxValues sourceName fingerprint.toNat entries = .ok text ∧
      recordedFingerprint? text.toList = some fingerprint.toNat ∧
      Layout.read? text.toList = some ⟨fingerprint.toNat, entries.any Entry.needsLimits,
        (scopes entries).map fun scope => (scope, (entriesIn entries scope).map shown)⟩ ∧
      ∀ e, Layout.Shows maxValues (shown e) e) := by
  refine ⟨fun p => render_eq_error, fun hbytes => ?_⟩
  have hlt : fingerprint.toNat < 2 ^ 64 := fingerprint.toNat_lt
  have hcheck : entries.forM Entry.check = .ok () := by
    rw [forM_check, List.find?_eq_none.2 fun e he => by simpa using hbytes e he]
  have hrender : render maxValues sourceName fingerprint.toNat entries = .ok _ :=
    render_eq_ok.2 ⟨hcheck, rfl⟩
  exact ⟨_, Layout.shown (max 1 maxValues), hrender, recordedFingerprint?_render hname hlt hrender,
    Layout.read?_of_render hname hlt
      (fun e he => ⟨spelled_of_mem_scan (hentries e he), hbytes e he⟩) hrender,
    Layout.shows_shown maxValues⟩

/-- A source with two namespaces, one of which is opened twice. -/
def twiceOpened : String :=
  "namespace a \x7b\nBPDataBuffer(int, A, \"a\")\n\x7d\nBPDataBuffer(int, B, \"a\")\n" ++
    "namespace a \x7b\nBPDataBuffer(float, C, \"a\")\n\x7d\n"

/-- Its buffers with some bytes, which are no number as `float`. -/
def twiceOpenedEntries : List Entry :=
  (scan .empty "in.h" twiceOpened).declarations.map fun d => ⟨d, .raw [0x7f, 0xc0, 0, 0, 1]⟩

theorem render_legible_twiceOpened : ∃ text shown,
    render 1 "in.h" 7 twiceOpenedEntries = .ok text ∧
      recordedFingerprint? text.toList = some 7 ∧
      Layout.read? text.toList = some ⟨7, true, [["a"], []].map fun scope =>
        (scope, (entriesIn twiceOpenedEntries scope).map shown)⟩ ∧
      ∀ e, Layout.Shows 1 (shown e) e := by
  have hscanned : ∀ e ∈ twiceOpenedEntries,
      e.declaration ∈ (scan .empty "in.h" twiceOpened).declarations := by
    intro e he
    obtain ⟨d, hd, rfl⟩ := List.mem_map.1 he
    exact hd
  have hbytes : ∀ e ∈ twiceOpenedEntries, e.payload.bytes ≠ [] := by
    intro e he
    obtain ⟨d, -, rfl⟩ := List.mem_map.1 he
    exact List.cons_ne_nil _ _
  have hname : '\n' ∉ "in.h".toList := by decide
  obtain ⟨text, shown, hrender, hrecorded, hread, hshows⟩ :=
    (render_legible hscanned hname 1 7).2 hbytes
  have hscopes : scopes twiceOpenedEntries = [["a"], []] := by decide +kernel
  have hlimits : twiceOpenedEntries.any Entry.needsLimits = true := by decide +kernel
  rw [hscopes, hlimits] at hread
  exact ⟨text, shown, hrender, hrecorded, hread, hshows⟩

end Header

end EmbeddedBuffers
