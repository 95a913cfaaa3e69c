import EmbeddedBuffers.Proofs.Codec.ElementBytes
import EmbeddedBuffers.Proofs.Header.Body
import EmbeddedBuffers.Proofs.Source.Spellings

/-!
# Reading the buffers of a header

A reader of the lines that buffers stand in. It skips comments, takes the size from the line before
an array, and the values from one line or from the rows of a block; values stand between commas,
which no literal holds. What it reads from the lines of some buffers is all of them, each with its
values. Main statement: `readFrom_flatMap_lines`.
-/

namespace EmbeddedBuffers

namespace Text

theorem stripEnd?_eq_none {c : Char} {s : List Char} (h : s.getLast? ≠ some c) :
    stripEnd? [c] s = none := by
  cases hstrip : stripEnd? [c] s with
  | none => rfl
  | some rest =>
      rw [stripEnd?_eq_some hstrip, List.getLast?_concat] at h
      exact absurd rfl h

theorem digits?_toString (n : Nat) : digits? 10 (toString n).toList = some n := by
  have hne : Nat.toDigits 10 n ≠ [] := List.ne_nil_of_length_pos Nat.length_toDigits_pos
  rw [Nat.toString_eq_repr, Nat.repr_eq_ofList_toDigits, String.toList_ofList, digits?,
    if_neg (by simp), digitsFrom?_toDigits (by decide) (by decide)]

end Text

namespace Header

/-- A buffer as a header shows it, its values line by line. -/
structure Shown where
  typeName : String
  symbol : String
  sizeSymbol : String
  size : Nat
  rows : List (List String)
deriving DecidableEq, Repr

namespace Layout

/-! ## Lines -/

/-- The values of a line: a comma stands between them, and a blank after it. -/
def rowValues (row : List Char) : List String :=
  match Text.splitAt ',' row with
  | [] => []
  | first :: others => (first :: others.map (List.drop 1)).map String.ofList

def isComment (line : List Char) : Bool := (Text.strip? "// ".toList line).isSome

/-- The symbol and the number of a line that gives a size. -/
def sizeLine? (line : List Char) : Option (String × Nat) := do
  let rest ← Text.strip? "constexpr std::size_t ".toList line
  let (symbol, rest) ← Text.splitOnce ' ' rest
  let rest ← Text.strip? "= ".toList rest
  let digits ← Text.stripEnd? ";".toList rest
  let size ← Text.digits? 10 digits
  return (String.ofList symbol, size)

/-- The type and the symbol of an array of a size, and what follows on their line. -/
def headLine? (sizeSymbol : String) (line : List Char) : Option (String × String × List Char) := do
  let rest ← Text.strip? "constexpr ".toList line
  let (name, rest) ← Text.splitOnce '[' rest
  let (symbol, typeName) ← Text.splitOnce ' ' name.reverse
  let rest ← Text.strip? (sizeSymbol.toList ++ "] =".toList) rest
  return (String.ofList typeName.reverse, String.ofList symbol.reverse, rest)

/-- The values of an array in one line, from what follows its head. -/
def arrayRow? (rest : List Char) : Option (List String) := do
  let rest ← Text.strip? " \x7b".toList rest
  let row ← Text.stripEnd? "\x7d;".toList rest
  return rowValues row

/-- The values of a row of a block, with or without the comma at its end. -/
def blockRow? (line : List Char) : Option (List String) := do
  let row ← Text.strip? indent.toList line
  return rowValues ((Text.stripEnd? [','] row).getD row)

/-! ## Buffers -/

/-- Where a reader stands. -/
inductive Place
  | outside
  /-- Behind the line of a size. -/
  | sized (symbol : String) (size : Nat)
  /-- Before the brace of a block. -/
  | opened (b : Shown)
  /-- Inside a block, the rows so far being those of the buffer. -/
  | inside (b : Shown)

/-- The buffers in some lines. -/
def readFrom : Place → List (List Char) → Option (List Shown)
  | place, [] =>
    match place with
    | .outside => some []
    | _ => none
  | place, line :: rest =>
    match place with
    | .outside =>
      match sizeLine? line with
      | some (symbol, size) => readFrom (.sized symbol size) rest
      | none => if isComment line then readFrom .outside rest else none
    | .sized sizeSymbol size =>
      match headLine? sizeSymbol line with
      | none => none
      | some (typeName, symbol, row) =>
        if row.isEmpty then readFrom (.opened ⟨typeName, symbol, sizeSymbol, size, []⟩) rest
        else
          match arrayRow? row with
          | none => none
          | some values =>
            (readFrom .outside rest).map (⟨typeName, symbol, sizeSymbol, size, [values]⟩ :: ·)
    | .opened b => if line = ['\x7b'] then readFrom (.inside b) rest else none
    | .inside b =>
      if line = ['\x7d', ';'] then (readFrom .outside rest).map (b :: ·)
      else
        match blockRow? line with
        | none => none
        | some values => readFrom (.inside { b with rows := b.rows ++ [values] }) rest

/-! ## What is read from a line -/

theorem splitAt_intercalate {first : String} {texts : List String} (lead : List Char)
    (hlead : ',' ∉ lead) (h : ∀ s ∈ first :: texts, ',' ∉ s.toList) :
    Text.splitAt ',' (lead ++ (String.intercalate ", " (first :: texts)).toList) =
      (lead ++ first.toList) :: texts.map (' ' :: ·.toList) := by
  -- What is before the first comma grows by the blank after each, hence the lead.
  rw [String.toList_intercalate]
  induction texts generalizing lead first with
  | nil =>
      rw [List.map_singleton, List.intercalate_singleton]
      refine Text.splitAt_of_not_mem ?_
      rw [List.mem_append, not_or]
      exact ⟨hlead, h first List.mem_cons_self⟩
  | cons second texts ih =>
      obtain ⟨hfirst, h⟩ := List.forall_mem_cons.1 h
      have hmem : ',' ∉ lead ++ first.toList := by
        rw [List.mem_append, not_or]
        exact ⟨hlead, hfirst⟩
      have hcomma : ", ".toList = ',' :: [' '] := rfl
      rw [List.map_cons, List.map_cons, List.intercalate_cons_cons, ← List.append_assoc,
        ← List.append_assoc, hcomma, List.append_assoc, List.cons_append,
        Text.splitAt_append hmem, ← List.map_cons, ← hcomma, ih [' '] (by decide) h]
      rfl

/-- The values of a line are read back. -/
theorem rowValues_intercalate {texts : List String} (hne : texts ≠ [])
    (h : ∀ s ∈ texts, ',' ∉ s.toList) :
    rowValues (String.intercalate ", " texts).toList = texts := by
  cases texts with
  | nil => exact absurd rfl hne
  | cons first texts =>
      have hsplit := splitAt_intercalate [] List.not_mem_nil h
      rw [List.nil_append, List.nil_append] at hsplit
      rw [rowValues, hsplit]
      dsimp only
      rw [List.map_cons, String.ofList_toList, List.map_map, List.map_map]
      exact congrArg (first :: ·) (List.map_id'' (fun s => by simp) texts)

/-- No line of values ends with a comma. -/
theorem getLast?_intercalate_ne {texts : List String} (h : ∀ s ∈ texts, ',' ∉ s.toList) :
    (String.intercalate ", " texts).toList.getLast? ≠ some ',' := by
  rw [String.toList_intercalate]
  induction texts with
  | nil => exact fun heq => by cases heq
  | cons first texts ih =>
      obtain ⟨hfirst, h⟩ := List.forall_mem_cons.1 h
      cases texts with
      | nil =>
          rw [List.map_singleton, List.intercalate_singleton]
          exact fun heq => hfirst (List.mem_of_getLast? heq)
      | cons second texts =>
          have hrest := ih h
          rw [List.map_cons] at hrest
          rw [List.map_cons, List.map_cons, List.intercalate_cons_cons, List.getLast?_append]
          generalize List.intercalate ", ".toList (second.toList :: texts.map String.toList) = behind
            at hrest ⊢
          cases hlast : behind.getLast? with
          | none =>
              rw [Option.none_or, List.getLast?_append]
              exact fun heq => by cases heq
          | some c =>
              rw [hlast] at hrest
              exact hrest

theorem toList_sizeLine (symbol : String) (size : Nat) :
    s!"constexpr std::size_t {symbol} = {size};".toList = "constexpr std::size_t ".toList ++
      (symbol.toList ++ ' ' :: ("= ".toList ++ ((toString size).toList ++ ";".toList))) := by
  show ("constexpr std::size_t " ++ symbol ++ " = " ++ toString size ++ ";").toList = _
  generalize "constexpr std::size_t " = lead
  simp only [String.toList_append, List.append_assoc]
  rfl

theorem sizeLine?_eq {symbol : String} (h : ' ' ∉ symbol.toList) (size : Nat) :
    sizeLine? s!"constexpr std::size_t {symbol} = {size};".toList = some (symbol, size) := by
  rw [sizeLine?, toList_sizeLine]
  simp only [Text.strip?_append, Option.bind_eq_bind, Option.bind_some, Text.splitOnce_append h,
    Text.stripEnd?_append, Text.digits?_toString, String.ofList_toList, Option.pure_def]

theorem toList_headLine (typeName symbol sizeSymbol : String) :
    s!"constexpr {typeName} {symbol}[{sizeSymbol}] =".toList = "constexpr ".toList ++
      ((typeName.toList ++ ' ' :: symbol.toList) ++ '[' :: (sizeSymbol.toList ++ "] =".toList)) := by
  show ("constexpr " ++ typeName ++ " " ++ symbol ++ "[" ++ sizeSymbol ++ "] =").toList = _
  generalize "constexpr " = lead
  simp only [String.toList_append, List.append_assoc]
  rfl

/-- The line on which an array starts is read back with what follows. -/
theorem headLine?_eq {typeName symbol : String} (htype : '[' ∉ typeName.toList)
    (hsymbol : '[' ∉ symbol.toList ∧ ' ' ∉ symbol.toList) (sizeSymbol rest : String) :
    headLine? sizeSymbol (s!"constexpr {typeName} {symbol}[{sizeSymbol}] =" ++ rest).toList =
      some (typeName, symbol, rest.toList) := by
  have hname : '[' ∉ typeName.toList ++ ' ' :: symbol.toList := by
    rw [List.mem_append, List.mem_cons, not_or, not_or]
    exact ⟨htype, by decide, hsymbol.1⟩
  have hreverse : (typeName.toList ++ ' ' :: symbol.toList).reverse =
      symbol.toList.reverse ++ ' ' :: typeName.toList.reverse := by
    rw [List.reverse_append, List.reverse_cons, List.append_assoc]
    rfl
  rw [headLine?, String.toList_append, toList_headLine, List.append_assoc, List.append_assoc,
    List.cons_append]
  simp only [Text.strip?_append, Option.bind_eq_bind, Option.bind_some,
    Text.splitOnce_append hname, hreverse,
    Text.splitOnce_append fun hmem => hsymbol.2 (List.mem_reverse.1 hmem), List.reverse_reverse,
    String.ofList_toList, Option.pure_def]

theorem arrayRow?_eq {texts : List String} (hne : texts ≠ []) (h : ∀ s ∈ texts, ',' ∉ s.toList) :
    arrayRow? (" \x7b" ++ String.intercalate ", " texts ++ "\x7d;").toList = some texts := by
  have hline : (" \x7b" ++ String.intercalate ", " texts ++ "\x7d;").toList =
      " \x7b".toList ++ ((String.intercalate ", " texts).toList ++ "\x7d;".toList) := by
    rw [String.toList_append, String.toList_append, List.append_assoc]
  rw [arrayRow?, hline]
  simp only [Text.strip?_append, Option.bind_eq_bind, Option.bind_some, Text.stripEnd?_append,
    rowValues_intercalate hne h, Option.pure_def]

theorem blockRow?_eq {texts : List String} (hne : texts ≠ []) (h : ∀ s ∈ texts, ',' ∉ s.toList) :
    blockRow? (indent ++ String.intercalate ", " texts).toList = some texts ∧
      blockRow? (indent ++ String.intercalate ", " texts ++ ",").toList = some texts := by
  have hread : ∀ row : List Char,
      blockRow? (indent.toList ++ row) = some (rowValues ((Text.stripEnd? [','] row).getD row)) := by
    intro row
    rw [blockRow?, Text.strip?_append]
    rfl
  rw [String.toList_append, String.toList_append, String.toList_append, List.append_assoc, hread,
    hread]
  constructor
  · rw [Text.stripEnd?_eq_none (getLast?_intercalate_ne h), Option.getD_none,
      rowValues_intercalate hne h]
  · have hcomma : ",".toList = [','] := rfl
    rw [hcomma, Text.stripEnd?_append, Option.getD_some, rowValues_intercalate hne h]

/-! ## What is read from the lines of a buffer -/

variable {maxValues size : Nat} {typeName symbol sizeSymbol : String} {texts : List String}
  {line : List Char} {values : List String}

theorem readFrom_inside (h : blockRow? line = some values) (b : Shown) (rest : List (List Char)) :
    readFrom (.inside b) (line :: rest) =
      readFrom (.inside { b with rows := b.rows ++ [values] }) rest := by
  have hne : line ≠ ['\x7d', ';'] := by
    rintro rfl
    cases h
  rw [readFrom]
  rw [if_neg hne, h]

/-- The rows of a block are read up to the brace after them. -/
theorem readFrom_rows {rows : List (List String)} (hne : ∀ row ∈ rows, row ≠ [])
    (h : ∀ row ∈ rows, ∀ s ∈ row, ',' ∉ s.toList) (b : Shown) (rest : List (List Char)) :
    readFrom (.inside b) ((commaLines (rows.map fun row =>
        indent ++ String.intercalate ", " row)).map String.toList ++ ['\x7d', ';'] :: rest) =
      (readFrom .outside rest).map ({ b with rows := b.rows ++ rows } :: ·) := by
  induction rows generalizing b with
  | nil =>
      rw [List.append_nil, List.map_nil, commaLines, List.map_nil, List.nil_append, readFrom]
      rw [if_pos rfl]
  | cons row rows ih =>
      obtain ⟨hrow, hne⟩ := List.forall_mem_cons.1 hne
      obtain ⟨hcomma, h⟩ := List.forall_mem_cons.1 h
      obtain ⟨hlast, hmore⟩ := blockRow?_eq hrow hcomma
      have hrest := ih hne h { b with rows := b.rows ++ [row] }
      rw [List.append_assoc, List.singleton_append] at hrest
      cases rows with
      | nil => exact (readFrom_inside hlast b _).trans hrest
      | cons next rows =>
          rw [List.map_cons, List.map_cons, commaLines, List.map_cons, List.cons_append,
            readFrom_inside hmore]
          exact hrest

/-! ## Rows -/

theorem ne_nil_of_mem_piecesFrom {α : Type} {width room : Nat} {piece xs : List α}
    (hroom : piece.length + room = width) (hpos : 0 < room) :
    ∀ row ∈ piecesFrom width piece room xs, row ≠ [] ∧ row.length ≤ width := by
  induction xs generalizing piece room with
  | nil =>
      intro row hrow
      cases piece with
      | nil => cases hrow
      | cons x piece =>
          have hlen : 0 < (x :: piece).length := Nat.succ_pos _
          rw [piecesFrom.eq_2 _ _ _ (List.ne_nil_of_length_pos hlen), List.mem_singleton] at hrow
          rw [hrow, List.length_reverse]
          exact ⟨by simp, by omega⟩
  | cons x xs ih =>
      intro row hrow
      rw [piecesFrom.eq_3] at hrow
      split at hrow
      · next hlast =>
        rcases List.mem_cons.1 hrow with rfl | hrow
        · refine ⟨by simp, ?_⟩
          rw [List.length_reverse, List.length_cons]
          omega
        · exact ih (Nat.zero_add width) (by omega) row hrow
      · refine ih ?_ (by omega) row hrow
        rw [List.length_cons]
        omega

/-- A row of a block has a value, and not too many. -/
theorem ne_nil_of_mem_pieces {α : Type} {width : Nat} (hwidth : 0 < width) {xs row : List α}
    (h : row ∈ pieces width xs) : row ≠ [] ∧ row.length ≤ width :=
  ne_nil_of_mem_piecesFrom (Nat.zero_add width) hwidth row h

/-- The values of an array line by line. -/
def arrayRows (maxValues : Nat) (texts : List String) : List (List String) :=
  if texts.length ≤ maxValues then [texts] else pieces maxValues texts

theorem flatten_arrayRows (maxValues : Nat) (texts : List String) :
    (arrayRows maxValues texts).flatten = texts := by
  unfold arrayRows
  split
  · rw [List.flatten_singleton]
  · exact flatten_pieces maxValues texts

theorem length_le_of_mem_arrayRows (hpos : 0 < maxValues) {row : List String}
    (h : row ∈ arrayRows maxValues texts) : row.length ≤ maxValues := by
  unfold arrayRows at h
  split at h
  · next hle =>
    rw [List.mem_singleton.1 h]
    exact hle
  · exact (ne_nil_of_mem_pieces hpos h).2

theorem readFrom_arrayLines (hpos : 0 < maxValues) (htype : '[' ∉ typeName.toList)
    (hsymbol : '[' ∉ symbol.toList ∧ ' ' ∉ symbol.toList) (hne : texts ≠ [])
    (h : ∀ s ∈ texts, ',' ∉ s.toList) (rest : List (List Char)) :
    readFrom (.sized sizeSymbol size) ((arrayLines maxValues
        s!"constexpr {typeName} {symbol}[{sizeSymbol}] =" texts).map String.toList ++ rest) =
      (readFrom .outside rest).map
        (⟨typeName, symbol, sizeSymbol, size, arrayRows maxValues texts⟩ :: ·) := by
  unfold arrayLines arrayRows
  split
  · have hline := headLine?_eq htype hsymbol sizeSymbol
      (" \x7b" ++ String.intercalate ", " texts ++ "\x7d;")
    rw [← String.append_assoc, ← String.append_assoc] at hline
    rw [List.map_singleton, List.singleton_append, readFrom]
    rw [hline]
    dsimp only
    rw [if_neg (by simp), arrayRow?_eq hne h]
  · have hline := headLine?_eq htype hsymbol sizeSymbol ""
    rw [String.append_empty] at hline
    have hcommas : ∀ row ∈ pieces maxValues texts, ∀ s ∈ row, ',' ∉ s.toList := by
      intro row hrow s hs
      refine h s ?_
      rw [← flatten_pieces maxValues texts]
      exact List.mem_flatten.2 ⟨row, hrow, hs⟩
    have hrows := readFrom_rows (fun row hrow => (ne_nil_of_mem_pieces hpos hrow).1) hcommas
      ⟨typeName, symbol, sizeSymbol, size, []⟩ rest
    rw [List.map_append, List.map_append, List.append_assoc, List.append_assoc, List.map_cons,
      List.cons_append, readFrom]
    rw [hline]
    exact hrows

/-- A buffer as its header shows it. -/
def shown (maxValues : Nat) (e : Entry) : Shown :=
  ⟨e.declaration.typeName, e.declaration.symbol, e.declaration.sizeSymbol, e.texts.length,
    arrayRows maxValues e.texts⟩

/-- A comment tells the reader nothing. -/
theorem readFrom_comment (e : Entry) (rest : List (List Char)) :
    readFrom .outside (e.comment.map String.toList ++ rest) = readFrom .outside rest := by
  unfold Entry.comment
  cases e.payload with
  | raw _ => rfl
  | encoded encoded =>
      obtain ⟨c, more, hline, -, -⟩ := Entry.toList_schemeLine encoded
      dsimp only
      rw [List.map_singleton, List.singleton_append, hline, readFrom]
      rfl

theorem ne_of_isNameChar {c : Char} (hc : Text.isNameChar c = false) {s : String}
    (h : ∀ c ∈ s.toList, Text.isNameChar c = true) : c ∉ s.toList := by
  intro hmem
  rw [h c hmem] at hc
  cases hc

theorem texts_ne_nil {e : Entry} (h : e.payload.bytes ≠ []) : e.texts ≠ [] := by
  have hlen : 0 < e.texts.length := by
    have hwidth := e.declaration.element.width_pos
    rw [Entry.texts, values, List.length_map, List.length_map, Elements.length_ofBytes hwidth]
    have hbytes := List.length_pos_iff.2 h
    exact Nat.div_pos (by omega) hwidth
  exact List.ne_nil_of_length_pos hlen

/-- **The lines of a buffer are read back as the buffer.** -/
theorem readFrom_lines (hpos : 0 < maxValues) {e : Entry} (hspelled : e.declaration.Spelled)
    (hbytes : e.payload.bytes ≠ []) (rest : List (List Char)) :
    readFrom .outside ((e.lines maxValues).map String.toList ++ rest) =
      (readFrom .outside rest).map (shown maxValues e :: ·) := by
  have hsize := ne_of_isNameChar (c := ' ') (by decide) hspelled.sizeSymbol
  rw [Entry.lines_eq, List.map_append, List.append_assoc, readFrom_comment, List.map_cons,
    List.cons_append, readFrom]
  rw [sizeLine?_eq hsize]
  exact readFrom_arrayLines hpos (hspelled.not_mem_typeName _ (by decide))
    ⟨ne_of_isNameChar (by decide) hspelled.symbol, ne_of_isNameChar (by decide) hspelled.symbol⟩
    (texts_ne_nil hbytes) (fun s hs => e.separators_texts s hs _ (by decide)) rest

/-- The lines of some buffers are read back as the buffers. -/
theorem readFrom_flatMap_lines (hpos : 0 < maxValues) {es : List Entry}
    (h : ∀ e ∈ es, e.declaration.Spelled ∧ e.payload.bytes ≠ []) :
    readFrom .outside ((es.flatMap (Entry.lines maxValues)).map String.toList) =
      some (es.map (shown maxValues)) := by
  induction es with
  | nil => rfl
  | cons e es ih =>
      obtain ⟨he, h⟩ := List.forall_mem_cons.1 h
      rw [List.flatMap_cons, List.map_append, readFrom_lines hpos he.1 he.2, ih h]
      rfl

end Layout

end Header

end EmbeddedBuffers
