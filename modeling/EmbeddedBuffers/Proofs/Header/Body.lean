import EmbeddedBuffers.Proofs.Header.Literals
import Mathlib.Data.List.Induction

/-!
# What a header tells about its buffers

Two headers for the same declarations are the same text exactly when every buffer has the same
lines in both. A header is read from the front: of a buffer first the comment, then the number
of elements, which says how many lines there are to come. Main statement: `render_eq_iff`.
-/

namespace EmbeddedBuffers

/-! ## Lists without repetitions -/

section

variable {α : Type} [BEq α] [LawfulBEq α]

theorem eraseDups_concat (l : List α) (a : α) :
    (l ++ [a]).eraseDups = if a ∈ l then l.eraseDups else l.eraseDups ++ [a] := by
  rw [List.eraseDups_append, List.removeAll]
  split
  · next hmem =>
    rw [List.filter_cons_of_neg (by simpa using hmem)]
    exact List.append_nil _
  · next hmem =>
    rw [List.filter_cons_of_pos (by simpa using hmem)]
    rfl

theorem nodup_eraseDups (l : List α) : l.eraseDups.Nodup := by
  induction l using List.reverseRecOn with
  | nil => exact List.nodup_nil
  | append_singleton l a ih =>
      rw [eraseDups_concat]
      split
      · exact ih
      · next hmem =>
        refine List.nodup_append.2 ⟨ih, List.pairwise_singleton _ a, ?_⟩
        rintro b hb _ hmem' rfl
        rw [List.mem_singleton] at hmem'
        exact hmem (hmem' ▸ List.mem_eraseDups.1 hb)

end

namespace Header

/-! ## Reading lines -/

theorem eq_of_append_cons {α : Type} {c : α} {s s' rest rest' : List α} (hs : c ∉ s) (hs' : c ∉ s')
    (h : s ++ c :: rest = s' ++ c :: rest') : s = s' ∧ rest = rest' := by
  induction s generalizing s' with
  | nil =>
      cases s' with
      | nil => exact ⟨rfl, (List.cons.inj h).2⟩
      | cons d s' =>
          rw [List.mem_cons, not_or] at hs'
          exact absurd (List.cons.inj h).1 hs'.1
  | cons d s ih =>
      rw [List.mem_cons, not_or] at hs
      cases s' with
      | nil => exact absurd (List.cons.inj h).1.symm hs.1
      | cons d' s' =>
          rw [List.mem_cons, not_or] at hs'
          obtain ⟨hhead, htail⟩ := List.cons.inj h
          obtain ⟨heq, hrest⟩ := ih hs.2 hs'.2 htail
          exact ⟨by rw [hhead, heq], hrest⟩

/-- As many lines of one text are those of the other. -/
theorem eq_of_unlines {l l' : List String} {rest rest' : List Char} (hlen : l.length = l'.length)
    (hl : ∀ s ∈ l, '\n' ∉ s.toList) (hl' : ∀ s ∈ l', '\n' ∉ s.toList)
    (h : unlines l ++ rest = unlines l' ++ rest') : l = l' ∧ rest = rest' := by
  induction l generalizing l' with
  | nil =>
      cases l' with
      | nil => exact ⟨rfl, h⟩
      | cons s' l' => cases hlen
  | cons s l ih =>
      cases l' with
      | nil => cases hlen
      | cons s' l' =>
          rw [List.forall_mem_cons] at hl hl'
          rw [unlines_cons, unlines_cons, List.append_assoc, List.append_assoc] at h
          obtain ⟨hs, h⟩ := eq_of_append_cons hl.1 hl'.1 h
          obtain ⟨hrest, h⟩ := ih (Nat.succ.inj hlen) hl.2 hl'.2 h
          exact ⟨by rw [String.toList_inj.1 hs, hrest], h⟩

/-- The same behind a margin. -/
theorem eq_of_unlines_margin {margin : String} (hmargin : '\n' ∉ margin.toList)
    {l l' : List String} {rest rest' : List Char} (hlen : l.length = l'.length)
    (hl : ∀ s ∈ l, '\n' ∉ s.toList) (hl' : ∀ s ∈ l', '\n' ∉ s.toList)
    (h : unlines (l.map (margin ++ ·)) ++ rest = unlines (l'.map (margin ++ ·)) ++ rest') :
    l = l' ∧ rest = rest' := by
  have hmap : ∀ l : List String, (∀ s ∈ l, '\n' ∉ s.toList) →
      ∀ s ∈ l.map (margin ++ ·), '\n' ∉ s.toList := by
    intro l hl s hs
    obtain ⟨s', hs', rfl⟩ := List.mem_map.1 hs
    rw [String.toList_append, List.mem_append, not_or]
    exact ⟨hmargin, hl s' hs'⟩
  obtain ⟨heq, hrest⟩ := eq_of_unlines (by rw [List.length_map, List.length_map, hlen])
    (hmap l hl) (hmap l' hl') h
  exact ⟨(List.map_inj_right fun _ _ => (String.append_right_inj margin).1).1 heq, hrest⟩

/-! ## Arrays -/

theorem length_piecesFrom {α β : Type} (size : Nat) {piece : List α} {piece' : List β} (room : Nat)
    {xs : List α} {xs' : List β} (hpiece : piece.isEmpty = piece'.isEmpty)
    (hlen : xs.length = xs'.length) :
    (piecesFrom size piece room xs).length = (piecesFrom size piece' room xs').length := by
  induction xs generalizing piece piece' room xs' with
  | nil =>
      cases xs' with
      | nil => cases piece <;> cases piece' <;> first | rfl | cases hpiece
      | cons x' xs' => cases hlen
  | cons x xs ih =>
      cases xs' with
      | nil => cases hlen
      | cons x' xs' =>
          rw [piecesFrom.eq_3, piecesFrom.eq_3]
          split
          · have hrest : (piecesFrom size ([] : List α) size xs).length =
                (piecesFrom size ([] : List β) size xs').length := ih _ rfl (Nat.succ.inj hlen)
            rw [List.length_cons, List.length_cons, hrest]
          · exact ih _ rfl (Nat.succ.inj hlen)

theorem flatten_piecesFrom {α : Type} (size : Nat) (piece : List α) (room : Nat) (xs : List α) :
    (piecesFrom size piece room xs).flatten = piece.reverse ++ xs := by
  induction xs generalizing piece room with
  | nil => cases piece <;> simp [piecesFrom]
  | cons x xs ih =>
      rw [piecesFrom.eq_3]
      split
      · rw [List.flatten_cons, ih, List.reverse_cons, List.reverse_nil, List.nil_append,
          List.append_assoc, List.singleton_append]
      · rw [ih, List.reverse_cons, List.append_assoc, List.singleton_append]

/-- The pieces together are what was cut. -/
theorem flatten_pieces {α : Type} (size : Nat) (xs : List α) : (pieces size xs).flatten = xs :=
  flatten_piecesFrom size [] size xs

theorem length_commaLines (lines : List String) : (commaLines lines).length = lines.length := by
  fun_induction commaLines lines with
  | case1 => rfl
  | case2 => rfl
  | case3 line next rest ih => exact congrArg Nat.succ ih

theorem not_mem_commaLines {c : Char} (hc : c ∉ ",".toList) {lines : List String}
    (h : ∀ s ∈ lines, c ∉ s.toList) : ∀ s ∈ commaLines lines, c ∉ s.toList := by
  fun_induction commaLines lines with
  | case1 => exact h
  | case2 => exact h
  | case3 line next rest ih =>
      rw [List.forall_mem_cons] at h
      refine List.forall_mem_cons.2 ⟨?_, ih h.2⟩
      rw [String.toList_append, List.mem_append, not_or]
      exact ⟨h.1, hc⟩

theorem not_mem_intercalate {c : Char} (hc : c ∉ ", ".toList) {texts : List String}
    (h : ∀ s ∈ texts, c ∉ s.toList) : c ∉ (String.intercalate ", " texts).toList := by
  rw [String.toList_intercalate]
  induction texts with
  | nil => exact List.not_mem_nil
  | cons s texts ih =>
      rw [List.forall_mem_cons] at h
      cases texts with
      | nil => simpa using h.1
      | cons next texts =>
          rw [List.map_cons, List.map_cons, List.intercalate_cons_cons, List.mem_append,
            List.mem_append, not_or, not_or]
          exact ⟨⟨h.1, hc⟩, ih h.2⟩

/-- What no literal holds stands in no row of a block. -/
theorem not_mem_rows {c : Char} (hc : c ∉ ", ".toList) {maxValues : Nat} {texts : List String}
    (h : ∀ s ∈ texts, c ∉ s.toList) :
    ∀ s ∈ commaLines ((pieces maxValues texts).map fun row =>
      indent ++ String.intercalate ", " row), c ∉ s.toList := by
  have hcomma : c ∉ ",".toList := fun hmem => hc (by
    rw [List.mem_singleton.1 hmem]
    decide)
  have hindent : c ∉ indent.toList := fun hmem => hc (by
    rw [List.eq_of_mem_replicate (n := 4) hmem]
    decide)
  refine not_mem_commaLines hcomma fun s hs => ?_
  obtain ⟨row, hrow, rfl⟩ := List.mem_map.1 hs
  rw [String.toList_append, List.mem_append, not_or]
  refine ⟨hindent, not_mem_intercalate hc fun s hs => h s ?_⟩
  rw [← flatten_pieces maxValues texts]
  exact List.mem_flatten.2 ⟨row, hrow, hs⟩

theorem not_mem_concat {c : Char} {a b : String} :
    c ∉ (a ++ b).toList ↔ c ∉ a.toList ∧ c ∉ b.toList := by
  rw [String.toList_append, List.mem_append, not_or]

/-- What neither the head of an array nor a literal holds stands in no line of it. -/
theorem not_mem_arrayLines {c : Char} (hc : c ∉ ", \x7b\x7d;".toList) {maxValues : Nat}
    {head : String} {texts : List String} (hhead : c ∉ head.toList)
    (htexts : ∀ s ∈ texts, c ∉ s.toList) : ∀ s ∈ arrayLines maxValues head texts, c ∉ s.toList := by
  have hmarks : ", ".toList ⊆ ", \x7b\x7d;".toList ∧ " \x7b".toList ⊆ ", \x7b\x7d;".toList ∧
      "\x7b".toList ⊆ ", \x7b\x7d;".toList ∧ "\x7d;".toList ⊆ ", \x7b\x7d;".toList := by decide
  obtain ⟨hcomma, hopen, hbrace, hclose⟩ := hmarks
  intro s hs
  unfold arrayLines at hs
  split at hs
  · rw [List.mem_singleton.1 hs, not_mem_concat, not_mem_concat, not_mem_concat]
    exact ⟨⟨⟨hhead, fun h => hc (hopen h)⟩, not_mem_intercalate (fun h => hc (hcomma h)) htexts⟩,
      fun h => hc (hclose h)⟩
  · rcases List.mem_append.1 hs with hs | hs
    · rcases List.mem_append.1 hs with hs | hs
      · rcases List.mem_cons.1 hs with rfl | hs
        · exact hhead
        · rw [List.mem_singleton.1 hs]
          exact fun h => hc (hbrace h)
      · exact not_mem_rows (fun h => hc (hcomma h)) htexts s hs
    · rw [List.mem_singleton.1 hs]
      exact fun h => hc (hclose h)

/-- Of two arrays with the same head and as many values the first lines are the same. -/
theorem eq_of_arrayLines {margin : String} (hmargin : '\n' ∉ margin.toList) {maxValues : Nat}
    {head : String} {texts texts' : List String} {rest rest' : List Char}
    (hlen : texts.length = texts'.length) (htexts : ∀ s ∈ texts, '\n' ∉ s.toList)
    (htexts' : ∀ s ∈ texts', '\n' ∉ s.toList)
    (h : unlines ((arrayLines maxValues head texts).map (margin ++ ·)) ++ rest =
      unlines ((arrayLines maxValues head texts').map (margin ++ ·)) ++ rest') :
    arrayLines maxValues head texts = arrayLines maxValues head texts' ∧ rest = rest' := by
  unfold arrayLines at h ⊢
  rw [← hlen] at h ⊢
  split at h
  · next hfit =>
    rw [if_pos hfit, if_pos hfit]
    have hline : ∀ row : String, (margin ++ (head ++ " \x7b" ++ row ++ "\x7d;")).toList =
        (margin ++ head ++ " \x7b").toList ++ (row ++ "\x7d;").toList := by
      intro row
      rw [← String.toList_append]
      simp only [String.append_assoc]
    have hrow : ∀ texts : List String, (∀ s ∈ texts, '\n' ∉ s.toList) →
        '\n' ∉ (String.intercalate ", " texts ++ "\x7d;").toList := by
      intro texts htexts
      rw [String.toList_append, List.mem_append, not_or]
      exact ⟨not_mem_intercalate (by decide) htexts, by decide⟩
    rw [List.map_singleton, List.map_singleton, unlines_cons, unlines_cons, hline, hline,
      List.append_assoc, List.append_assoc, List.append_assoc, List.append_assoc,
      List.append_right_inj] at h
    obtain ⟨heq, hrest⟩ := eq_of_append_cons (hrow texts htexts) (hrow texts' htexts') h
    have hrows := (String.append_left_inj _).1 (String.toList_inj.1 heq)
    exact ⟨by rw [hrows], hrest⟩
  · next hlong =>
    rw [if_neg hlong, if_neg hlong]
    have hrows : ∀ texts : List String, (∀ s ∈ texts, '\n' ∉ s.toList) →
        ∀ s ∈ commaLines ((pieces maxValues texts).map fun row =>
          indent ++ String.intercalate ", " row) ++ ["\x7d;"], '\n' ∉ s.toList := by
      intro texts htexts s hs
      rcases List.mem_append.1 hs with hs | hs
      · exact not_mem_rows (by decide) htexts s hs
      · rw [List.mem_singleton.1 hs]
        decide
    have hsplit : ∀ rows : List String,
        unlines (([head, "\x7b"] ++ rows ++ ["\x7d;"]).map (margin ++ ·)) =
          unlines ([head, "\x7b"].map (margin ++ ·)) ++
            unlines ((rows ++ ["\x7d;"]).map (margin ++ ·)) := by
      intro rows
      rw [← unlines_append, ← List.map_append, List.append_assoc]
    rw [hsplit, hsplit, List.append_assoc, List.append_assoc, List.append_right_inj] at h
    have hpieces : (pieces maxValues texts).length = (pieces maxValues texts').length :=
      length_piecesFrom maxValues maxValues rfl hlen
    obtain ⟨heq, hrest⟩ := eq_of_unlines_margin hmargin (by
      rw [List.length_append, List.length_append, length_commaLines, length_commaLines,
        List.length_map, List.length_map, hpieces]) (hrows texts htexts) (hrows texts' htexts') h
    exact ⟨by rw [List.append_assoc, List.append_assoc, heq], hrest⟩

/-! ## Buffers -/

namespace Entry

/-- The literals of a buffer. -/
def texts (e : Entry) : List String :=
  (values e.declaration.element e.payload.bytes).map (·.text)

/-- The lines before the number of elements. -/
def comment (e : Entry) : List String :=
  match e.payload with
  | .raw _ => []
  | .encoded e => [schemeLine e]

/-- The same declaration with buffers in the same form. -/
structure Alike (e e' : Entry) : Prop where
  declaration_eq : e.declaration = e'.declaration
  comment_length : e.comment.length = e'.comment.length

theorem separators_texts (e : Entry) : ∀ s ∈ e.texts, ∀ c ∈ separators, c ∉ s.toList := by
  intro s hs
  obtain ⟨v, hv, rfl⟩ := List.mem_map.1 hs
  obtain ⟨n, -, rfl⟩ := List.mem_map.1 hv
  exact (Value.regular_of _ _).separators

theorem no_feed_texts (e : Entry) : ∀ s ∈ e.texts, '\n' ∉ s.toList := fun s hs =>
  e.separators_texts s hs _ (by decide)

theorem plain_render_scheme (s : Codec.Scheme) : Plain s.render.toList := by
  cases s with
  | stored => decide
  | lzss p =>
      show Plain p.render.toList
      unfold Codec.Lzss.render
      simp only [plain_concat]
      exact ⟨⟨⟨⟨⟨⟨⟨⟨⟨by decide, plain_toString _⟩, by decide⟩, plain_toString _⟩, by decide⟩,
        plain_toString _⟩, by decide⟩, plain_toString _⟩, by decide⟩,
        ⟨by decide, plain_toString _⟩, by decide⟩
  | rle p =>
      show Plain p.render.toList
      unfold Codec.Rle.render
      simp only [plain_concat]
      exact ⟨⟨by decide, plain_toString _⟩, by decide⟩

theorem exists_concat {a b : String} (h : ∃ c rest, a.toList = c :: rest ∧ c ≠ 'b') :
    ∃ c rest, (a ++ b).toList = c :: rest ∧ c ≠ 'b' := by
  obtain ⟨c, rest, ha, hc⟩ := h
  exact ⟨c, rest ++ b.toList, by rw [String.toList_append, ha, List.cons_append], hc⟩

theorem exists_render_scheme (s : Codec.Scheme) :
    ∃ c rest, s.render.toList = c :: rest ∧ c ≠ 'b' := by
  cases s with
  | stored => exact ⟨'s', "tored".toList, rfl, by decide⟩
  | lzss p =>
      show ∃ c rest, p.render.toList = c :: rest ∧ c ≠ 'b'
      unfold Codec.Lzss.render
      repeat apply exists_concat
      exact ⟨'l', "zss window=".toList, rfl, by decide⟩
  | rle p =>
      show ∃ c rest, p.render.toList = c :: rest ∧ c ≠ 'b'
      unfold Codec.Rle.render
      repeat apply exists_concat
      exact ⟨'r', "le width=".toList, rfl, by decide⟩

/-- The comment on an encoded buffer starts with the name of the scheme. -/
theorem toList_schemeLine (e : Codec.Encoded) : ∃ c rest,
    (schemeLine e).toList = '/' :: '/' :: ' ' :: c :: rest ∧ c ≠ 'b' ∧ Plain (c :: rest) := by
  have hplain : Plain (e.scheme.render ++ (": " ++ toString e.rawLength ++ " -> " ++
      toString e.bytes.length ++ " bytes")).toList := by
    simp only [plain_concat]
    exact ⟨plain_render_scheme _, ⟨⟨⟨by decide, plain_toString _⟩, by decide⟩, plain_toString _⟩,
      by decide⟩
  obtain ⟨c, rest, hc, hne⟩ := exists_render_scheme e.scheme
  rw [String.toList_append, hc] at hplain
  refine ⟨c, _, ?_, hne, hplain⟩
  show ("// " ++ e.scheme.render ++ ": " ++ toString e.rawLength ++ " -> " ++
    toString e.bytes.length ++ " bytes").toList = _
  simp only [String.append_assoc]
  rw [String.toList_append, String.toList_append, hc]
  rfl

theorem no_break_schemeLine (e : Codec.Encoded) :
    ∀ c ∈ ['\n', '\r'], c ∉ (schemeLine e).toList := by
  have hbreak : ∀ c ∈ ['\n', '\r'], c ∉ ['/', '/', ' '] ∧ c ∈ separators := by decide
  obtain ⟨c, rest, heq, -, hplain⟩ := toList_schemeLine e
  have hsplit : '/' :: '/' :: ' ' :: c :: rest = ['/', '/', ' '] ++ c :: rest := rfl
  intro d hd
  rw [heq, hsplit, List.mem_append, not_or]
  exact ⟨(hbreak d hd).1, hplain.separators d (hbreak d hd).2⟩

theorem no_break_comment (e : Entry) : ∀ s ∈ e.comment, ∀ c ∈ ['\n', '\r'], c ∉ s.toList := by
  intro s hs
  unfold comment at hs
  split at hs
  · exact absurd hs List.not_mem_nil
  · rw [List.mem_singleton.1 hs]
    exact no_break_schemeLine _

theorem no_feed_comment (e : Entry) : ∀ s ∈ e.comment, '\n' ∉ s.toList := fun s hs =>
  e.no_break_comment s hs _ (by decide)

theorem lines_eq (e : Entry) (maxValues : Nat) : e.lines maxValues = e.comment ++
    (s!"constexpr std::size_t {e.declaration.sizeSymbol} = {e.texts.length};" ::
      arrayLines maxValues
        s!"constexpr {e.declaration.typeName} {e.declaration.symbol}[{e.declaration.sizeSymbol}] ="
        e.texts) := by
  obtain ⟨d, payload⟩ := e
  cases payload <;>
    simp only [lines, texts, comment, List.cons_append, List.nil_append, List.length_map]

theorem toString_inj {m n : Nat} (h : (toString m).toList = (toString n).toList) : m = n := by
  rw [Nat.toString_eq_repr, Nat.toString_eq_repr, Nat.repr_eq_ofList_toDigits,
    Nat.repr_eq_ofList_toDigits, String.toList_ofList, String.toList_ofList] at h
  rw [← @Nat.ofDigitChars_ten_toDigits m, h, Nat.ofDigitChars_ten_toDigits]

/-- Of two alike buffers the first lines are the same. -/
theorem Alike.eq_of_lines {e e' : Entry} (h : e.Alike e') {margin : String}
    (hmargin : '\n' ∉ margin.toList) {maxValues : Nat} {rest rest' : List Char}
    (heq : unlines ((e.lines maxValues).map (margin ++ ·)) ++ rest =
      unlines ((e'.lines maxValues).map (margin ++ ·)) ++ rest') :
    e.lines maxValues = e'.lines maxValues ∧ rest = rest' := by
  rw [lines_eq, lines_eq] at heq ⊢
  rw [List.map_append, List.map_append, unlines_append, unlines_append, List.append_assoc,
    List.append_assoc] at heq
  obtain ⟨hcomment, heq⟩ := eq_of_unlines_margin hmargin h.comment_length e.no_feed_comment
    e'.no_feed_comment heq
  rw [← h.declaration_eq] at heq ⊢
  rw [List.map_cons, List.map_cons, unlines_cons, unlines_cons, List.append_assoc,
    List.append_assoc] at heq
  have hsize : ∀ (n : Nat) (s : List Char),
      (margin ++ s!"constexpr std::size_t {e.declaration.sizeSymbol} = {n};").toList ++ s =
        (margin ++ ("constexpr std::size_t " ++ e.declaration.sizeSymbol ++ " = ")).toList ++
          ((toString n).toList ++ ';' :: s) := by
    intro n s
    show (margin ++ ("constexpr std::size_t " ++ e.declaration.sizeSymbol ++ " = " ++ toString n ++
      ";")).toList ++ s = _
    generalize "constexpr std::size_t " ++ e.declaration.sizeSymbol ++ " = " = front
    simp only [String.toList_append, List.append_assoc]
    rfl
  rw [hsize, hsize, List.append_right_inj] at heq
  have hdigits : ∀ n : Nat, ';' ∉ (toString n).toList := by
    intro n hmem
    rw [Nat.toString_eq_repr, Nat.repr_eq_ofList_toDigits, String.toList_ofList] at hmem
    obtain ⟨d, hd, heq⟩ := Text.exists_digitChar_of_mem_toDigits (by decide) hmem
    have hall : ∀ d < 10, ';' ≠ Nat.digitChar d := by decide
    exact hall d hd heq
  obtain ⟨hlen, heq⟩ := eq_of_append_cons (hdigits _) (hdigits _) heq
  have hlen := toString_inj hlen
  obtain ⟨harray, hrest⟩ := eq_of_arrayLines hmargin hlen e.no_feed_texts e'.no_feed_texts
    (List.cons.inj heq).2
  exact ⟨by rw [hcomment, hlen, harray], hrest⟩

end Entry

/-! ## Namespaces -/

/-- The namespaces of some entries, in the order of first appearance. -/
def scopes (entries : List Entry) : List (List String) :=
  (entries.map (·.declaration.scope)).eraseDups

/-- The entries of a namespace. -/
def entriesIn (entries : List Entry) (scope : List String) : List Entry :=
  entries.filter fun e => e.declaration.scope = scope

theorem scopes_append (entries : List Entry) (e : Entry) :
    scopes (entries ++ [e]) = if e.declaration.scope ∈ scopes entries then scopes entries
      else scopes entries ++ [e.declaration.scope] := by
  unfold scopes
  rw [List.map_append, List.map_singleton, eraseDups_concat]
  simp only [List.mem_eraseDups]

theorem nodup_scopes (entries : List Entry) : (scopes entries).Nodup := nodup_eraseDups _

theorem addToGroup_of_mem {e : Entry} {scopes : List (List String)} (hnodup : scopes.Nodup)
    (hmem : e.declaration.scope ∈ scopes) (f : List String → List Entry) :
    addToGroup e (scopes.map fun scope => (scope, f scope)) =
      scopes.map fun scope =>
        (scope, f scope ++ if e.declaration.scope = scope then [e] else []) := by
  induction scopes with
  | nil => cases hmem
  | cons scope scopes ih =>
      obtain ⟨hnew, hnodup⟩ := List.nodup_cons.1 hnodup
      rw [List.map_cons, List.map_cons, addToGroup]
      split
      · next heq =>
        rw [if_pos heq.symm]
        refine congrArg (_ :: ·) (List.map_congr_left fun other hother => ?_)
        rw [if_neg, List.append_nil]
        rintro rfl
        exact hnew (heq ▸ hother)
      · next hne =>
        rw [if_neg (Ne.symm hne), List.append_nil]
        refine congrArg (_ :: ·) (ih hnodup ?_)
        exact (List.mem_cons.1 hmem).resolve_left (Ne.symm hne)

theorem addToGroup_of_not_mem {e : Entry} {scopes : List (List String)}
    (hmem : e.declaration.scope ∉ scopes) (f : List String → List Entry) :
    addToGroup e (scopes.map fun scope => (scope, f scope)) =
      (scopes.map fun scope => (scope, f scope)) ++ [(e.declaration.scope, [e])] := by
  induction scopes with
  | nil => rfl
  | cons scope scopes ih =>
      rw [List.mem_cons, not_or] at hmem
      rw [List.map_cons, addToGroup, if_neg (Ne.symm hmem.1), ih hmem.2]
      rfl

theorem entriesIn_append (entries : List Entry) (e : Entry) (scope : List String) :
    entriesIn (entries ++ [e]) scope =
      entriesIn entries scope ++ if e.declaration.scope = scope then [e] else [] := by
  unfold entriesIn
  rw [List.filter_append, List.filter_cons, List.filter_nil]
  simp only [decide_eq_true_eq]

/-- One more entry goes to the end of its group, or makes one at the end. -/
theorem addToGroup_groups (entries : List Entry) (e : Entry) :
    addToGroup e ((scopes entries).map fun scope => (scope, entriesIn entries scope)) =
      (scopes (entries ++ [e])).map fun scope => (scope, entriesIn (entries ++ [e]) scope) := by
  rw [scopes_append]
  split
  · next hmem =>
    rw [addToGroup_of_mem (nodup_scopes entries) hmem]
    exact List.map_congr_left fun scope _ => by rw [entriesIn_append]
  · next hmem =>
    rw [addToGroup_of_not_mem hmem, List.map_append, List.map_singleton]
    have hnone : entriesIn entries e.declaration.scope = [] := by
      refine List.filter_eq_nil_iff.2 fun e' he' heq => hmem ?_
      rw [decide_eq_true_eq] at heq
      rw [← heq]
      exact List.mem_eraseDups.2 (List.mem_map_of_mem he')
    rw [entriesIn_append, hnone, if_pos rfl, List.nil_append]
    refine congrArg (· ++ _) (List.map_congr_left fun scope hscope => ?_)
    rw [entriesIn_append, if_neg, List.append_nil]
    rintro rfl
    exact hmem hscope

/-- **The groups are the namespaces in the order of first appearance**, each with its entries. -/
theorem groups_eq (entries : List Entry) :
    groups entries = (scopes entries).map fun scope => (scope, entriesIn entries scope) := by
  have hfold : ∀ es before : List Entry,
      es.foldl (fun gs e => addToGroup e gs)
          ((scopes before).map fun scope => (scope, entriesIn before scope)) =
        (scopes (before ++ es)).map fun scope => (scope, entriesIn (before ++ es) scope) := by
    intro es
    induction es with
    | nil => exact fun before => by rw [List.foldl_nil, List.append_nil]
    | cons e es ih =>
        intro before
        rw [List.foldl_cons, addToGroup_groups, ih, List.append_assoc, List.singleton_append]
  exact hfold entries []

/-- A group holds entries of the header, under the namespace of one of them. -/
theorem exists_of_mem_groups {entries : List Entry} {g : List String × List Entry}
    (h : g ∈ groups entries) : (∃ e ∈ entries, e.declaration.scope = g.1) ∧ g.2 ⊆ entries := by
  rw [groups_eq] at h
  obtain ⟨scope, hscope, rfl⟩ := List.mem_map.1 h
  exact ⟨List.mem_map.1 (List.mem_eraseDups.1 hscope), List.filter_sublist.subset⟩

/-- Two entries in the same place. -/
abbrev Pair := Entry × Entry

/-- `addToGroup` for pairs, which go by the namespace of their first entries. -/
def addPair (p : Pair) : List (List String × List Pair) → List (List String × List Pair)
  | [] => [(p.1.declaration.scope, [p])]
  | (scope, ps) :: groups =>
    if scope = p.1.declaration.scope then (scope, ps ++ [p]) :: groups
    else (scope, ps) :: addPair p groups

/-- The pairs by namespace. -/
def pairGroups (ps : List Pair) : List (List String × List Pair) :=
  ps.foldl (fun gs p => addPair p gs) []

theorem addToGroup_map {f : Pair → Entry} {p : Pair}
    (h : (f p).declaration.scope = p.1.declaration.scope) (gs : List (List String × List Pair)) :
    addToGroup (f p) (gs.map fun g => (g.1, g.2.map f)) =
      (addPair p gs).map fun g => (g.1, g.2.map f) := by
  induction gs with
  | nil =>
      rw [List.map_nil, addToGroup, addPair, h]
      rfl
  | cons g gs ih =>
      obtain ⟨scope, ps⟩ := g
      rw [List.map_cons, addToGroup, addPair, h]
      split
      · rw [List.map_cons, List.map_append]
        rfl
      · rw [List.map_cons, ih]

/-- The entries on one side of the pairs are grouped as the pairs are. -/
theorem groups_map {f : Pair → Entry} {ps : List Pair}
    (h : ∀ p ∈ ps, (f p).declaration.scope = p.1.declaration.scope) :
    groups (ps.map f) = (pairGroups ps).map fun g => (g.1, g.2.map f) := by
  have hfold : ∀ gs : List (List String × List Pair),
      (ps.map f).foldl (fun gs e => addToGroup e gs) (gs.map fun g => (g.1, g.2.map f)) =
        (ps.foldl (fun gs p => addPair p gs) gs).map fun g => (g.1, g.2.map f) := by
    induction ps with
    | nil => exact fun _ => rfl
    | cons p ps ih =>
        intro gs
        rw [List.forall_mem_cons] at h
        rw [List.map_cons, List.foldl_cons, List.foldl_cons, addToGroup_map h.1]
        exact ih h.2 _
  exact hfold []

theorem mem_addPair {p q : Pair} {gs : List (List String × List Pair)} :
    (∃ g ∈ addPair p gs, q ∈ g.2) ↔ q = p ∨ ∃ g ∈ gs, q ∈ g.2 := by
  induction gs with
  | nil => simp [addPair]
  | cons g gs ih =>
      obtain ⟨scope, ps⟩ := g
      rw [addPair]
      split
      · simp only [List.mem_cons, exists_eq_or_imp, List.mem_append, List.not_mem_nil, or_false]
        constructor
        · rintro ((h | h) | h)
          · exact Or.inr (Or.inl h)
          · exact Or.inl h
          · exact Or.inr (Or.inr h)
        · rintro (h | h | h)
          · exact Or.inl (Or.inr h)
          · exact Or.inl (Or.inl h)
          · exact Or.inr h
      · simp only [List.mem_cons, exists_eq_or_imp, ih]
        exact or_left_comm

theorem mem_pairGroups {ps : List Pair} {p : Pair} :
    (∃ g ∈ pairGroups ps, p ∈ g.2) ↔ p ∈ ps := by
  have hfold : ∀ gs : List (List String × List Pair),
      (∃ g ∈ ps.foldl (fun gs p => addPair p gs) gs, p ∈ g.2) ↔ p ∈ ps ∨ ∃ g ∈ gs, p ∈ g.2 := by
    induction ps with
    | nil => simp
    | cons q ps ih =>
        intro gs
        rw [List.foldl_cons, ih, mem_addPair, List.mem_cons, or_left_comm, or_assoc]
  rw [pairGroups, hfold]
  simp

/-- The lines of a namespace in both headers. -/
theorem eq_of_groupLines {maxValues : Nat} {scope : List String} {ps : List Pair}
    (halike : ∀ p ∈ ps, p.1.Alike p.2) {rest rest' : List Char}
    (h : unlines (groupLines maxValues (scope, ps.map (·.1))) ++ rest =
      unlines (groupLines maxValues (scope, ps.map (·.2))) ++ rest') :
    (∀ p ∈ ps, p.1.lines maxValues = p.2.lines maxValues) ∧ rest = rest' := by
  unfold groupLines at h
  dsimp only at h
  have hmargin : '\n' ∉ (if scope.isEmpty then "" else indent).toList := by
    split <;> decide
  generalize (if scope.isEmpty then "" else indent) = margin at h hmargin
  simp only [unlines_append, List.append_assoc, List.append_right_inj] at h
  generalize unlines (scope.map fun _ => "\x7d") = closing at h
  induction ps with
  | nil => exact ⟨fun _ hp => absurd hp List.not_mem_nil, (List.append_right_inj _).1 h⟩
  | cons p ps ih =>
      rw [List.forall_mem_cons] at halike
      simp only [List.map_cons, List.flatMap_cons, List.map_append, unlines_append,
        List.append_assoc] at h
      obtain ⟨hlines, h⟩ := halike.1.eq_of_lines hmargin h
      obtain ⟨hall, hrest⟩ := ih halike.2 h
      exact ⟨List.forall_mem_cons.2 ⟨hlines, hall⟩, hrest⟩

theorem eq_of_groups {maxValues : Nat} {gs : List (List String × List Pair)}
    (halike : ∀ g ∈ gs, ∀ p ∈ g.2, p.1.Alike p.2)
    (h : unlines ((gs.map fun g => (g.1, g.2.map (·.1))).flatMap (groupLines maxValues)) =
      unlines ((gs.map fun g => (g.1, g.2.map (·.2))).flatMap (groupLines maxValues))) :
    ∀ g ∈ gs, ∀ p ∈ g.2, p.1.lines maxValues = p.2.lines maxValues := by
  induction gs with
  | nil => exact fun _ hg => absurd hg List.not_mem_nil
  | cons g gs ih =>
      rw [List.forall_mem_cons] at halike ⊢
      rw [List.map_cons, List.map_cons, List.flatMap_cons, List.flatMap_cons, unlines_append,
        unlines_append] at h
      obtain ⟨hlines, h⟩ := eq_of_groupLines halike.1 h
      exact ⟨hlines, ih halike.2 h⟩

/-! ## The name of the limits -/

/-- The angle brackets in some lines. -/
def brackets (lines : List String) : Nat := (unlines lines).count '<'

theorem brackets_append (lines lines' : List String) :
    brackets (lines ++ lines') = brackets lines + brackets lines' := by
  rw [brackets, unlines_append, List.count_append]
  rfl

theorem brackets_cons (l : String) (lines : List String) :
    brackets (l :: lines) = l.toList.count '<' + brackets lines := by
  rw [brackets, unlines_cons, List.count_append, List.count_cons_of_ne (by decide)]
  rfl

/-- The angle brackets in some literals. -/
def bracketSum (texts : List String) : Nat := (texts.map fun s => s.toList.count '<').sum

theorem count_intercalate (texts : List String) :
    (String.intercalate ", " texts).toList.count '<' = bracketSum texts := by
  rw [String.toList_intercalate]
  induction texts with
  | nil => rfl
  | cons s texts ih =>
      cases texts with
      | nil => simp [bracketSum]
      | cons next texts =>
          rw [List.map_cons, List.map_cons, List.intercalate_cons_cons, List.count_append,
            List.count_append, ← List.map_cons, ih]
          rfl

theorem brackets_commaLines (lines : List String) :
    brackets (commaLines lines) = brackets lines := by
  fun_induction commaLines lines with
  | case1 => rfl
  | case2 => rfl
  | case3 line next rest ih =>
      rw [brackets_cons, ih, brackets_cons line, String.toList_append, List.count_append]
      rfl

theorem brackets_arrayLines (maxValues : Nat) (head : String) (texts : List String) :
    brackets (arrayLines maxValues head texts) = head.toList.count '<' + bracketSum texts := by
  unfold arrayLines
  split
  · dsimp only
    rw [brackets_cons, String.toList_append, String.toList_append, String.toList_append,
      List.count_append, List.count_append, List.count_append, count_intercalate]
    rfl
  · have hrows : ∀ rows : List (List String),
        brackets (rows.map fun row => indent ++ String.intercalate ", " row) =
          bracketSum rows.flatten := by
      intro rows
      induction rows with
      | nil => rfl
      | cons row rows ih =>
          rw [List.map_cons, brackets_cons, String.toList_append, List.count_append,
            count_intercalate, ih, List.flatten_cons]
          simp [bracketSum, indent]
    dsimp only
    rw [List.append_assoc, List.cons_append, brackets_cons, List.singleton_append, brackets_cons,
      brackets_append, brackets_commaLines, hrows, flatten_pieces]
    simp [brackets, unlines]

theorem needsLimits_eq (e : Entry) : e.needsLimits = decide (0 < bracketSum e.texts) := by
  unfold Entry.needsLimits Entry.texts values
  generalize Elements.ofBytes _ _ = numbers
  induction numbers with
  | nil => rfl
  | cons n numbers ih =>
      have hcount := (Value.regular_of e.declaration.element n).count_eq
      rw [List.map_cons, List.any_cons, ih, List.map_cons]
      simp only [bracketSum, List.map_cons, List.sum_cons, hcount]
      cases (Value.of e.declaration.element n).needsLimits with
      | true =>
          rw [Bool.true_or, if_pos rfl]
          exact (decide_eq_true (by omega)).symm
      | false => simp

/-- Buffers with the same lines both name the limits or neither does. -/
theorem needsLimits_eq_of_lines {e e' : Entry} (h : e.Alike e') {maxValues : Nat}
    (heq : e.lines maxValues = e'.lines maxValues) : e.needsLimits = e'.needsLimits := by
  rw [Entry.lines_eq, Entry.lines_eq, ← h.declaration_eq] at heq
  have hlines := (List.append_inj heq h.comment_length).2
  have hcount := congrArg brackets (List.cons.inj hlines).2
  rw [brackets_arrayLines, brackets_arrayLines, Nat.add_left_cancel_iff] at hcount
  rw [needsLimits_eq, needsLimits_eq, hcount]

/-! ## Headers -/

theorem head?_unlines_groupLines (maxValues : Nat) (gs : List (List String × List Entry)) :
    (unlines (gs.flatMap (groupLines maxValues))).head? ≠ some '#' := by
  cases gs with
  | nil => exact fun h => by cases h
  | cons g gs =>
      rw [List.flatMap_cons, groupLines]
      simp [unlines]

/-- Below the fingerprint both headers include the limits or neither does. -/
theorem unlines_limits_inj {maxValues : Nat} {entries entries' : List Entry}
    (h : unlines (lowerLines maxValues entries) = unlines (lowerLines maxValues entries')) :
    unlines ((groups entries).flatMap (groupLines (max 1 maxValues))) =
      unlines ((groups entries').flatMap (groupLines (max 1 maxValues))) := by
  have hhead := head?_unlines_groupLines (max 1 maxValues) (groups entries)
  have hhead' := head?_unlines_groupLines (max 1 maxValues) (groups entries')
  unfold lowerLines at h
  rw [unlines_append, unlines_append, unlines_append, unlines_append, List.append_assoc,
    List.append_assoc, List.append_right_inj] at h
  split at h
  · split at h
    · exact (List.append_right_inj _).1 h
    · exact absurd ((congrArg List.head? h).symm.trans rfl) hhead'
  · split at h
    · exact absurd ((congrArg List.head? h).trans rfl) hhead
    · exact h

/-- **Two headers are the same exactly when every buffer has the same lines in both.** -/
theorem render_eq_iff {maxValues fingerprint : Nat} {sourceName text text' : String}
    {ps : List Pair} (halike : ∀ p ∈ ps, p.1.Alike p.2)
    (h : render maxValues sourceName fingerprint (ps.map (·.1)) = .ok text)
    (h' : render maxValues sourceName fingerprint (ps.map (·.2)) = .ok text') :
    text = text' ↔ ∀ p ∈ ps, p.1.lines (max 1 maxValues) = p.2.lines (max 1 maxValues) := by
  have hgroups := @groups_map (·.1) ps fun _ _ => rfl
  have hgroups' := @groups_map (·.2) ps fun p hp => by rw [(halike p hp).declaration_eq]
  constructor
  · rintro rfl
    have heq := (toList_render h).symm.trans (toList_render h')
    rw [List.append_right_inj, List.cons.injEq, List.append_right_inj, List.cons.injEq] at heq
    have hbody := unlines_limits_inj heq.2.2
    rw [hgroups, hgroups'] at hbody
    have hall := eq_of_groups (fun g hg p hp => halike p (mem_pairGroups.1 ⟨g, hg, hp⟩)) hbody
    intro p hp
    obtain ⟨g, hg, hp⟩ := mem_pairGroups.2 hp
    exact hall g hg p hp
  · intro hlines
    have hlimits : (ps.map (·.1)).any Entry.needsLimits = (ps.map (·.2)).any Entry.needsLimits := by
      have hall : ∀ p ∈ ps, p.1.needsLimits = p.2.needsLimits := fun p hp =>
        needsLimits_eq_of_lines (halike p hp) (hlines p hp)
      rw [List.any_map, List.any_map, Bool.eq_iff_iff, List.any_eq_true, List.any_eq_true]
      exact exists_congr fun p => and_congr_right fun hp => by
        rw [Function.comp_apply, Function.comp_apply, hall p hp]
    have hbody : (groups (ps.map (·.1))).flatMap (groupLines (max 1 maxValues)) =
        (groups (ps.map (·.2))).flatMap (groupLines (max 1 maxValues)) := by
      rw [hgroups, hgroups', List.flatMap_map, List.flatMap_map, List.flatMap_def, List.flatMap_def]
      refine congrArg List.flatten (List.map_congr_left fun g hg => ?_)
      have hmembers : (g.2.map (·.1)).flatMap (Entry.lines (max 1 maxValues)) =
          (g.2.map (·.2)).flatMap (Entry.lines (max 1 maxValues)) := by
        rw [List.flatMap_map, List.flatMap_map, List.flatMap_def, List.flatMap_def]
        exact congrArg List.flatten (List.map_congr_left fun p hp =>
          hlines p (mem_pairGroups.1 ⟨g, hg, hp⟩))
      simp only [groupLines, hmembers]
    obtain ⟨-, rfl⟩ := render_eq_ok.1 h
    obtain ⟨-, rfl⟩ := render_eq_ok.1 h'
    rw [lowerLines, lowerLines, hlimits, hbody]

end Header

end EmbeddedBuffers
