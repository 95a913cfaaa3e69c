import EmbeddedBuffers.Proofs.Source.Trees

/-!
# Headers of namespaces

Names with double colons between them, and blanks around them, are the names of a header. Main
statement: `Header.read_names`.
-/

namespace EmbeddedBuffers.Source

/-! ## Parts between colons -/

/-- A piece without colons goes on with the part that is open. -/
theorem colonParts_append {w : List Char} (h : ':' ∉ w) (part rest : List Char) :
    colonParts part (w ++ rest) = colonParts (w.reverse ++ part) rest := by
  induction w generalizing part with
  | nil => rfl
  | cons c w ih =>
      simp only [List.mem_cons, not_or] at h
      rw [List.cons_append, colonParts.eq_3 _ _ _ (fun _ hc _ => h.1 hc.symm), ih h.2,
        List.reverse_cons, List.append_assoc]
      rfl

theorem colon_of_isNameChar {w : List Char} (h : ∀ c ∈ w, Text.isNameChar c = true) :
    ':' ∉ w := fun hmem => absurd (h _ hmem) (by decide)

theorem not_isBlank_of_isNameChar {w : List Char} (h : ∀ c ∈ w, Text.isNameChar c = true) :
    ∀ c ∈ w, Text.isBlank c = false :=
  fun c hc => Text.isBlank_of_isNameChar (h c hc)

/-- The name that a part of a header stands for. -/
def partName? (part : List Char) : Option String :=
  (((Text.words part).filter (· ≠ "inline".toList)).getLast?).map String.ofList

theorem headerNames_eq (header : List Char) :
    headerNames header = (colonParts [] header).filterMap partName? := rfl

theorem partName?_of_words {part w : List Char} (h : Text.words part = [w])
    (hw : w ≠ "inline".toList) : partName? part = some (String.ofList w) := by
  rw [partName?, h, List.filter_cons_of_pos (by simpa using hw)]
  rfl

/-- One name, behind a space or not, and before a space or not. -/
theorem partName?_name (n : ScopeName) {before after : List Char}
    (hbefore : before = [] ∨ before = [' ']) (hafter : after = [] ∨ after = [' ']) :
    partName? (before ++ n.text ++ after) = some (String.ofList n.text) := by
  have hblank := not_isBlank_of_isNameChar n.isNameChar
  refine partName?_of_words ?_ n.notInline
  have hword : Text.words (n.text ++ after) = [n.text] := by
    rcases hafter with rfl | rfl
    · rw [List.append_nil, Text.words_word n.ne_nil hblank]
    · rw [Text.words_append_blank n.ne_nil hblank (by decide)]
      rfl
  rcases hbefore with rfl | rfl
  · exact hword
  · rw [List.append_assoc, List.singleton_append, Text.words_blank (by decide), hword]

theorem filterMap_colonParts (names : List ScopeName) {before : List Char}
    (hbefore : before = [] ∨ before = [' ']) :
    (colonParts before.reverse (colonized (names.map (·.text)) ++ [' '])).filterMap partName? =
      names.map fun n => String.ofList n.text := by
  induction names generalizing before with
  | nil => rcases hbefore with rfl | rfl <;> decide
  | cons n names ih =>
      have hcolon := colon_of_isNameChar n.isNameChar
      cases names with
      | nil =>
          rw [List.map_singleton, colonized, colonParts_append hcolon,
            colonParts.eq_3 _ _ _ (by simp), colonParts]
          have := partName?_name n hbefore (Or.inr rfl)
          rw [List.append_assoc] at this
          simp [this]
      | cons n' names =>
          have hrest := ih (Or.inl rfl)
          rw [List.map_cons, List.map_cons, colonized, List.append_assoc,
            colonParts_append hcolon, List.cons_append, List.cons_append, colonParts,
            List.filterMap_cons, ← List.map_cons (f := fun n : ScopeName => n.text)]
          have := partName?_name n hbefore (Or.inl rfl)
          rw [List.append_nil] at this
          rw [List.reverse_append, List.reverse_reverse, List.reverse_reverse, this]
          exact congrArg _ hrest

/-! ## Headers -/

theorem byteChars_of_lt {c : Char} (h : c.toNat < 128) : byteChars c = [c] := by
  have hall : ∀ n < 128, byteChars (Char.ofNat n) = [Char.ofNat n] := by decide
  exact Text.forall_of_lt (p := fun c => byteChars c = [c]) hall h

/-- What may stand in a header before its brace. -/
def isHeaderChar (c : Char) : Bool := Text.isNameChar c || c == ' ' || c == ':'

theorem lt_of_isHeaderChar {c : Char} (h : isHeaderChar c = true) : c.toNat < 128 := by
  simp only [isHeaderChar, Bool.or_eq_true, beq_iff_eq] at h
  rcases h with (h | rfl) | rfl
  · exact Text.lt_of_isNameChar h
  · decide
  · decide

theorem ne_of_isHeaderChar {c : Char} (h : isHeaderChar c = true) :
    c ≠ '/' ∧ c ≠ '\x7b' ∧ c ≠ ';' ∧ c ≠ '=' := by
  refine ⟨?_, ?_, ?_, ?_⟩ <;>
    (rintro rfl
     exact absurd h (by decide))

theorem isHeaderChar_colonized (names : List ScopeName) :
    ∀ c ∈ colonized (names.map (·.text)), isHeaderChar c = true := by
  have hname : ∀ n : ScopeName, ∀ c ∈ n.text, isHeaderChar c = true := by
    intro n c hc
    simp [isHeaderChar, n.isNameChar c hc]
  induction names with
  | nil => exact List.forall_mem_nil _
  | cons n names ih =>
      cases names with
      | nil => exact hname n
      | cons n' names =>
          rw [List.map_cons, List.map_cons, colonized, ← List.map_cons (f := fun n : ScopeName => n.text)]
          refine List.forall_mem_append.2 ⟨hname n, ?_⟩
          exact List.forall_mem_cons.2 ⟨by decide, List.forall_mem_cons.2 ⟨by decide, ih⟩⟩

namespace Header

theorem cons_cons (a b : List Char) (h : Header) : (h.cons b).cons a = h.cons (a ++ b) := by
  cases h <;> simp [cons]

theorem read_append {v : List Char} (hv : ∀ c ∈ v, isHeaderChar c = true)
    (text rest : List Char) :
    read text (v ++ rest) = (read (v.reverse ++ text) rest).cons v := by
  induction v generalizing text with
  | nil =>
      rw [List.nil_append, List.reverse_nil, List.nil_append]
      cases read text rest <;> rfl
  | cons c v ih =>
      obtain ⟨hc, hv⟩ := List.forall_mem_cons.1 hv
      obtain ⟨hslash, hbrace, hsemicolon, hequals⟩ := ne_of_isHeaderChar hc
      have hcomment : comment? (c :: (v ++ rest)) = none :=
        comment?_eq_none fun h => absurd h hslash
      rw [List.cons_append, read.eq_def]
      dsimp only
      split
      · next heq =>
        rw [hcomment] at heq
        cases heq
      · rw [if_neg hbrace, if_neg (by simp [hsemicolon, hequals]),
          byteChars_of_lt (lt_of_isHeaderChar hc), List.reverse_singleton, List.singleton_append,
          ih hv, cons_cons, List.reverse_cons, List.append_assoc]
        rfl

/-- **The names of a block are those in its header.** -/
theorem read_names (names : List ScopeName) (rest : List Char) :
    read [] (' ' :: (colonized (names.map (·.text)) ++ ' ' :: '\x7b' :: rest)) =
      .block (names.map fun n => String.ofList n.text)
        (' ' :: (colonized (names.map (·.text)) ++ [' ', '\x7b'])) rest := by
  have hchars : ∀ c ∈ ' ' :: (colonized (names.map (·.text)) ++ [' ']), isHeaderChar c = true := by
    refine List.forall_mem_cons.2 ⟨by decide, List.forall_mem_append.2 ⟨?_, by decide⟩⟩
    exact isHeaderChar_colonized names
  have hread := read_append hchars [] ('\x7b' :: rest)
  have hnames : headerNames (' ' :: (colonized (names.map (·.text)) ++ [' '])) =
      names.map fun n => String.ofList n.text := by
    rw [headerNames_eq, colonParts.eq_3 _ _ _ (by simp)]
    exact @filterMap_colonParts names [' '] (Or.inr rfl)
  have hbrace : read ((' ' :: (colonized (names.map (·.text)) ++ [' '])).reverse ++ [])
      ('\x7b' :: rest) = .block (names.map fun n => String.ofList n.text) ['\x7b'] rest := by
    rw [read.eq_def]
    dsimp only
    split
    · next heq =>
      rw [comment?_eq_none (by simp)] at heq
      cases heq
    · rw [if_pos rfl, List.append_nil, List.reverse_reverse, hnames]
  rw [hbrace] at hread
  simpa [cons] using hread

end Header

end EmbeddedBuffers.Source
