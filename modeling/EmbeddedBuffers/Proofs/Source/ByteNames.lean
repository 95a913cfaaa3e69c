import EmbeddedBuffers.Proofs.Source.Headers
import EmbeddedBuffers.Proofs.Source.Spellings

/-!
# Names read byte by byte

The header of a namespace is read byte by byte, each byte as the character of that number. ASCII
stays what it is; any other character becomes two or more, some of which may be blanks. So the name
that a part of a header stands for is the one that is written there if that is ASCII and nothing but
a blank stands directly in front of it, and only then. Main statement: `partName?_eq_some_iff`.
-/

namespace EmbeddedBuffers

namespace Text

/-! ## Words -/

/-- A blank ends a word. -/
theorem words_append_of_blank (s : List Char) {c : Char} (hc : isBlank c = true)
    (rest : List Char) : words (s ++ c :: rest) = words s ++ words rest := by
  have haux : ∀ acc, wordsAux isBlank (s ++ c :: rest) acc =
      wordsAux isBlank s acc ++ wordsAux isBlank rest [] := by
    induction s with
    | nil =>
        intro acc
        rw [List.nil_append, wordsAux, wordsAux, if_pos hc]
        split <;> rfl
    | cons d s ih =>
        intro acc
        rw [List.cons_append, wordsAux, wordsAux, ih, ih]
        split
        · split <;> rfl
        · rfl
  exact haux []

theorem words_blanks {s : List Char} (h : ∀ c ∈ s, isBlank c = true) : words s = [] := by
  induction s with
  | nil => rfl
  | cons c s ih =>
      obtain ⟨hc, hs⟩ := List.forall_mem_cons.1 h
      rw [words_blank hc, ih hs]

/-- The last word, with a blank or nothing in front of it. -/
theorem words_last {before w after : List Char} (hbefore : ∀ c ∈ before.getLast?, isBlank c = true)
    (hne : w ≠ []) (hw : ∀ c ∈ w, isBlank c = false) (hafter : ∀ c ∈ after, isBlank c = true) :
    words (before ++ w ++ after) = words before ++ [w] := by
  have hword : words (w ++ after) = [w] := by
    cases after with
    | nil => rw [List.append_nil, words_word hne hw]
    | cons c after =>
        obtain ⟨hc, hafter⟩ := List.forall_mem_cons.1 hafter
        rw [words_append_blank hne hw hc, words_blanks hafter]
  rcases List.eq_nil_or_concat before with rfl | ⟨before, c, rfl⟩
  · exact hword
  · have hc : isBlank c = true := hbefore c (by simp)
    rw [List.append_assoc, List.concat_eq_append, List.append_assoc, List.singleton_append,
      words_append_of_blank _ hc, words_append_of_blank _ hc, hword]
    show _ = words before ++ [] ++ [w]
    rw [List.append_nil]

/-- A text ends with a run without blanks, in front of which is a blank or nothing. -/
theorem exists_run (s : List Char) : ∃ before run, s = before ++ run ∧
    (∀ c ∈ before.getLast?, isBlank c = true) ∧ ∀ c ∈ run, isBlank c = false := by
  induction s using List.reverseRecOn with
  | nil => exact ⟨[], [], rfl, by simp, by simp⟩
  | append_singleton s c ih =>
      cases hc : isBlank c with
      | true => exact ⟨s ++ [c], [], by simp, by simpa using hc, by simp⟩
      | false =>
          obtain ⟨before, run, rfl, hbefore, hrun⟩ := ih
          refine ⟨before, run ++ [c], by simp, hbefore, ?_⟩
          exact List.forall_mem_append.2 ⟨hrun, by simpa using hc⟩

/-- The characters of the words are those that are no blanks. -/
theorem exists_mem_words_iff {s : List Char} {c : Char} :
    (∃ w ∈ words s, c ∈ w) ↔ c ∈ s ∧ isBlank c = false := by
  have haux : ∀ acc, (∃ w ∈ wordsAux isBlank s acc, c ∈ w) ↔
      c ∈ acc ∨ c ∈ s ∧ isBlank c = false := by
    induction s with
    | nil =>
        intro acc
        cases acc <;> simp [wordsAux, or_comm]
    | cons d s ih =>
        intro acc
        rw [wordsAux]
        cases hd : isBlank d with
        | true =>
            have hne : isBlank c = false → c ≠ d := fun hc heq => by
              rw [heq, hd] at hc
              cases hc
            have hcons : c ∈ d :: s ∧ isBlank c = false ↔ c ∈ s ∧ isBlank c = false := by
              refine and_congr_left fun hc => ?_
              rw [List.mem_cons, or_iff_right (hne hc)]
            rw [if_pos rfl, hcons]
            cases acc with
            | nil =>
                rw [List.isEmpty_nil, if_pos rfl]
                exact ih []
            | cons e acc =>
                rw [List.isEmpty_cons, if_neg Bool.false_ne_true]
                simp only [List.mem_cons, exists_eq_or_imp, ih, List.mem_reverse,
                  List.not_mem_nil, false_or]
        | false =>
            rw [if_neg Bool.false_ne_true, ih, List.mem_cons, List.mem_cons]
            constructor
            · rintro ((rfl | hacc) | hs)
              · exact .inr ⟨.inl rfl, hd⟩
              · exact .inl hacc
              · exact .inr ⟨.inr hs.1, hs.2⟩
            · rintro (hacc | ⟨rfl | hs, hc⟩)
              · exact .inl (.inr hacc)
              · exact .inl (.inl rfl)
              · exact .inr ⟨hs, hc⟩
  rw [words, haux, or_iff_right List.not_mem_nil]

end Text

namespace Source

/-! ## Bytes as characters -/

/-- The bytes of a text, each as the character of that number. -/
def bytes (s : List Char) : List Char := s.flatMap byteChars

theorem bytes_append (s t : List Char) : bytes (s ++ t) = bytes s ++ bytes t := List.flatMap_append

theorem bytes_cons (c : Char) (s : List Char) : bytes (c :: s) = byteChars c ++ bytes s :=
  List.flatMap_cons

theorem bytes_of_ascii {s : List Char} (h : ∀ c ∈ s, c.toNat < 128) : bytes s = s := by
  induction s with
  | nil => rfl
  | cons c s ih =>
      obtain ⟨hc, hs⟩ := List.forall_mem_cons.1 h
      rw [bytes_cons, byteChars_of_lt hc, ih hs]
      rfl

theorem toNat_byte {n : Nat} (h : n < 256) : (Char.ofNat (UInt8.ofNat n).toNat).toNat = n := by
  have hvalid : n.isValidChar := .inl (Nat.lt_trans h (by decide))
  rw [UInt8.toNat_ofNat', Nat.mod_eq_of_lt h, Char.ofNat, dif_pos hvalid]
  rfl

/-- A character beyond ASCII becomes one that is no blank, of the byte that leads, and others. -/
theorem exists_byteChars {c : Char} (h : 128 ≤ c.toNat) :
    ∃ lead more, byteChars c = lead :: more ∧ more ≠ [] ∧ 192 ≤ lead.toNat ∧ lead.toNat < 256 ∧
      ∀ d ∈ more, 128 ≤ d.toNat ∧ d.toNat < 256 := by
  have hval : c.val.toNat = c.toNat := rfl
  unfold byteChars String.utf8EncodeChar
  rw [hval]
  dsimp only
  rw [if_neg (by omega)]
  -- A case for each number of bytes.
  split
  · refine ⟨_, _, rfl, List.cons_ne_nil _ _, ?_⟩
    simp (disch := omega) only [List.map_cons, List.map_nil, List.forall_mem_cons, toNat_byte]
    exact ⟨by omega, by omega, by omega, List.forall_mem_nil _⟩
  split
  · refine ⟨_, _, rfl, List.cons_ne_nil _ _, ?_⟩
    simp (disch := omega) only [List.map_cons, List.map_nil, List.forall_mem_cons, toNat_byte]
    exact ⟨by omega, by omega, by omega, by omega, List.forall_mem_nil _⟩
  · refine ⟨_, _, rfl, List.cons_ne_nil _ _, ?_⟩
    simp (disch := omega) only [List.map_cons, List.map_nil, List.forall_mem_cons, toNat_byte]
    exact ⟨by omega, by omega, by omega, by omega, by omega, List.forall_mem_nil _⟩

/-- What becomes of a character of the first 256 beyond ASCII. -/
theorem mem_byteChars {c d : Char} (h : 128 ≤ c.toNat) (h' : c.toNat < 256)
    (hd : d ∈ byteChars c) : d.toNat = c.toNat / 64 + 192 ∨ d.toNat = c.toNat % 64 + 128 := by
  have hval : c.val.toNat = c.toNat := rfl
  unfold byteChars String.utf8EncodeChar at hd
  rw [hval] at hd
  dsimp only at hd
  rw [if_neg (by omega), if_pos (by omega)] at hd
  simp only [List.map_cons, List.map_nil, List.mem_cons, List.not_mem_nil, or_false] at hd
  rcases hd with rfl | rfl
  · left
    rw [toNat_byte (by omega)]
    omega
  · right
    rw [toNat_byte (by omega)]

/-- The blanks among the first 256 characters. -/
theorem isBlank_iff {c : Char} (h : c.toNat < 256) : Text.isBlank c = true ↔
    9 ≤ c.toNat ∧ c.toNat ≤ 13 ∨ c.toNat = 32 ∨ c.toNat = 133 ∨ c.toNat = 160 := by
  unfold Text.isBlank
  simp only [Bool.or_eq_true, Bool.and_eq_true, decide_eq_true_eq, beq_iff_eq]
  omega

/-- What may stand in a name: a character of a name in ASCII, or anything beyond ASCII. -/
def isNamingChar (c : Char) : Bool := Text.isNameChar c || 128 ≤ c.toNat

variable {name : List Char}

theorem mem_bytes {d : Char} {s : List Char} : d ∈ bytes s ↔ ∃ c ∈ s, d ∈ byteChars c :=
  List.mem_flatMap

theorem length_le_length_bytes (s : List Char) : s.length ≤ (bytes s).length := by
  induction s with
  | nil => exact Nat.le_refl 0
  | cons c s ih =>
      have hone : 1 ≤ (byteChars c).length := by
        rw [byteChars, List.length_map, String.length_utf8EncodeChar]
        exact Char.utf8Size_pos c
      rw [bytes_cons, List.length_append, List.length_cons]
      omega

/-- A name that is not in ASCII has more bytes than characters. -/
theorem length_lt_length_bytes (h : ∃ c ∈ name, 128 ≤ c.toNat) :
    name.length < (bytes name).length := by
  obtain ⟨c, hc, hge⟩ := h
  obtain ⟨before, after, rfl⟩ := List.append_of_mem hc
  obtain ⟨lead, more, heq, hmore, -⟩ := exists_byteChars hge
  have hpos := List.length_pos_iff.2 hmore
  have hbefore := length_le_length_bytes before
  have hafter := length_le_length_bytes after
  rw [bytes_append, bytes_cons, heq]
  simp only [List.length_append, List.length_cons]
  omega

/-- A byte beyond ASCII belongs to a character beyond ASCII. -/
theorem le_of_mem_bytes {c d : Char} (hd : d ∈ byteChars c) (hge : 128 ≤ d.toNat) :
    128 ≤ c.toNat := by
  by_contra hlt
  rw [byteChars_of_lt (Nat.lt_of_not_le hlt), List.mem_singleton] at hd
  exact hlt (hd ▸ hge)

/-- A byte of ASCII is the character itself. -/
theorem eq_of_mem_byteChars {c d : Char} (hd : d ∈ byteChars c) (hlt : d.toNat < 128) : d = c := by
  by_cases hge : 128 ≤ c.toNat
  · obtain ⟨lead, more, heq, -, hlead, -, hmore⟩ := exists_byteChars hge
    rw [heq] at hd
    rcases List.mem_cons.1 hd with rfl | hd
    · omega
    · have := (hmore d hd).1
      omega
  · rw [byteChars_of_lt (Nat.lt_of_not_le hge)] at hd
    exact List.mem_singleton.1 hd

theorem toNat_lt_of_mem_byteChars {c d : Char} (hd : d ∈ byteChars c) : d.toNat < 256 := by
  by_cases hge : 128 ≤ c.toNat
  · obtain ⟨lead, more, heq, -, -, hlead, hmore⟩ := exists_byteChars hge
    rw [heq] at hd
    rcases List.mem_cons.1 hd with rfl | hd
    · exact hlead
    · exact (hmore d hd).2
  · rw [byteChars_of_lt (Nat.lt_of_not_le hge), List.mem_singleton] at hd
    rw [hd]
    omega

/-- Where a name is made of its own bytes, those have no blanks that it does not have itself. -/
theorem not_isBlank_bytes (hblank : ∀ c ∈ name, Text.isBlank c = false)
    (hown : ∀ c ∈ name, 128 ≤ c.toNat → c ∈ bytes name) :
    ∀ d ∈ bytes name, Text.isBlank d = false := by
  -- Its characters are bytes, so those beyond ASCII lead with C2 or C3 and are no others.
  have hbyte : ∀ c ∈ name, c.toNat < 256 := by
    intro c hc
    by_cases hge : 128 ≤ c.toNat
    · obtain ⟨c', -, hmem⟩ := mem_bytes.1 (hown c hc hge)
      exact toNat_lt_of_mem_byteChars hmem
    · omega
  have hfirst : ∀ c ∈ name, c.toNat < 196 := by
    intro c hc
    by_cases hge : 128 ≤ c.toNat
    · obtain ⟨c', hc', hmem⟩ := mem_bytes.1 (hown c hc hge)
      have hlt := hbyte c' hc'
      rcases mem_byteChars (le_of_mem_bytes hmem hge) hlt hmem with heq | heq <;> omega
    · omega
  intro d hd
  obtain ⟨c, hc, hmem⟩ := mem_bytes.1 hd
  have hc196 := hfirst c hc
  by_cases hge : 128 ≤ c.toNat
  · have hnone := hblank c hc
    rw [Bool.eq_false_iff, Ne, isBlank_iff (hbyte c hc)] at hnone
    rw [Bool.eq_false_iff, Ne, isBlank_iff (toNat_lt_of_mem_byteChars hmem)]
    rcases mem_byteChars hge (hbyte c hc) hmem with heq | heq <;> omega
  · rw [byteChars_of_lt (Nat.lt_of_not_le hge), List.mem_singleton] at hmem
    rw [hmem]
    exact hblank c hc

/-! ## Names in their parts -/

theorem isSome_partName? {part w : List Char} (hmem : w ∈ Text.words part)
    (hne : w ≠ "inline".toList) : (partName? part).isSome = true := by
  have hfilter : w ∈ (Text.words part).filter (· ≠ "inline".toList) :=
    List.mem_filter.2 ⟨hmem, decide_eq_true hne⟩
  rw [partName?, Option.isSome_map, List.getLast?_isSome]
  exact List.ne_nil_of_mem hfilter

/-- A character that is no blank and not in the word `inline` gives a part a name. -/
theorem isSome_partName?_of_mem {part : List Char} {c : Char} (hc : c ∈ part)
    (hblank : Text.isBlank c = false) (hinline : c ∉ "inline".toList) :
    (partName? part).isSome = true := by
  obtain ⟨w, hw, hmem⟩ := Text.exists_mem_words_iff.2 ⟨hc, hblank⟩
  exact isSome_partName? hw fun heq => hinline (heq ▸ hmem)

theorem partName?_of_last {part w : List Char} {ws : List (List Char)}
    (h : Text.words part = ws ++ [w]) (hw : w ≠ "inline".toList) :
    partName? part = some (String.ofList w) := by
  have hfilter : [w].filter (· ≠ "inline".toList) = [w] :=
    List.filter_cons_of_pos (decide_eq_true hw)
  rw [partName?, h, List.filter_append, hfilter, List.getLast?_concat]
  rfl

theorem mem_words_of_partName? {part w : List Char} (h : partName? part = some (String.ofList w)) :
    w ∈ Text.words part := by
  obtain ⟨w', hlast, heq⟩ := Option.map_eq_some_iff.1 h
  rw [← String.ofList_injective heq]
  exact (List.mem_filter.1 (List.mem_of_getLast? hlast)).1

/-- What may stand directly in front of a name: nothing at all, a blank, the bracket that closes an
attribute, or the word `inline`; `front` is what stands in front of that. -/
inductive Stands : (front stop : List Char) → Prop
  | start : Stands [] []
  | blank {front : List Char} {c : Char} (hc : Text.isBlank c = true) (ascii : c.toNat < 128) :
      Stands front [c]
  | bracket {front : List Char} : Stands front [']']
  | inline {front : List Char} : Stands front "inline".toList

variable {front stop after : List Char}

theorem Stands.ascii (h : Stands front stop) : ∀ c ∈ stop, c.toNat < 128 := by
  cases h with
  | start => exact List.forall_mem_nil _
  | blank hc hascii => exact List.forall_mem_singleton.2 hascii
  | bracket => decide
  | inline => decide

theorem Stands.not_mem_colon (h : Stands front stop) : ':' ∉ stop := by
  cases h with
  | start => exact List.not_mem_nil
  | blank hc => exact fun hmem => absurd (List.mem_singleton.1 hmem ▸ hc) (by decide)
  | bracket => decide
  | inline => decide

/-- Another text may stand further in front, if there is anything in front. -/
theorem Stands.of_front (h : Stands front stop) {front' : List Char}
    (hnil : front = [] → front' = []) : Stands front' stop := by
  cases h with
  | start => exact hnil rfl ▸ .start
  | blank hc hascii => exact .blank hc hascii
  | bracket => exact .bracket
  | inline => exact .inline

/-- What ends the text in front of a name is a blank or nothing exactly if the stop is. -/
theorem Stands.getLast? (h : Stands front stop) :
    (∀ c ∈ (front ++ stop).getLast?, Text.isBlank c = true) ↔
      ∀ c ∈ stop, Text.isBlank c = true := by
  cases h with
  | start => simp
  | blank hc => simp
  | bracket => simp
  | inline =>
      refine iff_of_false (fun h => ?_) (by decide)
      exact absurd (h 'e' (by simp)) (by decide)

/-- The run in front of a name is empty exactly behind a blank or nothing, and no run makes the word
`inline` of a name that is another one. -/
theorem Stands.run (h : Stands front stop) {before run : List Char}
    (heq : front ++ stop = before ++ run)
    (hbefore : ∀ c ∈ before.getLast?, Text.isBlank c = true)
    (hrun : ∀ c ∈ run, Text.isBlank c = false) :
    (run = [] ↔ ∀ c ∈ stop, Text.isBlank c = true) ∧
      ∀ v, v ≠ [] → v ≠ "inline".toList → run ++ v ≠ "inline".toList := by
  -- A stop that is no blank stands in the run.
  have hsuffix : ∀ {w : List Char}, w ≠ [] → (∀ c ∈ w, Text.isBlank c = false) → stop = w →
      ∃ x, run = x ++ w := by
    intro w hne hw hstop
    subst hstop
    rcases List.append_eq_append_iff.1 heq with ⟨x, hx, hsplit⟩ | ⟨x, hx, hsplit⟩
    · rcases List.eq_nil_or_concat x with rfl | ⟨x, d, rfl⟩
      · exact ⟨[], by rw [hsplit]; rfl⟩
      · have hd : Text.isBlank d = true := hbefore d (by rw [hx]; simp)
        have hd' := hw d (by rw [hsplit]; simp)
        rw [hd] at hd'
        cases hd'
    · exact ⟨x, hsplit⟩
  cases h with
  | start =>
      obtain ⟨-, rfl⟩ := List.append_eq_nil_iff.1 heq.symm
      exact ⟨by simp, fun v _ hv => hv⟩
  | @blank front c hc hascii =>
      have hnil : run = [] := by
        rcases List.eq_nil_or_concat run with rfl | ⟨x, d, rfl⟩
        · rfl
        · rw [List.concat_eq_append, ← List.append_assoc] at heq
          obtain ⟨-, hcd⟩ := List.append_inj' heq rfl
          have hd := hrun d (by simp)
          rw [← List.singleton_inj.1 hcd, hc] at hd
          cases hd
      subst hnil
      exact ⟨by simpa using hc, fun v _ hv => hv⟩
  | bracket =>
      obtain ⟨x, rfl⟩ := hsuffix (List.cons_ne_nil _ _) (by decide) rfl
      refine ⟨by simp; decide, fun v _ _ heq => ?_⟩
      have hmem : ']' ∈ "inline".toList := by
        rw [← heq]
        simp
      exact absurd hmem (by decide)
  | inline =>
      obtain ⟨x, rfl⟩ := hsuffix (by decide) (by decide) rfl
      refine ⟨by simp; decide, fun v hv _ heq => ?_⟩
      have hlength := congrArg List.length heq
      have hpos := List.length_pos_iff.2 hv
      simp only [List.length_append] at hlength
      omega

/-- A name in its part of a header, as the header is read. -/
structure Placed (front stop name after : List Char) : Prop where
  stands : Stands front stop
  ne_nil : name ≠ []
  chars : ∀ c ∈ name, isNamingChar c = true
  notInline : name ≠ "inline".toList
  after : ∀ c ∈ after, Text.isBlank c = true

/-- A name that is not in ASCII has a byte that leads. -/
theorem exists_lead (h : ¬∀ c ∈ name, c.toNat < 128) :
    ∃ d ∈ bytes name, 128 ≤ d.toNat ∧ Text.isBlank d = false := by
  push Not at h
  obtain ⟨c, hc, hge⟩ := h
  obtain ⟨lead, more, heq, -, hlead, hlt, -⟩ := exists_byteChars hge
  refine ⟨lead, mem_bytes.2 ⟨c, hc, heq ▸ List.mem_cons_self⟩, by omega, ?_⟩
  rw [Bool.eq_false_iff, Ne, isBlank_iff hlt]
  omega

theorem not_mem_inline {d : Char} (h : 128 ≤ d.toNat) : d ∉ "inline".toList := by
  have hall : ∀ c ∈ "inline".toList, c.toNat < 128 := by decide
  exact fun hmem => Nat.not_lt.2 h (hall d hmem)

theorem Placed.bytes_ne (h : Placed front stop name after) :
    bytes name ≠ [] ∧ bytes name ≠ "inline".toList := by
  by_cases hascii : ∀ c ∈ name, c.toNat < 128
  · rw [bytes_of_ascii hascii]
    exact ⟨h.ne_nil, h.notInline⟩
  · obtain ⟨d, hd, hge, -⟩ := exists_lead hascii
    exact ⟨List.ne_nil_of_mem hd, fun heq => not_mem_inline hge (heq ▸ hd)⟩

theorem Placed.not_isBlank (h : Placed front stop name after)
    (hascii : ∀ c ∈ name, c.toNat < 128) : ∀ c ∈ bytes name, Text.isBlank c = false := by
  rw [bytes_of_ascii hascii]
  intro c hc
  have hchar := h.chars c hc
  have hlt := hascii c hc
  rw [isNamingChar, Bool.or_eq_true, decide_eq_true_eq] at hchar
  exact Text.isBlank_of_isNameChar (hchar.resolve_right (by omega))

/-- The last word of the part is what stands directly in front of the name, and the name. -/
theorem Placed.words (h : Placed front stop name after)
    (hblank : ∀ c ∈ bytes name, Text.isBlank c = false) :
    ∃ ws run, Text.words (front ++ stop ++ bytes name ++ after) = ws ++ [run ++ bytes name] ∧
      run ++ bytes name ≠ "inline".toList ∧ (run = [] ↔ ∀ c ∈ stop, Text.isBlank c = true) := by
  obtain ⟨before, run, heq, hbefore, hrun⟩ := Text.exists_run (front ++ stop)
  obtain ⟨hnil, hinline⟩ := h.stands.run heq hbefore hrun
  obtain ⟨hne, hname⟩ := h.bytes_ne
  refine ⟨Text.words before, run, ?_, hinline _ hne hname, hnil⟩
  rw [heq, List.append_assoc before,
    Text.words_last hbefore (List.append_ne_nil_of_right_ne_nil _ hne)
      (List.forall_mem_append.2 ⟨hrun, hblank⟩) h.after]

/-- A part with a name in it stands for some name. -/
theorem Placed.isSome (h : Placed front stop name after) :
    (partName? (front ++ stop ++ bytes name ++ after)).isSome = true := by
  by_cases hascii : ∀ c ∈ name, c.toNat < 128
  · obtain ⟨ws, run, hwords, hinline, -⟩ := h.words (h.not_isBlank hascii)
    exact isSome_partName? (hwords ▸ List.mem_append_right _ List.mem_cons_self) hinline
  · obtain ⟨d, hd, hge, hblank⟩ := exists_lead hascii
    exact isSome_partName?_of_mem (by simp [hd]) hblank (not_mem_inline hge)

/-- **The name that a part stands for is the one that is written in it exactly if that is in ASCII
and nothing but a blank stands directly in front of it.** -/
theorem Placed.partName?_eq_some_iff (h : Placed front stop name after)
    (hfront : ∀ c ∈ front, c.toNat < 128) (hafter : ∀ c ∈ after, c.toNat < 128) :
    partName? (front ++ stop ++ bytes name ++ after) = some (String.ofList name) ↔
      (∀ c ∈ name, c.toNat < 128) ∧ ∀ c ∈ stop, Text.isBlank c = true := by
  constructor
  · intro hname
    obtain ⟨-, hnone⟩ := Text.ne_nil_of_mem_words (mem_words_of_partName? hname)
    have hown : ∀ c ∈ name, 128 ≤ c.toNat → c ∈ bytes name := by
      intro c hc hge
      obtain ⟨hmem, -⟩ := Text.exists_mem_words_iff.1 ⟨name, mem_words_of_partName? hname, hc⟩
      have hstop := h.stands.ascii
      rcases List.mem_append.1 hmem with hmem | hmem
      · rcases List.mem_append.1 hmem with hmem | hmem
        · have hlt := List.forall_mem_append.2 ⟨hfront, hstop⟩ c hmem
          omega
        · exact hmem
      · have hlt := hafter c hmem
        omega
    obtain ⟨ws, run, hwords, hinline, hrun⟩ := h.words (not_isBlank_bytes hnone hown)
    rw [partName?_of_last hwords hinline] at hname
    have heq : run ++ bytes name = name := String.ofList_injective (Option.some.inj hname)
    have hlength := congrArg List.length heq
    rw [List.length_append] at hlength
    refine ⟨?_, hrun.1 ?_⟩
    · by_contra hascii
      push Not at hascii
      have hlt := length_lt_length_bytes hascii
      omega
    · have hle := length_le_length_bytes name
      exact List.length_eq_zero_iff.1 (by omega)
  · rintro ⟨hascii, hstop⟩
    obtain ⟨ws, run, hwords, hinline, hrun⟩ := h.words (h.not_isBlank hascii)
    rw [partName?_of_last hwords hinline, hrun.2 hstop, List.nil_append, bytes_of_ascii hascii]

end Source

end EmbeddedBuffers
