import EmbeddedBuffers.Font.Variable
import EmbeddedBuffers.Proofs.Slices

/-!
# The table of a variable font

The data of a variable font are read by their own table: the entry of a glyph tells where it ends,
the entry in front of it where it starts. What is written for some glyphs gives these glyphs back,
and it is written exactly if they are shorter than `2 ^ 16` bytes in all. Main statements:
`holds_of_variableData` and `exists_variableData_iff`.
-/

namespace EmbeddedBuffers.Font

/-! ## Reading -/

/-- An entry of the table, two bytes with the high one first. -/
def tableEntry (bytes : List UInt8) (i : Nat) : Nat :=
  (bytes.getD (2 * i) 0).toNat * 256 + (bytes.getD (2 * i + 1) 0).toNat

/-- Where a glyph starts in the data: the first one at once, any other where the one in front of
it ends. -/
def offset (bytes : List UInt8) : Nat → Nat
  | 0 => 0
  | i + 1 => tableEntry bytes i

/-- The data of a glyph, of which the table has `count`. -/
def slice (bytes : List UInt8) (count i : Nat) : List UInt8 :=
  (bytes.drop (2 * count + offset bytes i)).take (offset bytes (i + 1) - offset bytes i)

/-- The table describes some glyphs: it has an entry for each, the entries never decrease, the last
one is the length of the data, and the data between an entry and the next are the glyph. -/
structure Holds (bytes : List UInt8) (glyphs : List (List UInt8)) : Prop where
  length_eq : bytes.length = 2 * glyphs.length + offset bytes glyphs.length
  ordered : ∀ i < glyphs.length, offset bytes i ≤ offset bytes (i + 1)
  slice_eq : ∀ i (hi : i < glyphs.length), slice bytes glyphs.length i = glyphs[i]

/-! ## Writing -/

variable {glyphs : List Glyph} {bytes : List UInt8} {i : Nat}

/-- Number of bytes of the first glyphs. -/
def reach (glyphs : List Glyph) (count : Nat) : Nat :=
  ((glyphs.take count).flatMap Glyph.bytes).length

theorem Glyph.length_bytes (g : Glyph) : g.bytes.length = g.size := by
  cases g with
  | inked bytes => rfl
  | blank n => exact List.length_replicate

theorem reach_cons (g : Glyph) (glyphs : List Glyph) (count : Nat) :
    reach (g :: glyphs) (count + 1) = g.size + reach glyphs count := by
  rw [reach, List.take_succ_cons, List.flatMap_cons, List.length_append, g.length_bytes, reach]

theorem reach_succ (hi : i < glyphs.length) :
    reach glyphs (i + 1) = reach glyphs i + glyphs[i].bytes.length := by
  rw [reach, List.take_succ_eq_append_getElem hi, List.flatMap_append, List.length_append,
    List.flatMap_singleton, reach]

theorem reach_length (glyphs : List Glyph) :
    reach glyphs glyphs.length = (glyphs.flatMap Glyph.bytes).length := by
  rw [reach, List.take_length]

theorem reach_le (glyphs : List Glyph) (count : Nat) :
    reach glyphs count ≤ reach glyphs glyphs.length := by
  conv_rhs => rw [reach_length, ← List.take_append_drop count glyphs]
  rw [List.flatMap_append, List.length_append]
  exact Nat.le_add_right _ _

/-- A glyph ends behind all the glyphs up to it. -/
theorem ends_eq (start : Nat) (glyphs : List Glyph) :
    ends start glyphs = (List.range glyphs.length).map fun i => start + reach glyphs (i + 1) := by
  induction glyphs generalizing start with
  | nil => rfl
  | cons g glyphs ih =>
      rw [ends, ih, List.length_cons, List.range_succ_eq_map, List.map_cons, List.map_map, reach_cons]
      refine congrArg₂ _ rfl (List.map_congr_left fun i _ => ?_)
      rw [Function.comp_apply, reach_cons, Nat.add_assoc]

/-- An entry that is written is read back. -/
theorem tableEntry_flatMap {words : List Nat} (hi : i < words.length) (hsmall : words[i] < 2 ^ 16)
    (rest : List UInt8) : tableEntry (words.flatMap wordBytes ++ rest) i = words[i] := by
  induction words generalizing i with
  | nil => exact absurd hi (Nat.not_lt_zero i)
  | cons word words ih =>
      cases i with
      | zero =>
          have hword : word < 2 ^ 16 := hsmall
          show (UInt8.ofNat (word / 256)).toNat * 256 + (UInt8.ofNat word).toNat = word
          rw [UInt8.toNat_ofNat', UInt8.toNat_ofNat']
          omega
      | succ i =>
          -- An entry further on, the table starts two bytes later.
          exact ih (Nat.lt_of_succ_lt_succ hi) hsmall

theorem length_flatMap_wordBytes (words : List Nat) :
    (words.flatMap wordBytes).length = 2 * words.length := by
  rw [List.length_flatMap]
  show (words.map fun _ => 2).sum = 2 * words.length
  rw [List.map_const', List.sum_replicate_nat, Nat.mul_comm]

/-- Data are written exactly if the table reaches as far as they do. -/
theorem variableData_eq_ok : variableData glyphs = .ok bytes ↔
    reach glyphs glyphs.length < 2 ^ 16 ∧
      bytes = (ends 0 glyphs).flatMap wordBytes ++ glyphs.flatMap Glyph.bytes := by
  have hsmall : (ends 0 glyphs).find? (2 ^ 16 ≤ ·) = none ↔
      reach glyphs glyphs.length < 2 ^ 16 := by
    simp only [List.find?_eq_none, ends_eq, List.mem_map, List.mem_range, decide_eq_true_eq,
      Nat.not_le, Nat.zero_add, forall_exists_index, and_imp, forall_apply_eq_imp_iff₂]
    constructor
    · intro h
      cases hlength : glyphs.length with
      | zero => exact Nat.two_pow_pos 16
      | succ n => exact h n (by omega)
    · exact fun h i _ => Nat.lt_of_le_of_lt (reach_le glyphs (i + 1)) h
  unfold variableData
  cases hfind : (ends 0 glyphs).find? (2 ^ 16 ≤ ·) with
  | none => simp only [Except.ok.injEq, ← hsmall, hfind, true_and, eq_comm]
  | some tooFar =>
      refine iff_of_false (fun h => by cases h) fun h => ?_
      rw [hsmall.2 h.1] at hfind
      cases hfind

/-- There are data exactly if the glyphs have fewer than `2 ^ 16` bytes. -/
theorem exists_variableData_iff :
    (∃ bytes, variableData glyphs = .ok bytes) ↔ (glyphs.flatMap Glyph.bytes).length < 2 ^ 16 := by
  simp only [variableData_eq_ok, exists_and_left, exists_eq, and_true, reach_length]

/-- What is told instead is where the first glyph ends that the table does not reach. -/
theorem exists_of_variableData_eq_error {tooFar : Nat} (h : variableData glyphs = .error tooFar) :
    ∃ n < glyphs.length, reach glyphs n < 2 ^ 16 ∧ 2 ^ 16 ≤ reach glyphs (n + 1) ∧
      tooFar = reach glyphs (n + 1) := by
  have hfind : (ends 0 glyphs).find? (2 ^ 16 ≤ ·) = some tooFar := by
    unfold variableData at h
    split at h
    · next hfind =>
      cases h
      exact hfind
    · cases h
  rw [ends_eq, List.find?_map] at hfind
  obtain ⟨n, hn, rfl⟩ := Option.map_eq_some_iff.1 hfind
  obtain ⟨hfar, hlt, hnear⟩ := List.find?_range_eq_some.1 hn
  simp only [Function.comp_apply, Nat.zero_add, decide_eq_true_eq, Bool.not_eq_true',
    decide_eq_false_iff_not, Nat.not_le] at hfar hnear
  refine ⟨n, List.mem_range.1 hlt, ?_, hfar, Nat.zero_add _⟩
  cases n with
  | zero => exact Nat.two_pow_pos 16
  | succ n => exact hnear n (Nat.lt_succ_self n)

/-- **The table leads to every glyph.** -/
theorem holds_of_variableData (h : variableData glyphs = .ok bytes) :
    Holds bytes (glyphs.map Glyph.bytes) := by
  obtain ⟨hreach, rfl⟩ := variableData_eq_ok.1 h
  have hlength : (ends 0 glyphs).length = glyphs.length := by
    rw [ends_eq, List.length_map, List.length_range]
  have htable : ((ends 0 glyphs).flatMap wordBytes).length = 2 * glyphs.length := by
    rw [length_flatMap_wordBytes, hlength]
  generalize hdata : (ends 0 glyphs).flatMap wordBytes ++ glyphs.flatMap Glyph.bytes = bytes
  have hoffset : ∀ i ≤ glyphs.length, offset bytes i = reach glyphs i := by
    intro i hi
    cases i with
    | zero => rfl
    | succ i =>
        have hi' : i < (ends 0 glyphs).length := hlength ▸ hi
        have hend : (ends 0 glyphs)[i] = reach glyphs (i + 1) := by
          simp only [ends_eq, List.getElem_map, List.getElem_range, Nat.zero_add]
        have hsmall := Nat.lt_of_le_of_lt (reach_le glyphs (i + 1)) hreach
        rw [offset, ← hdata, tableEntry_flatMap hi' (hend ▸ hsmall), hend]
  refine ⟨?_, fun i hi => ?_, fun i hi => ?_⟩
  · rw [List.length_map, hoffset _ (Nat.le_refl _), ← hdata, List.length_append, htable, reach_length]
  · rw [List.length_map] at hi
    rw [hoffset i (Nat.le_of_lt hi), hoffset (i + 1) hi, reach_succ hi]
    exact Nat.le_add_right _ _
  · have hi' : i < glyphs.length := by rwa [List.length_map] at hi
    rw [slice, List.length_map, hoffset i (Nat.le_of_lt hi'), hoffset (i + 1) hi', reach_succ hi',
      Nat.add_sub_cancel_left, ← hdata, ← htable, ← List.drop_drop, List.drop_left,
      List.getElem_map]
    exact slice_flatMap hi'

end EmbeddedBuffers.Font
