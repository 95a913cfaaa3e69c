import EmbeddedBuffers.Production.Outlines
import EmbeddedBuffers.Proofs.Font.Runs
import EmbeddedBuffers.Proofs.Font.Table
import EmbeddedBuffers.Proofs.Production.FontRequests

/-!
# Produced variable fonts

A variable font that is produced holds the maximal runs of its picture, up to the number of glyphs
asked for, and the blank in its place. Main statement: `variableFont_addressable`.
-/

namespace EmbeddedBuffers

theorem insertIdx_min {α : Type} (l : List α) (i : Nat) (a : α) :
    l.insertIdx (min i l.length) a = l.take i ++ a :: l.drop i := by
  induction l generalizing i with
  | nil => simp
  | cons b l ih =>
      cases i with
      | zero => simp
      | succ i =>
          rw [List.length_cons, Nat.succ_min_succ, List.insertIdx_succ_cons, ih, List.take_succ_cons,
            List.drop_succ_cons, List.cons_append]

namespace Production

open Font (Cell Glyph blankCode blankIndex? blankSize columns columnBytes variableData)

variable {d : Declaration} {ctx : Context} {r : FontRequest} {p : Picture}

/-! ## Glyphs -/

/-- The glyphs of a font whose picture has some runs: the first ones, up to the number asked for.
Where the blank is among the characters, it is one of the glyphs, at its index or behind all the
others if they are too few. -/
def glyphData (r : FontRequest) (p : Picture) (runs : List Cell) : List (List UInt8) :=
  if r.first ≤ 0x20 ∧ 0x20 < r.first + r.count then
    let cut := (runs.take (r.count - 1)).map (columns p r.channel r.bits)
    let blank := List.replicate (max 1 (r.height / 3) * columnBytes r.height r.bits) 0
    cut.take (0x20 - r.first) ++ blank :: cut.drop (0x20 - r.first)
  else (runs.take r.count).map (columns p r.channel r.bits)

theorem length_glyphData_le (r : FontRequest) (p : Picture) (runs : List Cell) :
    (glyphData r p runs).length ≤ r.count := by
  unfold glyphData
  split
  · next hblank =>
    simp only [List.length_append, List.length_cons, List.length_take, List.length_drop,
      List.length_map]
    omega
  · rw [List.length_map]
    exact List.length_take_le _ _

/-- No character has the greatest code, so that the saturated sum does not hide the blank. -/
theorem blankIndex?_eq (first count : Nat) : blankIndex? first count =
    if first ≤ 0x20 ∧ 0x20 < first + count then some (0x20 - first) else none := by
  unfold blankIndex? blankCode
  refine if_congr (and_congr_right fun _ => ?_) rfl rfl
  omega

theorem map_bytes_variableGlyphs (r : FontRequest) (p : Picture) :
    (variableGlyphs r p).2.map Glyph.bytes = glyphData r p (Font.cells p r.channel r.height) := by
  unfold variableGlyphs glyphData
  rw [blankIndex?_eq]
  split
  · dsimp only [Option.isSome_some]
    rw [insertIdx_min, List.map_append, List.map_cons, List.map_take, List.map_drop, List.map_map]
    rfl
  · dsimp only [Option.isSome_none]
    rw [List.map_map]
    rfl

/-! ## Producing -/

theorem variableFont_eq_ok [Decoders] {made : Produced}
    (h : (variableFont.produce d ctx).outcome.1 = .ok made) :
    ∃ r path p, FontRequest.read d 2 3 4 = .ok r ∧ ctx.path d 5 = .ok path ∧
      ctx.picture d path = .ok p ∧ variableData (variableGlyphs r p).2 = .ok made.bytes ∧
        made.dependencies = [path] := by
  unfold variableFont at h
  dsimp only at h
  obtain ⟨r, hread, h⟩ := exists_of_lift_bind h
  obtain ⟨path, hpath, h⟩ := exists_of_lift_bind h
  obtain ⟨p, hpicture, h⟩ := exists_of_lift_bind h
  obtain ⟨notices, heq⟩ := tellMissing_bind (d := d) path _ _ _
  rw [heq] at h
  by_cases hcrash : (blankIndex? r.first r.count).isSome ∧ 2 ^ 32 ≤ blankSize r.height r.bits
  · rw [if_pos hcrash] at h
    cases h
  · rw [if_neg hcrash] at h
    cases hdata : variableData (variableGlyphs r p).2 with
    | error tooFar =>
        rw [hdata] at h
        cases h
    | ok data =>
        rw [hdata] at h
        cases h
        exact ⟨r, path, p, hread, hpath, hpicture, hdata, rfl⟩

/-- **Variable font data are addressable by their table.** The glyphs are the maximal runs of
columns with a visible pixel, band by band and from left to right, as many as are asked for and with
the blank at its index if it is one of the characters. -/
theorem variableFont_addressable [Decoders] {made : Produced}
    (h : (variableFont.produce d ctx).outcome.1 = .ok made) :
    ∃ r path p, FontRequest.read d 2 3 4 = .ok r ∧ ctx.path d 5 = .ok path ∧
      ctx.picture d path = .ok p ∧ made.dependencies = [path] ∧
      ∃ runs, (∀ cell, cell ∈ runs ↔ Font.IsGlyph p r.channel r.height cell) ∧
        runs.Pairwise Cell.Before ∧ (glyphData r p runs).length ≤ r.count ∧
        Font.Holds made.bytes (glyphData r p runs) := by
  obtain ⟨r, path, p, hread, hpath, hpicture, hdata, hdependencies⟩ := variableFont_eq_ok h
  have hheight := (FontRequest.admitted hread).2
  refine ⟨r, path, p, hread, hpath, hpicture, hdependencies, Font.cells p r.channel r.height,
    fun cell => Font.mem_cells, Font.pairwise_cells hheight, length_glyphData_le r p _, ?_⟩
  rw [← map_bytes_variableGlyphs]
  exact Font.holds_of_variableData hdata

/-- Two letters, the second one up to the right edge. -/
def twoLetters : Picture where
  width := 4
  height := 2
  pixels := #[⟨0, 0, 0, 1⟩, ⟨0, 0, 0, 0⟩, ⟨0, 0, 0, 3⟩, ⟨0, 0, 0, 0⟩,
    ⟨0, 0, 0, 2⟩, ⟨0, 0, 0, 0⟩, ⟨0, 0, 0, 0⟩, ⟨0, 0, 0, 4⟩]
  size_eq := rfl

/-- A font of three characters, the middle one being the blank. -/
def lettersFont : Declaration :=
  ⟨.variableFont, .u8, "uint8_t", "LETTERS",
    [.words "31", .words "3", .words "2", .words "8", .words "a", .string "letters"],
    [], "in.h", default, true⟩

def besideLetters : Context where
  tree := ⟨[], [(["letters"], .file (.picture twoLetters) 1)], 1⟩
  search := ⟨["."]⟩
  macros := .empty

/-- Two letters with the blank between them. -/
theorem variableFont_addressable_letters :
    (variableFont.produce lettersFont besideLetters).outcome.1 =
      .ok ⟨[0, 2, 0, 4, 0, 8, 1, 2, 0, 0, 3, 0, 0, 4], ["/letters"]⟩ ∧
    ∃ runs, (∀ cell, cell ∈ runs ↔ Font.IsGlyph twoLetters .alpha 2 cell) ∧
      Font.Holds [0, 2, 0, 4, 0, 8, 1, 2, 0, 0, 3, 0, 0, 4]
        (glyphData ⟨31, 3, 2, 8, .alpha⟩ twoLetters runs) := by
  have hmade : (variableFont.produce lettersFont besideLetters).outcome.1 =
      .ok ⟨[0, 2, 0, 4, 0, 8, 1, 2, 0, 0, 3, 0, 0, 4], ["/letters"]⟩ := by decide +kernel
  have hrequest : FontRequest.read lettersFont 2 3 4 = .ok ⟨31, 3, 2, 8, .alpha⟩ := by
    decide +kernel
  have hfile : besideLetters.path lettersFont 5 = .ok "/letters" := by decide +kernel
  have hletters : besideLetters.picture lettersFont "/letters" = .ok twoLetters := by
    decide +kernel
  obtain ⟨r, path, p, hread, hpath, hpicture, -, runs, hruns, -, -, hholds⟩ :=
    variableFont_addressable hmade
  rw [hrequest] at hread
  cases hread
  rw [hfile] at hpath
  cases hpath
  rw [hletters] at hpicture
  cases hpicture
  exact ⟨hmade, runs, hruns, hholds⟩

end Production

end EmbeddedBuffers
