import EmbeddedBuffers.Proofs.Font.GuardedGlyphs
import EmbeddedBuffers.Proofs.Production.FixedFont
import EmbeddedBuffers.Proofs.Production.VariableFont

/-!
# Produced fonts under guard

A machine whose numbers are words, and which stops at the first number that leaves its word,
produces fonts just as they are produced without it. Whatever is asked for, and whatever the picture
shows, a fixed font stays in its words. So does a variable font, but for the blank: its size is
bounded by no pixel, and where it leaves its word the production crashes. Data that the table does
not reach are a problem and no crash. Main statement: `fonts_guarded`.
-/

namespace EmbeddedBuffers.Production

open Codec (Guarded)
open Font

variable {α β : Type} {d : Declaration} {ctx : Context}

/-! ## Producing under guard -/

/-- A run under guard as a step of a production. -/
def guarded (g : Guarded α) : Noted α :=
  match g.run with
  | .ok (.ok a) => pure a
  | .ok (.error f) => throw (.problem f.problem)
  | .error _ => throw (.crash .overflow)

/-- A font in cells of one width. -/
def guardedFixedFont [Decoders] (d : Declaration) (ctx : Context) : Noted Produced := do
  let r ← FontRequest.read d 3 4 5
  let width ← d.numberArgument 2 "the glyph width"
  if width = 0 then throw (.problem (d.failure "glyph width must be at least 1"))
  let path ← ctx.path d 6
  let picture ← ctx.picture d path
  let glyphs ← guarded (Machine.fixedGlyphs picture r.channel r.bits width r.height r.count)
  tellMissing d path glyphs.length r.count
  return ⟨glyphs.flatten, [path]⟩

/-- The problem of glyphs that reach farther than their table. -/
def beyondTable (d : Declaration) (reached : Nat) : Problem :=
  d.failure s!"glyph data reaches {reached} bytes, beyond the 16-bit offset table"

/-- Puts the glyphs of a font behind their table. -/
def guardedTable (d : Declaration) (path : String) (glyphs : List Glyph) : Noted Produced := do
  match ← guarded (Machine.tabulate glyphs) with
  | .ok data => return ⟨data, [path]⟩
  | .error tooFar => throw (.problem (beyondTable d tooFar))

/-- A font in cells of their own width. -/
def guardedVariableFont [Decoders] (d : Declaration) (ctx : Context) : Noted Produced := do
  let r ← FontRequest.read d 2 3 4
  let path ← ctx.path d 5
  let picture ← ctx.picture d path
  let blankAt ← guarded (Machine.blankIndex r.first r.count)
  let wanted ← guarded (Guarded.difference r.count (if blankAt.isSome then 1 else 0))
  let cut ← guarded (Machine.cutGlyphs picture r.channel r.bits r.height wanted)
  tellMissing d path cut.length wanted
  match blankAt with
  | none => guardedTable d path cut
  | some i =>
    let glyphs ← guarded do
      let blank ← Machine.blank r.height r.bits
      Machine.insertAt cut (min i cut.length) blank
    guardedTable d path glyphs

theorem guarded_pure (a : α) : guarded (pure a) = pure a := rfl

theorem guarded_difference {a b : Nat} (h : b ≤ a) :
    guarded (Guarded.difference a b) = pure (a - b) := by
  rw [Guarded.difference, Guarded.require_bind h, guarded_pure]

/-- Behind a step that may fail, only what the step gives has to be looked at. -/
theorem lift_bind_congr {x : Except Problem α} {f g : α → Noted β}
    (h : ∀ a, x = .ok a → f a = g a) : (liftM x >>= f) = (liftM x >>= g) := by
  cases x with
  | error p => rfl
  | ok a => exact h a rfl

/-! ## With and without guard -/

theorem guardedFixedFont_eq [Decoders]
    (hdecoded : ∀ path p, ctx.picture d path = .ok p → p.Decoded) :
    guardedFixedFont d ctx = fixedFont.produce d ctx := by
  refine lift_bind_congr fun r hread => lift_bind_congr fun width _ => ?_
  obtain ⟨-, hheight⟩ := FontRequest.admitted hread
  obtain ⟨-, hcount, -⟩ := FontRequest.bounded hread
  dsimp only
  by_cases hwidth : width = 0
  · rw [if_pos hwidth, if_pos hwidth]
    rfl
  · rw [if_neg hwidth, if_neg hwidth]
    refine lift_bind_congr fun path _ => lift_bind_congr fun p hpicture => ?_
    rw [Machine.fixedGlyphs_eq (hdecoded path p hpicture) (FontRequest.bits_dvd hread)
      (Nat.pos_of_ne_zero hwidth) hheight hcount, guarded_pure, pure_bind]

section Variable

variable {r : FontRequest} {p : Picture} {path : String} {glyphs : List Glyph} {wanted : Nat}

theorem guardedTable_eq (hlength : glyphs.length ≤ 2 ^ 32) (hsize : ∀ g ∈ glyphs, g.size < 2 ^ 32) :
    guardedTable d path glyphs =
      match variableData glyphs with
      | .ok data => pure ⟨data, [path]⟩
      | .error tooFar => throw (.problem (beyondTable d tooFar)) := by
  rw [guardedTable, Machine.tabulate_eq hlength hsize, guarded_pure, pure_bind]

/-- What is cut from a picture has no more bytes than the picture has pixels. -/
theorem size_lt_of_mem_cut (hp : p.Decoded) (hbits : r.bits ∣ 8) {g : Glyph}
    (hg : g ∈ ((cells p r.channel r.height).take wanted).map fun cell =>
      Glyph.inked (columns p r.channel r.bits cell)) : g.size < 2 ^ 32 := by
  obtain ⟨cell, hcell, rfl⟩ := List.mem_map.1 hg
  have hinside := Machine.inside_of_mem_cells (List.mem_of_mem_take hcell)
  rw [Glyph.size, length_columns, Nat.mul_comm]
  exact Machine.columns_lt hp hinside hbits

/-- Where the blank is among the characters, there is a character. -/
theorem blank_le_count (first count : Nat) :
    (if (blankIndex? first count).isSome then 1 else 0) ≤ count := by
  rw [blankIndex?_eq]
  split
  · next hblank =>
    rw [Option.isSome_some, if_pos rfl]
    omega
  · exact Nat.zero_le count

theorem guardedVariableFont_eq [Decoders]
    (hdecoded : ∀ path p, ctx.picture d path = .ok p → p.Decoded) :
    guardedVariableFont d ctx = variableFont.produce d ctx := by
  refine lift_bind_congr fun r hread => lift_bind_congr fun path _ =>
    lift_bind_congr fun p hpicture => ?_
  obtain ⟨-, hheight⟩ := FontRequest.admitted hread
  obtain ⟨-, hcount, hhigh⟩ := FontRequest.bounded hread
  have hbits := FontRequest.bits_dvd hread
  have hp := hdecoded path p hpicture
  have hwanted := Nat.lt_of_le_of_lt
    (Nat.sub_le r.count (if (blankIndex? r.first r.count).isSome then 1 else 0)) hcount
  have hlength : ∀ wanted, (((cells p r.channel r.height).take wanted).map fun cell =>
      Glyph.inked (columns p r.channel r.bits cell)).length ≤ wanted := by
    intro wanted
    rw [List.length_map]
    exact List.length_take_le _ _
  dsimp only
  -- Up to the glyphs that are cut, both do the same whether or not there is a blank.
  rw [Machine.blankIndex_eq, guarded_pure, pure_bind,
    guarded_difference (blank_le_count r.first r.count), pure_bind,
    Machine.cutGlyphs_eq hp hbits hheight hwanted, guarded_pure, pure_bind]
  unfold variableGlyphs
  cases hblank : blankIndex? r.first r.count with
  | none =>
      dsimp only [Option.isSome_none]
      refine bind_congr fun _ => ?_
      rw [if_neg (by simp)]
      exact guardedTable_eq (Nat.le_trans (hlength _) (Nat.le_of_lt hcount))
        fun g hg => size_lt_of_mem_cut hp hbits hg
  | some i =>
      simp only [Option.isSome_some, if_true, true_and]
      refine bind_congr fun _ => ?_
      rw [Machine.blank_eq hbits hhigh]
      by_cases hlarge : 2 ^ 32 ≤ blankSize r.height r.bits
      · rw [if_pos hlarge, if_pos hlarge]
        rfl
      · rw [if_neg hlarge, if_neg hlarge, pure_bind,
          Machine.insertAt_eq (Nat.min_le_right _ _), guarded_pure, pure_bind]
        refine guardedTable_eq ?_ fun g hg => ?_
        · rw [List.length_insertIdx_of_le_length (Nat.min_le_right _ _)]
          exact Nat.succ_le_of_lt (Nat.lt_of_le_of_lt (hlength _)
            (Nat.lt_of_le_of_lt (Nat.sub_le _ _) hcount))
        · rcases (List.mem_insertIdx (Nat.min_le_right _ _)).1 hg with rfl | hg
          · exact Nat.not_le.1 hlarge
          · exact size_lt_of_mem_cut hp hbits hg

end Variable

/-! ## How production ends -/

/-- The blank is among the characters, and so high that its size leaves the word it is computed
in. -/
def FontRequest.BlankOverflows (r : FontRequest) : Prop :=
  r.first ≤ 0x20 ∧ 0x20 < r.first + r.count ∧
    2 ^ 32 ≤ max 1 (r.height / 3) * ((r.height + (8 / r.bits - 1)) / (8 / r.bits))

section Ends

variable {r : FontRequest} {p : Picture} {path : String} {crash : Crash}

/-- What crashes behind a step that may fail crashes with what the step gives. -/
theorem exists_of_lift_crash {x : Except Problem α} {f : α → Noted β}
    (h : (liftM x >>= f).outcome.1 = .error (.crash crash)) :
    ∃ a, x = .ok a ∧ (f a).outcome.1 = .error (.crash crash) := by
  cases x with
  | error p => cases h
  | ok a => exact ⟨a, rfl, h⟩

theorem fixedFont_no_crash [Decoders] :
    (fixedFont.produce d ctx).outcome.1 ≠ .error (.crash crash) := by
  intro h
  obtain ⟨r, -, h⟩ := exists_of_lift_crash h
  obtain ⟨width, -, h⟩ := exists_of_lift_crash h
  dsimp only at h
  by_cases hwidth : width = 0
  · rw [if_pos hwidth] at h
    cases h
  · rw [if_neg hwidth] at h
    obtain ⟨path, -, h⟩ := exists_of_lift_crash h
    obtain ⟨p, -, h⟩ := exists_of_lift_crash h
    obtain ⟨notices, heq⟩ := tellMissing_bind (d := d) path _ _ _
    rw [heq] at h
    cases h

theorem blankOverflows_iff : r.BlankOverflows ↔
    (blankIndex? r.first r.count).isSome ∧ 2 ^ 32 ≤ blankSize r.height r.bits := by
  rw [FontRequest.BlankOverflows, ← and_assoc, blankIndex?_eq]
  refine and_congr ?_ Iff.rfl
  split
  · next h => exact iff_of_true h rfl
  · next h => exact iff_of_false h Bool.false_ne_true

/-- With its picture decoded, a variable font crashes at the blank or is put behind a table. -/
theorem variableFont_outcome [Decoders] (hread : FontRequest.read d 2 3 4 = .ok r)
    (hpath : ctx.path d 5 = .ok path) (hpicture : ctx.picture d path = .ok p) :
    (r.BlankOverflows → (variableFont.produce d ctx).outcome.1 = .error (.crash .overflow)) ∧
      (¬ r.BlankOverflows → (variableFont.produce d ctx).outcome.1 =
        match variableData (variableGlyphs r p).2 with
        | .ok data => .ok ⟨data, [path]⟩
        | .error tooFar => .error (.problem (beyondTable d tooFar))) := by
  unfold variableFont
  dsimp only
  rw [hread, lift_ok_bind, hpath, lift_ok_bind, hpicture, lift_ok_bind]
  obtain ⟨notices, heq⟩ := tellMissing_bind (d := d) path _ _ _
  rw [heq, blankOverflows_iff]
  constructor
  · intro hlarge
    rw [if_pos hlarge]
    rfl
  · intro hsmall
    rw [if_neg hsmall]
    cases variableData (variableGlyphs r p).2 <;> rfl

theorem variableFont_crash_iff [Decoders] :
    (variableFont.produce d ctx).outcome.1 = .error (.crash crash) ↔
      crash = .overflow ∧ ∃ r path p, FontRequest.read d 2 3 4 = .ok r ∧
        ctx.path d 5 = .ok path ∧ ctx.picture d path = .ok p ∧ r.BlankOverflows := by
  constructor
  · intro h
    obtain ⟨r, hread, hr⟩ := exists_of_lift_crash h
    obtain ⟨path, hpath, hr⟩ := exists_of_lift_crash hr
    obtain ⟨p, hpicture, -⟩ := exists_of_lift_crash hr
    obtain ⟨hlarge, hsmall⟩ := variableFont_outcome hread hpath hpicture
    by_cases hblank : r.BlankOverflows
    · rw [hlarge hblank] at h
      cases h
      exact ⟨rfl, r, path, p, hread, hpath, hpicture, hblank⟩
    · rw [hsmall hblank] at h
      cases hdata : variableData (variableGlyphs r p).2 <;> rw [hdata] at h <;> cases h
  · rintro ⟨rfl, r, path, p, hread, hpath, hpicture, hblank⟩
    exact (variableFont_outcome hread hpath hpicture).1 hblank

theorem reach_variableGlyphs (r : FontRequest) (p : Picture) (n : Nat) :
    reach (variableGlyphs r p).2 n =
      ((glyphData r p (cells p r.channel r.height)).take n).flatten.length := by
  rw [reach, List.flatMap_def, List.map_take, map_bytes_variableGlyphs]

/-- **Fonts stay in their words, but for the blank.** A machine that checks every step produces
fonts like one that does not. No fixed font makes it crash, and a variable font does exactly if its
blank is too high. With a blank that is not, a font is made if its glyphs have fewer than `2 ^ 16`
bytes, and otherwise it is told where the first one ends that the table does not reach. -/
theorem fonts_guarded [Decoders] (hdecoded : ∀ path p, ctx.picture d path = .ok p → p.Decoded) :
    (guardedFixedFont d ctx = fixedFont.produce d ctx ∧
      ∀ crash, (fixedFont.produce d ctx).outcome.1 ≠ .error (.crash crash)) ∧
    (guardedVariableFont d ctx = variableFont.produce d ctx ∧
      ∀ crash, (variableFont.produce d ctx).outcome.1 = .error (.crash crash) ↔
        crash = .overflow ∧ ∃ r path p, FontRequest.read d 2 3 4 = .ok r ∧
          ctx.path d 5 = .ok path ∧ ctx.picture d path = .ok p ∧ r.BlankOverflows) ∧
    ∀ r path p, FontRequest.read d 2 3 4 = .ok r → ctx.path d 5 = .ok path →
      ctx.picture d path = .ok p → ¬ r.BlankOverflows →
        let glyphs := glyphData r p (cells p r.channel r.height)
        (glyphs.flatten.length < 2 ^ 16 →
          ∃ bytes, (variableFont.produce d ctx).outcome.1 = .ok ⟨bytes, [path]⟩) ∧
        (2 ^ 16 ≤ glyphs.flatten.length →
          ∃ n < glyphs.length, (glyphs.take n).flatten.length < 2 ^ 16 ∧
            2 ^ 16 ≤ (glyphs.take (n + 1)).flatten.length ∧
            (variableFont.produce d ctx).outcome.1 =
              .error (.problem (beyondTable d (glyphs.take (n + 1)).flatten.length))) := by
  refine ⟨⟨guardedFixedFont_eq hdecoded, fun crash => fixedFont_no_crash⟩,
    ⟨guardedVariableFont_eq hdecoded, fun crash => variableFont_crash_iff⟩,
    fun r path p hread hpath hpicture hblank => ?_⟩
  have hmade := (variableFont_outcome hread hpath hpicture).2 hblank
  have htotal : ((variableGlyphs r p).2.flatMap Glyph.bytes).length =
      (glyphData r p (cells p r.channel r.height)).flatten.length := by
    rw [List.flatMap_def, map_bytes_variableGlyphs]
  have hcount : (glyphData r p (cells p r.channel r.height)).length =
      (variableGlyphs r p).2.length := by
    rw [← map_bytes_variableGlyphs, List.length_map]
  dsimp only
  constructor
  · intro hsmall
    obtain ⟨bytes, hdata⟩ := exists_variableData_iff.2 (htotal ▸ hsmall)
    rw [hdata] at hmade
    exact ⟨bytes, hmade⟩
  · intro hlarge
    cases hdata : variableData (variableGlyphs r p).2 with
    | ok bytes =>
        have hsmall := exists_variableData_iff.1 ⟨bytes, hdata⟩
        omega
    | error tooFar =>
        obtain ⟨n, hn, hbefore, hbehind, rfl⟩ := exists_of_variableData_eq_error hdata
        rw [hdata, reach_variableGlyphs] at hmade
        rw [reach_variableGlyphs] at hbefore hbehind
        exact ⟨n, hcount ▸ hn, hbefore, hbehind, hmade⟩

theorem mem_nodes_of_get? {t : FileTree} {place : Location} {content : Content} {time : Nat}
    (h : t.get? place = some (.file content time)) : (place, .file content time) ∈ t.nodes := by
  unfold FileTree.get? at h
  split at h
  · cases h
  · obtain ⟨front, behind, heq, -⟩ := List.lookup_eq_some_iff.1 h
    rw [heq]
    exact List.mem_append_right _ List.mem_cons_self

/-- What is read stands in the tree. -/
theorem mem_nodes_of_read {t : FileTree} {content : Content} (h : t.read path = .ok content) :
    ∃ place time, (place, Node.file content time) ∈ t.nodes := by
  obtain ⟨node, hfind, hnode⟩ := exists_of_bind_eq_ok h
  obtain ⟨place, -, hplace⟩ := exists_of_bind_eq_ok hfind
  cases hget : t.get? place with
  | none =>
      rw [hget] at hplace
      cases hplace
  | some found =>
      rw [hget] at hplace
      cases hplace
      cases node with
      | directory time => cases hnode
      | file content time =>
          cases hnode
          exact ⟨place, time, mem_nodes_of_get? hget⟩

/-- A picture is what is made of a file in the tree. -/
theorem exists_of_picture [Decoders] (h : ctx.picture d path = .ok p) :
    ∃ place content time, (place, Node.file content time) ∈ ctx.tree.nodes ∧
      Decoders.picture? path content = some p := by
  obtain ⟨content, hread, h⟩ := exists_of_bind_eq_ok h
  obtain ⟨place, time, hmem⟩ := mem_nodes_of_read (mapError_eq_ok.1 hread)
  refine ⟨place, content, time, hmem, ?_⟩
  split at h
  · next hfound =>
    cases h
    exact hfound
  · cases h

end Ends

/-- A single pixel, which shows nothing. -/
def dot : Picture := ⟨1, 1, #[⟨0, 0, 0, 0⟩], rfl⟩

/-- A font of the blank alone, in bands far higher than its picture. -/
def tallFont : Declaration :=
  ⟨.variableFont, .u8, "uint8_t", "TALL",
    [.words "32", .words "1", .words "200000", .words "8", .words "a", .string "dot"],
    [], "in.h", default, true⟩

def besideDot : Context where
  tree := ⟨[], [(["dot"], .file (.picture dot) 1)], 1⟩
  search := ⟨["."]⟩
  macros := .empty

/-- Nothing is cut for the blank, and its 66666 columns have 200000 bytes each. -/
theorem fonts_guarded_tall :
    guardedVariableFont tallFont besideDot = variableFont.produce tallFont besideDot ∧
      (variableFont.produce tallFont besideDot).outcome.1 = .error (.crash .overflow) := by
  have hdecoded : ∀ path p, besideDot.picture tallFont path = .ok p → p.Decoded := by
    intro path p hpicture
    obtain ⟨place, content, time, hmem, hfound⟩ := exists_of_picture hpicture
    cases List.mem_singleton.1 hmem
    cases hfound
    exact ⟨by decide, by decide, by decide⟩
  have hrequest : FontRequest.read tallFont 2 3 4 = .ok ⟨32, 1, 200000, 8, .alpha⟩ := by
    decide +kernel
  have hpath : besideDot.path tallFont 5 = .ok "/dot" := by decide +kernel
  have hpicture : besideDot.picture tallFont "/dot" = .ok dot := by decide +kernel
  have hblank : FontRequest.BlankOverflows ⟨32, 1, 200000, 8, .alpha⟩ :=
    ⟨by decide, by decide, by decide⟩
  obtain ⟨-, ⟨hguarded, hcrash⟩, -⟩ := fonts_guarded hdecoded
  exact ⟨hguarded, (hcrash .overflow).2 ⟨rfl, _, _, _, hrequest, hpath, hpicture, hblank⟩⟩

end EmbeddedBuffers.Production
