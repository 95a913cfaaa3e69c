import EmbeddedBuffers.Font.Variable
import EmbeddedBuffers.Proofs.Font.GuardedColumns
import EmbeddedBuffers.Proofs.Font.Runs
import EmbeddedBuffers.Proofs.Font.Table

/-!
# Glyphs under guard

A machine that checks every step cuts the glyphs of a font. It goes through the cells of a grid
row by row, or through the runs of a band and then those of the next, and stops where it has as
many glyphs as are wanted. In a picture of fewer than `2 ^ 32` pixels it cuts what should be cut,
and nothing is breached; nor is it where the data are put behind their table. Only the blank is not
cut from the picture: no pixel bounds its size, which may leave its word. Main statements:
`Machine.fixedGlyphs_eq`, `Machine.cutGlyphs_eq`, `Machine.blank_eq` and `Machine.tabulate_eq`.
-/

namespace EmbeddedBuffers.Font.Machine

open Codec (Guarded)
open Codec.Guarded (breach require word difference require_bind word_bind difference_bind)

/-! ## Going through places until there is enough -/

section Gathering

variable {α β γ : Type}

/-- Cuts at one place after another, and stops at the first one where there is enough already. Tells
what there is then, and whether it stopped. -/
def gather (wanted : Nat) (cut : α → Guarded β) : List α → List β → Guarded (List β × Bool)
  | [], done => pure (done, false)
  | place :: places, done =>
    if done.length = wanted then pure (done, true)
    else do
      let piece ← cut place
      let _count ← sum done.length 1
      gather wanted cut places (done ++ [piece])

/-- The same row by row, up to the one where it stops. -/
def gatherRows (wanted : Nat) (cut : α → Guarded β) (places : γ → Guarded (List α)) :
    List γ → List β → Guarded (List β)
  | [], done => pure done
  | row :: rows, done => do
    let (done, full) ← gather wanted cut (← places row) done
    if full then pure done else gatherRows wanted cut places rows done

variable {wanted : Nat} {cut : α → Guarded β} {piece : α → β}

theorem gather_eq (hwanted : wanted < 2 ^ 32) {places : List α}
    (hcut : ∀ place ∈ places, cut place = pure (piece place)) {done : List β}
    (hdone : done.length ≤ wanted) :
    gather wanted cut places done =
      pure (done ++ (places.map piece).take (wanted - done.length),
        decide (wanted - done.length < places.length)) := by
  induction places generalizing done with
  | nil => rw [gather, List.map_nil, List.take_nil, List.append_nil]; rfl
  | cons place places ih =>
      obtain ⟨hplace, hplaces⟩ := List.forall_mem_cons.1 hcut
      rw [gather]
      split
      · next henough =>
        rw [henough, Nat.sub_self, List.take_zero, List.append_nil]
        rfl
      · next hmore =>
        have hlength : (done ++ [piece place]).length = done.length + 1 := by
          rw [List.length_append, List.length_singleton]
        have hsub : wanted - done.length = wanted - (done.length + 1) + 1 := by omega
        rw [hplace, pure_bind, sum_bind (by omega), ih hplaces (by omega), hlength, hsub,
          List.map_cons, List.take_succ_cons, List.append_assoc, List.length_cons]
        simp only [Nat.add_lt_add_iff_right, List.singleton_append]

/-- Row by row, the first places of all rows in a line are cut, as many as are wanted. -/
theorem gatherRows_eq (hwanted : wanted < 2 ^ 32) {places : γ → Guarded (List α)}
    {placesOf : γ → List α} {rows : List γ}
    (hplaces : ∀ row ∈ rows, places row = pure (placesOf row))
    (hcut : ∀ row ∈ rows, ∀ place ∈ placesOf row, cut place = pure (piece place)) (done : List β)
    (hdone : done.length ≤ wanted) :
    gatherRows wanted cut places rows done =
      pure (done ++ ((rows.flatMap placesOf).map piece).take (wanted - done.length)) := by
  induction rows generalizing done with
  | nil => rw [gatherRows, List.flatMap_nil, List.map_nil, List.take_nil, List.append_nil]
  | cons row rows ih =>
      obtain ⟨hrow, hrows⟩ := List.forall_mem_cons.1 hplaces
      obtain ⟨hcutRow, hcutRows⟩ := List.forall_mem_cons.1 hcut
      rw [gatherRows, hrow, pure_bind, gather_eq hwanted hcutRow hdone, pure_bind,
        List.flatMap_cons, List.map_append, List.take_append, List.length_map]
      by_cases hfull : wanted - done.length < (placesOf row).length
      · -- It stops in this row, so nothing is taken from the rows behind it.
        rw [decide_eq_true hfull, Nat.sub_eq_zero_of_le (Nat.le_of_lt hfull), List.take_zero,
          List.append_nil]
        rfl
      · have hall : ((placesOf row).map piece).take (wanted - done.length) =
            (placesOf row).map piece := by
          rw [List.take_of_length_le]
          rw [List.length_map]
          exact Nat.not_lt.1 hfull
        have hlength : (done ++ (placesOf row).map piece).length =
            done.length + (placesOf row).length := by
          rw [List.length_append, List.length_map]
        rw [decide_eq_false hfull, hall]
        refine (ih hrows hcutRows _ (by omega)).trans ?_
        rw [hlength, List.append_assoc, Nat.sub_sub]

end Gathering

/-! ## Fixed fonts -/

/-- A rectangle of a picture, which has to lie in it. -/
def crop (p : Picture) (left top width height : Nat) : Guarded Cell := do
  let right ← sum left width
  require (right ≤ p.width) (.outside right p.width)
  let bottom ← sum top height
  require (bottom ≤ p.height) (.outside bottom p.height)
  return ⟨left, top, width, height⟩

/-- The glyph in a cell of a grid. -/
def cutCell (p : Picture) (c : Channel) (bits width height : Nat) :
    Nat × Nat → Guarded (List UInt8)
  | (row, column) => do
    let left ← product column width
    let top ← product row height
    let cell ← crop p left top width height
    columns p c bits cell

/-- The glyphs of a font in cells of one width: those of a row of cells, then those of the next. -/
def fixedGlyphs (p : Picture) (c : Channel) (bits width height count : Nat) :
    Guarded (List (List UInt8)) := do
  let inRow ← quotient p.width width
  let rows ← quotient p.height height
  gatherRows count (cutCell p c bits width height)
    (fun row => pure ((List.range inRow).map (row, ·))) (List.range rows) []

section Fixed

variable {p : Picture} {c : Channel} {bits width height count : Nat} {cell : Cell}

theorem crop_eq (hp : p.Decoded) (hcell : cell.Inside p) :
    crop p cell.left cell.top cell.width cell.height = pure cell := by
  obtain ⟨hright, hbottom⟩ := hcell
  have hwidth := hp.width_lt
  have hheight := hp.height_lt
  rw [crop, sum_bind (by omega), require_bind hright, sum_bind (by omega), require_bind hbottom]

theorem cutCell_eq (hp : p.Decoded) (hbits : bits ∣ 8) {row column : Nat}
    (hrow : row < p.height / height) (hcolumn : column < p.width / width) :
    cutCell p c bits width height (row, column) =
      pure (Font.columns p c bits ⟨column * width, row * height, width, height⟩) := by
  have hx := mul_add_le_of_lt_div hcolumn
  have hy := mul_add_le_of_lt_div hrow
  have hright := hp.width_lt
  have hbottom := hp.height_lt
  have hcell : Cell.Inside ⟨column * width, row * height, width, height⟩ p := ⟨hx, hy⟩
  rw [cutCell, product_bind (by omega), product_bind (by omega), crop_eq hp hcell, pure_bind,
    columns_eq hp hcell hbits]

/-- The places of a grid row by row are numbered that way. -/
theorem places_eq (inRow rows : Nat) :
    ((List.range rows).flatMap fun row => (List.range inRow).map (row, ·)) =
      (List.range (inRow * rows)).map fun k => (k / inRow, k % inRow) := by
  rw [map_range_mul]
  refine List.flatMap_congr fun row _ => List.map_congr_left fun column hcolumn => ?_
  have hlt := List.mem_range.1 hcolumn
  rw [Nat.mul_add_div (Nat.zero_lt_of_lt hlt), Nat.div_eq_of_lt hlt, Nat.mul_add_mod,
    Nat.mod_eq_of_lt hlt, Nat.add_zero]

/-- **Fixed fonts are cut without a breach.** -/
theorem fixedGlyphs_eq (hp : p.Decoded) (hbits : bits ∣ 8) (hwidth : 0 < width)
    (hheight : 0 < height) (hcount : count < 2 ^ 32) :
    fixedGlyphs p c bits width height count =
      pure (Font.fixedGlyphs p c bits width height count) := by
  have hcut : ∀ row ∈ List.range (p.height / height),
      ∀ place ∈ (List.range (p.width / width)).map (row, ·),
        cutCell p c bits width height place =
          pure (Font.columns p c bits ⟨place.2 * width, place.1 * height, width, height⟩) := by
    intro row hrow place hplace
    obtain ⟨column, hcolumn, rfl⟩ := List.mem_map.1 hplace
    exact cutCell_eq hp hbits (List.mem_range.1 hrow) (List.mem_range.1 hcolumn)
  rw [fixedGlyphs, quotient_bind hwidth, quotient_bind hheight,
    gatherRows_eq hcount (fun _ _ => rfl) hcut [] (Nat.zero_le _), List.nil_append, List.length_nil,
    Nat.sub_zero, places_eq, List.map_map, ← List.map_take, List.take_range,
    Font.fixedGlyphs, grid, List.map_map]
  rfl

end Fixed

/-! ## Variable fonts -/

/-- Looks down a column of a band for a visible pixel. -/
def isInked (p : Picture) (c : Channel) (top height x : Nat) : Guarded Bool := do
  let bottom ← sum top height
  (List.range' top (bottom - top)).anyM fun y => do
    let value ← coverage c (← pixel p x y)
    return 0 < value

/-- Takes a column into account: it opens a run, or closes the open one. -/
def runStep (inked : Nat → Guarded Bool) :
    (found : List (Nat × Nat) × Option Nat) → (x : Nat) → Guarded (List (Nat × Nat) × Option Nat)
  | (runs, start), x => do
    match ← inked x, start with
    | true, none => return (runs, some x)
    | false, some s => return (runs ++ [(s, x)], none)
    | _, _ => return (runs, start)

/-- The runs of a band, with the one that is open at the right edge. -/
def runs (p : Picture) (c : Channel) (top height : Nat) : Guarded (List (Nat × Nat)) := do
  let (runs, start) ← (List.range p.width).foldlM (runStep (isInked p c top height)) ([], none)
  match start with
  | some s => return runs ++ [(s, p.width)]
  | none => return runs

/-- The glyph of a run, in the band that starts at `top`. -/
def cutRun (p : Picture) (c : Channel) (bits height : Nat) : Nat × Nat × Nat → Guarded Glyph
  | (top, left, right) => do
    let width ← difference right left
    let cell ← crop p left top width height
    let bytes ← columns p c bits cell
    return .inked bytes

/-- The glyphs of the runs of a band, then those of the next. -/
def cutGlyphs (p : Picture) (c : Channel) (bits height wanted : Nat) : Guarded (List Glyph) := do
  let bands ← quotient p.height height
  gatherRows wanted (cutRun p c bits height)
    (fun band => do
      let top ← product band height
      let runs ← runs p c top height
      return runs.map (top, ·))
    (List.range bands) []

section Variable

variable {p : Picture} {c : Channel} {bits height wanted band top x : Nat}

theorem anyM_eq {α : Type} {step : α → Guarded Bool} {test : α → Bool} {l : List α}
    (h : ∀ a ∈ l, step a = pure (test a)) : l.anyM step = pure (l.any test) := by
  induction l with
  | nil => rfl
  | cons a l ih =>
      obtain ⟨ha, hl⟩ := List.forall_mem_cons.1 h
      rw [List.anyM, ha, pure_bind, List.any_cons, ih hl]
      cases test a <;> rfl

theorem isInked_eq (hp : p.Decoded) (hx : x < p.width) (hbottom : top + height ≤ p.height) :
    isInked p c top height x = pure (Font.isInked p c top height x) := by
  have hheight := hp.height_lt
  have hlook : ∀ y ∈ List.range' top height,
      (do let value ← coverage c (← pixel p x y); return decide (0 < value)) =
        (pure (decide (0 < c.coverage (p.get x y))) : Guarded Bool) := by
    intro y hy
    obtain ⟨-, hlt⟩ := List.mem_range'_1.1 hy
    rw [pixel_eq hx (Nat.lt_of_lt_of_le hlt hbottom), pure_bind, coverage_eq, pure_bind]
  rw [isInked, sum_bind (by omega), Nat.add_sub_cancel_left, anyM_eq hlook,
    List.range'_eq_map_range, List.any_map]
  rfl

theorem runStep_eq {inked : Nat → Guarded Bool} {ink : Bool} (hink : inked x = pure ink)
    (found : List (Nat × Nat)) (start : Option Nat) :
    runStep inked (found, start) x =
      pure (if ink then (found, some (start.getD x)) else (found ++ closed x start, none)) := by
  rw [runStep, hink, pure_bind]
  cases ink <;> cases start <;> simp [closed]

/-- Going through the columns with the start of the open run in hand finds the runs that follow. -/
theorem foldlM_runStep {inked : Nat → Guarded Bool} {ink : Nat → Bool} {n : Nat}
    (hink : ∀ i ∈ List.range' x n, inked i = pure (ink i)) (found : List (Nat × Nat))
    (start : Option Nat) :
    ((List.range' x n).foldlM (runStep inked) (found, start) >>= fun (runs, start) =>
        match start with
        | some s => pure (runs ++ [(s, x + n)])
        | none => pure runs) =
      (pure (found ++ runsFrom start x ((List.range' x n).map ink)) :
        Guarded (List (Nat × Nat))) := by
  induction n generalizing x found start with
  | zero => cases start <;> simp [runsFrom]
  | succ n ih =>
      rw [List.range'_succ] at hink ⊢
      obtain ⟨hfirst, hrest⟩ := List.forall_mem_cons.1 hink
      rw [List.foldlM_cons, runStep_eq hfirst, pure_bind, List.map_cons, runsFrom_cons,
        show x + (n + 1) = x + 1 + n by omega]
      split
      · exact ih hrest found _
      · rw [← List.append_assoc]
        exact ih hrest _ none

theorem runs_eq (hp : p.Decoded) (hbottom : top + height ≤ p.height) :
    runs p c top height =
      pure (runsFrom none 0 ((List.range p.width).map (Font.isInked p c top height))) := by
  have hink : ∀ x ∈ List.range' 0 p.width,
      isInked p c top height x = pure (Font.isInked p c top height x) := by
    intro x hx
    exact isInked_eq hp (by simpa using (List.mem_range'_1.1 hx).2) hbottom
  have hruns := foldlM_runStep hink [] none
  rw [Nat.zero_add, List.nil_append, ← List.range_eq_range'] at hruns
  exact hruns

theorem cutRun_eq (hp : p.Decoded) (hbits : bits ∣ 8) (hbottom : top + height ≤ p.height)
    {run : Nat × Nat}
    (hrun : run ∈ runsFrom none 0 ((List.range p.width).map (Font.isInked p c top height))) :
    cutRun p c bits height (top, run) =
      pure (.inked (Font.columns p c bits ⟨run.1, top, run.2 - run.1, height⟩)) := by
  rw [List.range_eq_range'] at hrun
  obtain ⟨-, hmaximal⟩ := (mem_runsFrom (tracks_start _)).1 hrun
  have hlt := hmaximal.lt
  have hright := hmaximal.le_width
  have hcell : Cell.Inside ⟨run.1, top, run.2 - run.1, height⟩ p := ⟨by dsimp only; omega, hbottom⟩
  show (difference run.2 run.1 >>= _) = _
  rw [difference_bind (Nat.le_of_lt hlt), crop_eq hp hcell, pure_bind, columns_eq hp hcell hbits,
    pure_bind]

theorem inside_of_mem_cells {cell : Cell} (h : cell ∈ cells p c height) : cell.Inside p := by
  obtain ⟨rfl, ⟨band, hband, htop⟩, hrun⟩ := mem_cells.1 h
  exact ⟨hrun.le_width, htop ▸ mul_add_le_of_lt_div hband⟩

/-- **Variable fonts are cut without a breach**, but for the blank. -/
theorem cutGlyphs_eq (hp : p.Decoded) (hbits : bits ∣ 8) (hheight : 0 < height)
    (hwanted : wanted < 2 ^ 32) :
    cutGlyphs p c bits height wanted =
      pure (((cells p c height).take wanted).map fun cell =>
        .inked (Font.columns p c bits cell)) := by
  have hbottom : ∀ band ∈ List.range (p.height / height), band * height + height ≤ p.height :=
    fun band hband => mul_add_le_of_lt_div (List.mem_range.1 hband)
  have hplaces : ∀ band ∈ List.range (p.height / height),
      (do let top ← product band height; let runs ← runs p c top height; return runs.map (top, ·)) =
        (pure ((runsFrom none 0 ((List.range p.width).map
          (Font.isInked p c (band * height) height))).map (band * height, ·)) :
            Guarded (List (Nat × Nat × Nat))) := by
    intro band hband
    have hfit := hbottom band hband
    have hlt := hp.height_lt
    rw [product_bind (by omega), runs_eq hp hfit, pure_bind]
  have hcut : ∀ band ∈ List.range (p.height / height),
      ∀ place ∈ (runsFrom none 0 ((List.range p.width).map
          (Font.isInked p c (band * height) height))).map (band * height, ·),
        cutRun p c bits height place = pure (Glyph.inked (Font.columns p c bits
          ⟨place.2.1, place.1, place.2.2 - place.2.1, height⟩)) := by
    intro band hband place hplace
    obtain ⟨run, hrun, rfl⟩ := List.mem_map.1 hplace
    exact cutRun_eq hp hbits (hbottom band hband) hrun
  rw [cutGlyphs, quotient_bind hheight, gatherRows_eq hwanted hplaces hcut [] (Nat.zero_le _),
    List.nil_append, List.length_nil, Nat.sub_zero, List.map_take, cells, List.map_flatMap,
    List.map_flatMap]
  simp only [bandCells, List.map_map]
  rfl

end Variable

/-! ## The blank -/

/-- The index of the blank, the end of the characters being held at the greatest word. -/
def blankIndex (first count : Nat) : Guarded (Option Nat) :=
  if first ≤ blankCode ∧ blankCode < min (first + count) (2 ^ 32 - 1) then do
    let index ← difference blankCode first
    return some index
  else pure none

/-- The blank, a third as wide as it is high. -/
def blank (height bits : Nat) : Guarded Glyph := do
  let third ← quotient height 3
  let perByte ← quotient 8 bits
  let needed ← quotientUp height perByte
  let size ← product (max third 1) needed
  return .blank size

/-- A glyph at its place among the others. -/
def insertAt (glyphs : List Glyph) (place : Nat) (g : Glyph) : Guarded (List Glyph) := do
  require (place ≤ glyphs.length) (.outside place glyphs.length)
  return glyphs.insertIdx place g

theorem blankIndex_eq (first count : Nat) :
    blankIndex first count = pure (blankIndex? first count) := by
  unfold blankIndex blankIndex?
  split
  · next h => rw [difference_bind h.1]
  · rfl

/-- The blank is the one glyph that may leave its word. -/
theorem blank_eq {height bits : Nat} (hbits : bits ∣ 8) (hheight : height < 2 ^ 32) :
    blank height bits =
      if 2 ^ 32 ≤ blankSize height bits then breach .overflow
      else pure (.blank (blankSize height bits)) := by
  have hpos : 0 < bits := Nat.pos_of_dvd_of_pos hbits (by decide)
  rw [blank, quotient_bind (by decide), quotient_bind hpos,
    quotientUp_bind (perByte_pos hbits) hheight, Nat.max_comm]
  show (product (max 1 (height / 3)) (columnBytes height bits) >>= _) = _
  split
  · next hlarge =>
    have hbreach : ¬ max 1 (height / 3) * columnBytes height bits < 2 ^ 32 := Nat.not_lt.2 hlarge
    rw [product, word, require, if_neg hbreach]
    rfl
  · next hsmall => exact product_bind (Nat.not_le.1 hsmall) _

theorem insertAt_eq {glyphs : List Glyph} {place : Nat} (h : place ≤ glyphs.length) (g : Glyph) :
    insertAt glyphs place g = pure (glyphs.insertIdx place g) := by
  rw [insertAt, require_bind h]

/-! ## The table -/

/-- Puts glyphs behind the data, and where each ends behind the table, up to the first one that ends
where the table does not reach. -/
def tabulateFrom : (glyphs : List Glyph) → (table data : List UInt8) →
    Guarded (Except Nat (List UInt8))
  | [], table, data => pure (.ok (table ++ data))
  | g :: glyphs, table, data => do
    let stop ← word 64 (data ++ g.bytes).length
    if 2 ^ 16 ≤ stop then return .error stop
    else tabulateFrom glyphs (table ++ wordBytes stop) (data ++ g.bytes)

/-- The table and the data, with room for the table from the start. -/
def tabulate (glyphs : List Glyph) : Guarded (Except Nat (List UInt8)) := do
  let _room ← word 64 (glyphs.length * 2)
  tabulateFrom glyphs [] []

theorem tabulateFrom_eq {glyphs : List Glyph} (hsize : ∀ g ∈ glyphs, g.size < 2 ^ 32)
    (table : List UInt8) {data : List UInt8} (hdata : data.length < 2 ^ 16) :
    tabulateFrom glyphs table data =
      pure (match (ends data.length glyphs).find? (2 ^ 16 ≤ ·) with
        | some tooFar => .error tooFar
        | none => .ok (table ++ (ends data.length glyphs).flatMap wordBytes ++
            (data ++ glyphs.flatMap Glyph.bytes))) := by
  induction glyphs generalizing table data with
  | nil => simp [tabulateFrom, ends]
  | cons g glyphs ih =>
      obtain ⟨hg, hglyphs⟩ := List.forall_mem_cons.1 hsize
      have hlength : (data ++ g.bytes).length = data.length + g.size := by
        rw [List.length_append, g.length_bytes]
      rw [tabulateFrom, ends, hlength, word_bind (by omega)]
      split
      · next hfar => rw [List.find?_cons_of_pos (by simpa using hfar)]
      · next hnear =>
        rw [ih hglyphs _ (by omega), hlength, List.find?_cons_of_neg (by simpa using hnear)]
        simp only [List.flatMap_cons, List.append_assoc]

/-- Data are put behind their table without a breach, or it is told where they end. -/
theorem tabulate_eq {glyphs : List Glyph} (hlength : glyphs.length ≤ 2 ^ 32)
    (hsize : ∀ g ∈ glyphs, g.size < 2 ^ 32) :
    tabulate glyphs = pure (variableData glyphs) := by
  rw [tabulate, word_bind (by omega), tabulateFrom_eq hsize [] (by decide)]
  rfl

end EmbeddedBuffers.Font.Machine
