import EmbeddedBuffers.Font.Fixed
import EmbeddedBuffers.Proofs.Slices

/-!
# Packed columns

A byte of a glyph has lanes of some bits each, counted from the lowest bit, and a lane holds the
high bits of the coverage of a pixel. From the number of a glyph in a font of equal cells, and the
place of a pixel in it, follow the byte and the lane with that pixel; the lanes below the last row
of a glyph are zero. Main statements: `lane_packByte`, `getElem?_columns` and
`showsGrid_fixedGlyphs`.
-/

namespace EmbeddedBuffers.Font

/-! ## Lanes -/

/-- The bits of a lane, all lanes being `bits` bits wide. -/
def lane (bits n i : Nat) : Nat := n / 2 ^ (bits * i) % 2 ^ bits

section Lanes

variable {bits i n : Nat} {values : List Nat}

theorem lane_of_lt {count : Nat} (hn : n < 2 ^ (bits * count)) (hi : count ≤ i) :
    lane bits n i = 0 := by
  have hlt : n < 2 ^ (bits * i) :=
    Nat.lt_of_lt_of_le hn (Nat.pow_le_pow_right (by decide) (Nat.mul_le_mul_left bits hi))
  rw [lane, Nat.div_eq_of_lt hlt, Nat.zero_mod]

/-- The first lane is at the bottom, the others are those of the bits above it. -/
theorem lane_add_mul {low : Nat} (hlow : low < 2 ^ bits) (high i : Nat) :
    lane bits (low + 2 ^ bits * high) i =
      match i with
      | 0 => low
      | i + 1 => lane bits high i := by
  cases i with
  | zero => rw [lane, Nat.mul_zero, Nat.pow_zero, Nat.div_one, Nat.add_mul_mod_self_left,
      Nat.mod_eq_of_lt hlow]
  | succ i =>
      have hpow : 2 ^ (bits * (i + 1)) = 2 ^ bits * 2 ^ (bits * i) := by
        rw [Nat.mul_succ, Nat.pow_add, Nat.mul_comm]
      rw [lane, hpow, ← Nat.div_div_eq_div_mul, Nat.add_mul_div_left _ _ (Nat.two_pow_pos bits),
        Nat.div_eq_of_lt hlow, Nat.zero_add]
      rfl

/-- A bit of a byte is one of its lane. -/
theorem testBit_lane (bits n place : Nat) (hbits : 0 < bits) :
    n.testBit place = (lane bits n (place / bits)).testBit (place % bits) := by
  rw [lane, Nat.testBit_mod_two_pow, Nat.testBit_div_two_pow, Nat.mod_add_div,
    decide_eq_true (Nat.mod_lt place hbits), Bool.true_and]

/-- The high bits of a byte are no wider than a lane. -/
theorem shiftRight_lt (hbits : bits ≤ 8) {value : Nat} (hvalue : value < 2 ^ 8) :
    value >>> (8 - bits) < 2 ^ bits := by
  rw [Nat.shiftRight_eq_div_pow, Nat.div_lt_iff_lt_mul (Nat.two_pow_pos _), ← Nat.pow_add,
    Nat.add_sub_cancel' hbits]
  exact hvalue

theorem packByte_lt (hbits : bits ≤ 8) (hvalues : ∀ value ∈ values, value < 2 ^ 8) :
    packByte bits values < 2 ^ (bits * values.length) := by
  induction values with
  | nil => exact Nat.two_pow_pos _
  | cons value values ih =>
      obtain ⟨hvalue, hvalues⟩ := List.forall_mem_cons.1 hvalues
      have hlow := shiftRight_lt hbits hvalue
      have hhigh : 2 ^ bits * (packByte bits values + 1) ≤ 2 ^ bits * 2 ^ (bits * values.length) :=
        Nat.mul_le_mul_left _ (ih hvalues)
      rw [List.length_cons, Nat.mul_succ, Nat.pow_add, Nat.mul_comm (2 ^ (bits * values.length))]
      rw [Nat.mul_succ] at hhigh
      rw [packByte]
      omega

/-- **The lanes of a byte hold the high bits of the values, in order.** -/
theorem lane_packByte (hbits : bits ≤ 8) (hvalues : ∀ value ∈ values, value < 2 ^ 8)
    (hi : i < values.length) : lane bits (packByte bits values) i = values[i] / 2 ^ (8 - bits) := by
  induction values generalizing i with
  | nil => exact absurd hi (Nat.not_lt_zero i)
  | cons value values ih =>
      obtain ⟨hvalue, hvalues⟩ := List.forall_mem_cons.1 hvalues
      rw [packByte, lane_add_mul (shiftRight_lt hbits hvalue)]
      cases i with
      | zero => exact Nat.shiftRight_eq_div_pow _ _
      | succ i => exact ih hvalues (Nat.lt_of_succ_lt_succ hi)

end Lanes

/-! ## Columns -/

theorem Channel.coverage_lt (c : Channel) (pixel : Pixel) : c.coverage pixel < 2 ^ 8 := by
  have hred := pixel.red.toNat_lt
  have hgreen := pixel.green.toNat_lt
  have hblue := pixel.blue.toNat_lt
  cases c with
  | rgb =>
      show (pixel.red.toNat + pixel.green.toNat + pixel.blue.toNat + 2) / 3 < 2 ^ 8
      omega
  | alpha => exact pixel.alpha.toNat_lt

section Columns

variable {p : Picture} {c : Channel} {bits : Nat} {cell : Cell}

/-- The coverage of the pixels that share byte `k` of a column. -/
def shares (p : Picture) (c : Channel) (bits : Nat) (cell : Cell) (x k : Nat) : List Nat :=
  (List.range (min (8 / bits) (cell.height - k * (8 / bits)))).map fun i =>
    c.coverage (p.get (cell.left + x) (cell.top + (k * (8 / bits) + i)))

theorem perByte_pos (hbits : bits ∣ 8) : 0 < 8 / bits :=
  Nat.div_pos (Nat.le_of_dvd (by decide) hbits) (Nat.pos_of_dvd_of_pos hbits (by decide))

theorem filter_range_lt (a bound n : Nat) :
    (List.range n).filter (fun i => decide (a + i < bound)) = List.range (min n (bound - a)) := by
  induction n with
  | zero => rw [Nat.zero_min]; rfl
  | succ n ih =>
      rw [List.range_succ, List.filter_append, ih]
      by_cases h : a + n < bound
      · have hall : min n (bound - a) = n := by omega
        have hall' : min (n + 1) (bound - a) = n + 1 := by omega
        rw [List.filter_cons_of_pos (by simpa using h), List.filter_nil, hall, hall',
          List.range_succ]
      · have hsame : min (n + 1) (bound - a) = min n (bound - a) := by omega
        rw [List.filter_cons_of_neg (by simpa using h), List.filter_nil, List.append_nil, hsame]

theorem columns_eq : columns p c bits cell =
    (List.range cell.width).flatMap fun x =>
      (List.range (columnBytes cell.height bits)).map fun k =>
        UInt8.ofNat (packByte bits (shares p c bits cell x k)) := by
  simp only [columns, filter_range_lt, shares]

theorem lt_of_mem_shares {x k value : Nat} (h : value ∈ shares p c bits cell x k) :
    value < 2 ^ 8 := by
  obtain ⟨i, -, rfl⟩ := List.mem_map.1 h
  exact c.coverage_lt _

theorem length_shares (x k : Nat) : (shares p c bits cell x k).length =
    min (8 / bits) (cell.height - k * (8 / bits)) := by
  rw [shares, List.length_map, List.length_range]

theorem length_columns (p : Picture) (c : Channel) (bits : Nat) (cell : Cell) :
    (columns p c bits cell).length = columnBytes cell.height bits * cell.width := by
  rw [columns_eq]
  exact length_flatMap_range fun x => by rw [List.length_map, List.length_range]

/-- The bytes of a glyph, column by column. -/
theorem getElem?_columns {x k : Nat} (hx : x < cell.width)
    (hk : k < columnBytes cell.height bits) :
    (columns p c bits cell)[columnBytes cell.height bits * x + k]? =
      some (UInt8.ofNat (packByte bits (shares p c bits cell x k))) := by
  rw [columns_eq,
    getElem?_flatMap_range (fun x => by rw [List.length_map, List.length_range]) hx hk,
    List.getElem?_map, List.getElem?_range hk]
  rfl

end Columns

/-! ## Grids -/

/-- Number of bytes of a column in a font: as many as its rows need, `8 / bits` of which share a
byte. -/
def stride (bits height : Nat) : Nat := (height + (8 / bits - 1)) / (8 / bits)

theorem div_lt_stride {bits height y : Nat} (hper : 0 < 8 / bits) (hy : y < height) :
    y / (8 / bits) < stride bits height := by
  refine (Nat.le_div_iff_mul_le hper).2 ?_
  have hrow := Nat.div_mul_le_self y (8 / bits)
  rw [Nat.succ_mul]
  omega

/-- Byte `j` of column `x` of glyph `k`, the glyphs of a font being equal. -/
def glyphByte (bytes : List UInt8) (bits width height k x j : Nat) : Nat :=
  (bytes.getD (k * (width * stride bits height) + x * stride bits height + j) 0).toNat

/-- Some bytes are the glyphs of a grid: `count` glyphs of one size, in which every pixel of a cell
is found at its place with the high bits of its coverage, and all other bits are zero. The cells are
read row by row, as many in a row as the picture has room for. -/
structure ShowsGrid (bytes : List UInt8) (p : Picture) (c : Channel)
    (bits width height count : Nat) : Prop where
  length_eq : bytes.length = count * (width * stride bits height)
  inside : ∀ k < count, ∀ x < width, ∀ y < height,
    x + width * (k % (p.width / width)) < p.width ∧
      y + height * (k / (p.width / width)) < p.height
  lane_eq : ∀ k < count, ∀ x < width, ∀ y < height,
    lane bits (glyphByte bytes bits width height k x (y / (8 / bits))) (y % (8 / bits)) =
      c.coverage (p.get (x + width * (k % (p.width / width)))
        (y + height * (k / (p.width / width)))) / 2 ^ (8 - bits)
  unused : ∀ k < count, ∀ x < width, ∀ j < stride bits height, ∀ place < 8,
    height ≤ j * (8 / bits) + place / bits →
      (glyphByte bytes bits width height k x j).testBit place = false

section Grids

variable {p : Picture} {c : Channel} {bits width height count k x j : Nat}

/-- The rows that share a byte fill it at most. -/
theorem packByte_shares_lt (hbits : bits ∣ 8) (cell : Cell) :
    packByte bits (shares p c bits cell x j) < 2 ^ 8 := by
  have hle : bits ≤ 8 := Nat.le_of_dvd (by decide) hbits
  refine Nat.lt_of_lt_of_le (packByte_lt hle fun _ => lt_of_mem_shares)
    (Nat.pow_le_pow_right (by decide) ?_)
  calc bits * (shares p c bits cell x j).length ≤ bits * (8 / bits) :=
        Nat.mul_le_mul_left _ (length_shares x j ▸ Nat.min_le_left _ _)
    _ = 8 := Nat.mul_div_cancel' hbits

/-- The cell of a glyph. -/
def gridCell (p : Picture) (width height k : Nat) : Cell :=
  ⟨k % (p.width / width) * width, k / (p.width / width) * height, width, height⟩

theorem flatten_fixedGlyphs : (fixedGlyphs p c bits width height count).flatten =
    (List.range (min count (p.width / width * (p.height / height)))).flatMap fun k =>
      columns p c bits (gridCell p width height k) := by
  rw [fixedGlyphs, grid, List.map_map]
  rfl

theorem length_gridColumns (p : Picture) (c : Channel) (bits width height k : Nat) :
    (columns p c bits (gridCell p width height k)).length = stride bits height * width :=
  length_columns p c bits _

theorem glyphByte_fixedGlyphs (hbits : bits ∣ 8)
    (hk : k < min count (p.width / width * (p.height / height))) (hx : x < width)
    (hj : j < stride bits height) :
    glyphByte (fixedGlyphs p c bits width height count).flatten bits width height k x j =
      packByte bits (shares p c bits (gridCell p width height k) x j) := by
  have hindex : k * (width * stride bits height) + x * stride bits height + j =
      stride bits height * width * k + (stride bits height * x + j) := by grind
  have hsmall : stride bits height * x + j < stride bits height * width := by
    calc stride bits height * x + j < stride bits height * (x + 1) := by rw [Nat.mul_succ]; omega
      _ ≤ stride bits height * width := Nat.mul_le_mul_left _ hx
  have hcolumn : (columns p c bits (gridCell p width height k))[stride bits height * x + j]? = _ :=
    getElem?_columns hx hj
  rw [glyphByte, hindex, List.getD_eq_getElem?_getD, flatten_fixedGlyphs,
    getElem?_flatMap_range (length_gridColumns p c bits width height) hk hsmall, hcolumn,
    Option.getD_some, UInt8.toNat_ofNat_of_lt' (packByte_shares_lt hbits _)]

theorem mul_add_le_of_lt_div {n size i : Nat} (h : i < n / size) : i * size + size ≤ n := by
  rw [← Nat.succ_mul]
  exact Nat.mul_le_of_le_div size (i + 1) n h

/-- A cell of the grid lies in the picture. -/
theorem gridCell_inside (hk : k < p.width / width * (p.height / height)) :
    (gridCell p width height k).left + width ≤ p.width ∧
      (gridCell p width height k).top + height ≤ p.height := by
  have hcolumns : 0 < p.width / width := Nat.pos_of_mul_pos_right (Nat.zero_lt_of_lt hk)
  exact ⟨mul_add_le_of_lt_div (Nat.mod_lt k hcolumns),
    mul_add_le_of_lt_div (Nat.div_lt_of_lt_mul hk)⟩

/-- **Every pixel of a grid is where the format says**, whatever the size of the picture. -/
theorem showsGrid_fixedGlyphs (hbits : bits ∣ 8) :
    ShowsGrid (fixedGlyphs p c bits width height count).flatten p c bits width height
      (min count (p.width / width * (p.height / height))) := by
  have hle : bits ≤ 8 := Nat.le_of_dvd (by decide) hbits
  have hpos : 0 < bits := Nat.pos_of_dvd_of_pos hbits (by decide)
  have hper : 0 < 8 / bits := perByte_pos hbits
  refine ⟨?_, fun k hk x hx y hy => ?_, fun k hk x hx y hy => ?_,
    fun k hk x hx j hj place _ hrow => ?_⟩
  · rw [flatten_fixedGlyphs, length_flatMap_range (length_gridColumns p c bits width height),
      Nat.mul_comm, Nat.mul_comm width]
  · obtain ⟨hright, hbottom⟩ := gridCell_inside (Nat.lt_of_lt_of_le hk (Nat.min_le_right _ _))
    rw [gridCell] at hright hbottom
    rw [Nat.mul_comm width, Nat.mul_comm height]
    dsimp only at hright hbottom
    omega
  · have hi : y % (8 / bits) <
        (shares p c bits (gridCell p width height k) x (y / (8 / bits))).length := by
      have hmod := Nat.mod_lt y hper
      have hrow := Nat.div_add_mod' y (8 / bits)
      rw [length_shares]
      show y % (8 / bits) < min (8 / bits) (height - y / (8 / bits) * (8 / bits))
      omega
    rw [glyphByte_fixedGlyphs hbits hk hx (div_lt_stride hper hy),
      lane_packByte hle (fun _ => lt_of_mem_shares) hi]
    simp only [shares, List.getElem_map, List.getElem_range, Nat.div_add_mod']
    rw [Nat.add_comm x, Nat.mul_comm width, Nat.add_comm y, Nat.mul_comm height]
    rfl
  · have hunused : (shares p c bits (gridCell p width height k) x j).length ≤ place / bits := by
      rw [length_shares]
      exact Nat.le_trans (Nat.min_le_right _ _) (Nat.sub_le_iff_le_add'.2 hrow)
    rw [testBit_lane bits _ _ hpos, glyphByte_fixedGlyphs hbits hk hx hj,
      lane_of_lt (packByte_lt hle fun _ => lt_of_mem_shares) hunused, Nat.zero_testBit]

end Grids

end EmbeddedBuffers.Font
