import EmbeddedBuffers.Proofs.Codec.Guarded
import EmbeddedBuffers.Proofs.Font.Columns
import EmbeddedBuffers.Proofs.Picture.Places

/-!
# Columns under guard

Glyphs as a machine cuts and packs them whose numbers are words of 32 bits, and which checks every
sum, product, difference, quotient, shift and place. Rows are put one by one into the byte that is
open; a byte that is full is put behind the others, and so is the one that is left at the end of a
column. In a picture of fewer than `2 ^ 32` pixels nothing is breached, for a rectangle that lies in
the picture has no more bytes than the picture has pixels. Main statement: `Machine.columns_eq`.
-/

namespace EmbeddedBuffers

/-- A picture as it comes from a decoder: its sides are words, and so is the number of pixels. -/
structure Picture.Decoded (p : Picture) : Prop where
  width_lt : p.width < 2 ^ 32
  height_lt : p.height < 2 ^ 32
  area_lt : p.width * p.height < 2 ^ 32

namespace Font

open Codec (Guarded)
open Codec.Guarded (breach require word difference require_bind word_bind difference_bind)

/-- A rectangle lies in a picture. -/
structure Cell.Inside (cell : Cell) (p : Picture) : Prop where
  right_le : cell.left + cell.width ≤ p.width
  bottom_le : cell.top + cell.height ≤ p.height

namespace Machine

/-! ## Words -/

def sum (a b : Nat) : Guarded Nat := word 32 (a + b)

def product (a b : Nat) : Guarded Nat := word 32 (a * b)

def quotient (a b : Nat) : Guarded Nat := do
  require (b ≠ 0) .overflow
  return a / b

def remainder (a b : Nat) : Guarded Nat := do
  require (b ≠ 0) .overflow
  return a % b

/-- A quotient rounded up. -/
def quotientUp (a b : Nat) : Guarded Nat := do
  let whole ← quotient a b
  let rest ← remainder a b
  if 0 < rest then sum whole 1 else pure whole

/-- A byte is shifted by less than its width, and what leaves it is lost. -/
def shiftDown (byte places : Nat) : Guarded Nat := do
  require (places < 8) .overflow
  return byte >>> places

def shiftUp (byte places : Nat) : Guarded Nat := do
  require (places < 8) .overflow
  return byte <<< places % 2 ^ 8

section Words

variable {α : Type} {a b : Nat}

theorem sum_bind (h : a + b < 2 ^ 32) (k : Nat → Guarded α) : (sum a b >>= k) = k (a + b) :=
  word_bind h k

theorem product_bind (h : a * b < 2 ^ 32) (k : Nat → Guarded α) :
    (product a b >>= k) = k (a * b) :=
  word_bind h k

theorem quotient_bind (h : 0 < b) (k : Nat → Guarded α) : (quotient a b >>= k) = k (a / b) := by
  rw [quotient, require_bind (Nat.ne_of_gt h)]
  rfl

theorem remainder_bind (h : 0 < b) (k : Nat → Guarded α) : (remainder a b >>= k) = k (a % b) := by
  rw [remainder, require_bind (Nat.ne_of_gt h)]
  rfl

/-- A quotient rounded up is the next one unless nothing is left. -/
theorem add_pred_div (a : Nat) (hb : 0 < b) :
    (a + (b - 1)) / b = a / b + if 0 < a % b then 1 else 0 := by
  have hpred : b - 1 < b := Nat.sub_lt hb Nat.one_pos
  rw [Nat.add_div hb, Nat.div_eq_of_lt hpred, Nat.mod_eq_of_lt hpred, Nat.add_zero]
  exact congrArg _ (if_congr (by omega) rfl rfl)

theorem add_pred_div_le (a : Nat) (hb : 0 < b) : (a + (b - 1)) / b ≤ a := by
  rw [add_pred_div a hb]
  split
  · next hrest =>
    calc a / b + 1 ≤ a / b * b + a % b :=
          Nat.add_le_add (Nat.le_mul_of_pos_right _ hb) hrest
      _ = a := Nat.div_add_mod' a b
  · exact Nat.div_le_self a b

theorem quotientUp_bind (hb : 0 < b) (ha : a < 2 ^ 32) (k : Nat → Guarded α) :
    (quotientUp a b >>= k) = k ((a + (b - 1)) / b) := by
  have hle := add_pred_div_le a hb
  rw [quotientUp, quotient_bind hb, remainder_bind hb]
  rw [add_pred_div a hb] at hle ⊢
  split
  · next hrest =>
    rw [if_pos hrest] at hle
    exact sum_bind (Nat.lt_of_le_of_lt hle ha) k
  · rfl

theorem shiftDown_bind (h : b < 8) (k : Nat → Guarded α) : (shiftDown a b >>= k) = k (a >>> b) := by
  rw [shiftDown, require_bind h]
  rfl

theorem shiftUp_bind (h : b < 8) (k : Nat → Guarded α) :
    (shiftUp a b >>= k) = k (a <<< b % 2 ^ 8) := by
  rw [shiftUp, require_bind h]
  rfl

end Words

/-- A loop that breaches nothing goes through the states that are told for its turns. -/
theorem foldlM_range {σ : Type} {step : σ → Nat → Guarded σ} (state : Nat → σ) {n : Nat}
    (h : ∀ i < n, step (state i) i = pure (state (i + 1))) :
    (List.range n).foldlM step (state 0) = pure (state n) := by
  induction n with
  | zero => rfl
  | succ n ih =>
      rw [List.range_succ, List.foldlM_append, ih fun i hi => h i (Nat.lt_succ_of_lt hi), pure_bind,
        List.foldlM_cons, h n (Nat.lt_succ_self n), pure_bind]
      rfl

/-! ## Pixels -/

/-- The pixel at a place. -/
def pixel (p : Picture) (x y : Nat) : Guarded Pixel :=
  match p.get? x y with
  | some found => pure found
  | none => breach (.outside (y * p.width + x) p.pixels.size)

/-- The coverage of a pixel, which is a byte. -/
def coverage (c : Channel) (p : Pixel) : Guarded Nat :=
  match c with
  | .rgb => do
    let total ← sum p.red.toNat p.green.toNat
    let total ← sum total p.blue.toNat
    let total ← sum total 2
    let average ← quotient total 3
    word 8 average
  | .alpha => pure p.alpha.toNat

theorem pixel_eq {p : Picture} {x y : Nat} (hx : x < p.width) (hy : y < p.height) :
    pixel p x y = pure (p.get x y) := by
  rw [pixel, Picture.get?_eq_some hx hy]

theorem coverage_eq (c : Channel) (p : Pixel) : coverage c p = pure (c.coverage p) := by
  have hred := p.red.toNat_lt
  have hgreen := p.green.toNat_lt
  have hblue := p.blue.toNat_lt
  cases c with
  | rgb =>
      have hlt := Channel.rgb.coverage_lt p
      rw [coverage, sum_bind (by omega), sum_bind (by omega), sum_bind (by omega),
        quotient_bind (by decide)]
      exact (bind_pure _).symm.trans (word_bind hlt pure)
  | alpha => rfl

/-! ## Columns -/

/-- Puts a row of a column into the open byte, the one behind `out`. -/
def putRow (p : Picture) (c : Channel) (bits perByte shift : Nat) (cell : Cell) (x : Nat) :
    (done : List UInt8 × Nat) → (y : Nat) → Guarded (List UInt8 × Nat)
  | (out, byte), y => do
    let column ← sum cell.left x
    let row ← sum cell.top y
    let value ← coverage c (← pixel p column row)
    let value ← shiftDown value shift
    let turn ← remainder y perByte
    let place ← product turn bits
    let value ← shiftUp value place
    let last ← difference perByte 1
    if turn = last then return (out ++ [UInt8.ofNat (byte ||| value)], 0)
    else return (out, byte ||| value)

/-- Puts a column behind the others. -/
def putColumn (p : Picture) (c : Channel) (bits perByte shift : Nat) (cell : Cell)
    (out : List UInt8) (x : Nat) : Guarded (List UInt8) := do
  let (out, byte) ← (List.range cell.height).foldlM (putRow p c bits perByte shift cell x) (out, 0)
  let rest ← remainder cell.height perByte
  if rest ≠ 0 then return out ++ [UInt8.ofNat byte] else return out

/-- The packed columns of a rectangle. -/
def columns (p : Picture) (c : Channel) (bits : Nat) (cell : Cell) : Guarded (List UInt8) := do
  let perByte ← quotient 8 bits
  let shift ← difference 8 bits
  let needed ← quotientUp cell.height perByte
  let _size ← product cell.width needed
  (List.range cell.width).foldlM (putColumn p c bits perByte shift cell) []

end Machine

theorem packByte_append (bits : Nat) (values : List Nat) (value : Nat) :
    packByte bits (values ++ [value]) =
      packByte bits values + 2 ^ (bits * values.length) * (value >>> (8 - bits)) := by
  induction values with
  | nil => simp [packByte]
  | cons v values ih =>
      rw [List.cons_append, packByte, ih, packByte, List.length_cons, Nat.mul_succ, Nat.pow_add]
      grind

/-- A value is put above the ones that a byte holds already. -/
theorem packByte_or {bits : Nat} (hbits : bits ≤ 8) {values : List Nat} {value : Nat}
    (hvalues : ∀ v ∈ values, v < 2 ^ 8) (hvalue : value < 2 ^ 8)
    (hfit : bits * (values.length + 1) ≤ 8) :
    packByte bits values ||| value >>> (8 - bits) <<< (values.length * bits) % 2 ^ 8 =
      packByte bits (values ++ [value]) := by
  have hlow := packByte_lt hbits hvalues
  have hhigh : value >>> (8 - bits) * 2 ^ (bits * values.length) < 2 ^ 8 := by
    calc value >>> (8 - bits) * 2 ^ (bits * values.length)
        < 2 ^ bits * 2 ^ (bits * values.length) :=
          Nat.mul_lt_mul_of_pos_right (shiftRight_lt hbits hvalue) (Nat.two_pow_pos _)
      _ = 2 ^ (bits * (values.length + 1)) := by rw [← Nat.pow_add, Nat.mul_succ, Nat.add_comm]
      _ ≤ 2 ^ 8 := Nat.pow_le_pow_right (by decide) hfit
  rw [packByte_append, Nat.shiftLeft_eq, Nat.mul_comm values.length, Nat.mod_eq_of_lt hhigh,
    Nat.mul_comm, Nat.add_comm, Nat.two_pow_add_eq_or_of_lt hlow, Nat.or_comm]

namespace Machine

section Columns

variable {p : Picture} {c : Channel} {bits : Nat} {cell : Cell} {x y : Nat}

/-- The coverage of the first `count` pixels that share byte `k` of a column. -/
def rowsOf (p : Picture) (c : Channel) (bits : Nat) (cell : Cell) (x k count : Nat) : List Nat :=
  (List.range count).map fun i =>
    c.coverage (p.get (cell.left + x) (cell.top + (k * (8 / bits) + i)))

/-- What is put of a column when `y` of its rows are: the bytes that are full, and the open one. -/
def putUpTo (p : Picture) (c : Channel) (bits : Nat) (cell : Cell) (x : Nat) (out : List UInt8)
    (y : Nat) : List UInt8 × Nat :=
  (out ++ (List.range (y / (8 / bits))).map fun k =>
      UInt8.ofNat (packByte bits (rowsOf p c bits cell x k (8 / bits))),
    packByte bits (rowsOf p c bits cell x (y / (8 / bits)) (y % (8 / bits))))

theorem rowsOf_succ (k count : Nat) : rowsOf p c bits cell x k (count + 1) =
    rowsOf p c bits cell x k count ++
      [c.coverage (p.get (cell.left + x) (cell.top + (k * (8 / bits) + count)))] := by
  rw [rowsOf, List.range_succ, List.map_append, List.map_singleton, rowsOf]

theorem length_rowsOf (k count : Nat) : (rowsOf p c bits cell x k count).length = count := by
  rw [rowsOf, List.length_map, List.length_range]

theorem lt_of_mem_rowsOf {k count value : Nat} (h : value ∈ rowsOf p c bits cell x k count) :
    value < 2 ^ 8 := by
  obtain ⟨i, -, rfl⟩ := List.mem_map.1 h
  exact c.coverage_lt _

/-- A byte has room for one more pixel than those of the rows above in its turn. -/
theorem turn_fits (hbits : bits ∣ 8) (y : Nat) : bits * (y % (8 / bits) + 1) ≤ 8 := by
  calc bits * (y % (8 / bits) + 1) ≤ bits * (8 / bits) :=
        Nat.mul_le_mul_left _ (Nat.mod_lt y (perByte_pos hbits))
    _ = 8 := Nat.mul_div_cancel' hbits

/-- Putting a row into the open byte makes it the byte of one row more. -/
theorem rowsOf_or (hbits : bits ∣ 8) (y : Nat) :
    packByte bits (rowsOf p c bits cell x (y / (8 / bits)) (y % (8 / bits))) |||
        c.coverage (p.get (cell.left + x) (cell.top + y)) >>> (8 - bits)
          <<< (y % (8 / bits) * bits) % 2 ^ 8 =
      packByte bits (rowsOf p c bits cell x (y / (8 / bits)) (y % (8 / bits) + 1)) := by
  have hfit :
      bits * ((rowsOf p c bits cell x (y / (8 / bits)) (y % (8 / bits))).length + 1) ≤ 8 := by
    rw [length_rowsOf]
    exact turn_fits hbits y
  have hbyte := packByte_or (Nat.le_of_dvd (by decide) hbits) (fun v => lt_of_mem_rowsOf)
    (c.coverage_lt (p.get (cell.left + x) (cell.top + y))) hfit
  rw [length_rowsOf] at hbyte
  rw [rowsOf_succ, Nat.div_add_mod' y (8 / bits)]
  exact hbyte

theorem next_of_last {per : Nat} (hper : 0 < per) (h : y % per = per - 1) :
    (y + 1) / per = y / per + 1 ∧ (y + 1) % per = 0 := by
  have hrow := Nat.div_add_mod y per
  refine (Nat.div_mod_unique hper).2 ⟨?_, hper⟩
  rw [Nat.mul_succ]
  omega

theorem next_of_not_last {per : Nat} (hper : 0 < per) (h : y % per ≠ per - 1) :
    (y + 1) / per = y / per ∧ (y + 1) % per = y % per + 1 := by
  have hrow := Nat.div_add_mod y per
  have hlt := Nat.mod_lt y hper
  exact (Nat.div_mod_unique hper).2 ⟨by omega, by omega⟩

/-- A row is put where it belongs, and the next byte is opened when the byte is full. -/
theorem putRow_eq (hp : p.Decoded) (hcell : cell.Inside p) (hbits : bits ∣ 8) (hx : x < cell.width)
    (hy : y < cell.height) (out : List UInt8) :
    putRow p c bits (8 / bits) (8 - bits) cell x (putUpTo p c bits cell x out y) y =
      pure (putUpTo p c bits cell x out (y + 1)) := by
  have hpos : 0 < bits := Nat.pos_of_dvd_of_pos hbits (by decide)
  have hper : 0 < 8 / bits := perByte_pos hbits
  have hplace : y % (8 / bits) * bits < 8 := by
    have hfit := turn_fits hbits y
    rw [Nat.mul_succ, Nat.mul_comm] at hfit
    omega
  obtain ⟨hright, hbottom⟩ := hcell
  have hwidth := hp.width_lt
  have hheight := hp.height_lt
  unfold putUpTo putRow
  dsimp only
  rw [sum_bind (by omega), sum_bind (by omega), pixel_eq (by omega) (by omega), pure_bind,
    coverage_eq, pure_bind, shiftDown_bind (by omega), remainder_bind hper,
    product_bind (by omega), shiftUp_bind hplace, difference_bind hper, rowsOf_or hbits]
  split
  · next hlast =>
    obtain ⟨hdiv, hmod⟩ := next_of_last hper hlast
    rw [hdiv, hmod, hlast, Nat.sub_add_cancel hper, List.range_succ, List.map_append,
      List.append_assoc]
    rfl
  · next hmore =>
    obtain ⟨hdiv, hmod⟩ := next_of_not_last hper hmore
    rw [hdiv, hmod]

theorem putUpTo_zero (out : List UInt8) : putUpTo p c bits cell x out 0 = (out, 0) := by
  rw [putUpTo, Nat.zero_div, Nat.zero_mod, List.range_zero, List.map_nil, List.append_nil]
  rfl

theorem shares_of_full {k : Nat} (hk : k < cell.height / (8 / bits)) :
    shares p c bits cell x k = rowsOf p c bits cell x k (8 / bits) := by
  have hrows : k * (8 / bits) + 8 / bits ≤ cell.height := mul_add_le_of_lt_div hk
  have hcount : min (8 / bits) (cell.height - k * (8 / bits)) = 8 / bits :=
    Nat.min_eq_left (by omega)
  exact congrArg (rowsOf p c bits cell x k) hcount

theorem shares_of_rest (hbits : bits ∣ 8) :
    shares p c bits cell x (cell.height / (8 / bits)) =
      rowsOf p c bits cell x (cell.height / (8 / bits)) (cell.height % (8 / bits)) := by
  have hlt := Nat.mod_lt cell.height (perByte_pos hbits)
  have hrows := Nat.div_add_mod' cell.height (8 / bits)
  have hcount : min (8 / bits) (cell.height - cell.height / (8 / bits) * (8 / bits)) =
      cell.height % (8 / bits) := by omega
  exact congrArg (rowsOf p c bits cell x (cell.height / (8 / bits))) hcount

/-- The bytes that are full when all rows are put are those of the column, but for the last one if
its rows do not fill it. -/
theorem putColumn_eq (hp : p.Decoded) (hcell : cell.Inside p) (hbits : bits ∣ 8)
    (hx : x < cell.width) (out : List UInt8) :
    putColumn p c bits (8 / bits) (8 - bits) cell out x =
      pure (out ++ (List.range (columnBytes cell.height bits)).map fun k =>
        UInt8.ofNat (packByte bits (shares p c bits cell x k))) := by
  have hper : 0 < 8 / bits := perByte_pos hbits
  have hloop := foldlM_range (putUpTo p c bits cell x out) (n := cell.height)
    fun y hy => putRow_eq hp hcell hbits hx hy out
  have hfull : ∀ k ∈ List.range (cell.height / (8 / bits)),
      UInt8.ofNat (packByte bits (rowsOf p c bits cell x k (8 / bits))) =
        UInt8.ofNat (packByte bits (shares p c bits cell x k)) := by
    intro k hk
    rw [shares_of_full (List.mem_range.1 hk)]
  rw [putUpTo_zero] at hloop
  rw [putColumn, hloop, pure_bind, putUpTo]
  dsimp only
  rw [remainder_bind hper, columnBytes, add_pred_div _ hper, List.map_congr_left hfull]
  by_cases hrest : cell.height % (8 / bits) = 0
  · -- No rows are left, and the open byte is empty.
    rw [if_neg (not_not_intro hrest), if_neg (by omega), Nat.add_zero]
  · rw [if_pos hrest, if_pos (Nat.pos_of_ne_zero hrest), List.range_succ, List.map_append,
      List.map_singleton, shares_of_rest hbits, List.append_assoc]

/-- A column takes no more bytes than it has rows. -/
theorem columnBytes_le (hbits : bits ∣ 8) (height : Nat) : columnBytes height bits ≤ height :=
  add_pred_div_le height (perByte_pos hbits)

theorem columns_lt (hp : p.Decoded) (hcell : cell.Inside p) (hbits : bits ∣ 8) :
    cell.width * columnBytes cell.height bits < 2 ^ 32 := by
  have hwidth : cell.width ≤ p.width := Nat.le_trans (Nat.le_add_left _ _) hcell.right_le
  have hheight : columnBytes cell.height bits ≤ p.height :=
    Nat.le_trans (columnBytes_le hbits _) (Nat.le_trans (Nat.le_add_left _ _) hcell.bottom_le)
  exact Nat.lt_of_le_of_lt (Nat.mul_le_mul hwidth hheight) hp.area_lt

/-- **A rectangle that lies in a picture is packed without a breach**, and as it should be. -/
theorem columns_eq (hp : p.Decoded) (hcell : cell.Inside p) (hbits : bits ∣ 8) :
    columns p c bits cell = pure (Font.columns p c bits cell) := by
  have hle : bits ≤ 8 := Nat.le_of_dvd (by decide) hbits
  have hpos : 0 < bits := Nat.pos_of_dvd_of_pos hbits (by decide)
  have hheight : cell.height < 2 ^ 32 := by
    have hbottom := hcell.bottom_le
    have hlt := hp.height_lt
    omega
  let done (count : Nat) := (List.range count).flatMap fun x =>
    (List.range (columnBytes cell.height bits)).map fun k =>
      UInt8.ofNat (packByte bits (shares p c bits cell x k))
  have hstep : ∀ x < cell.width,
      putColumn p c bits (8 / bits) (8 - bits) cell (done x) x = pure (done (x + 1)) := by
    intro x hx
    show _ = pure ((List.range (x + 1)).flatMap _)
    rw [putColumn_eq hp hcell hbits hx, List.range_succ, List.flatMap_append,
      List.flatMap_singleton]
  rw [columns, quotient_bind hpos, difference_bind hle,
    quotientUp_bind (Nat.div_pos hle hpos) hheight,
    show ((cell.height + (8 / bits - 1)) / (8 / bits)) = columnBytes cell.height bits from rfl,
    product_bind (columns_lt hp hcell hbits), Font.columns_eq]
  exact foldlM_range done hstep

end Columns

end Machine

end Font

end EmbeddedBuffers
