import EmbeddedBuffers.Font.Container
import EmbeddedBuffers.Proofs.Results
import Mathlib.Data.List.Basic

/-!
# Font containers as a reader sees them

The records of a font container have no lengths of their own: where one ends follows from the width
and the height that it holds. So a reader stays in step only as long as no metric has lost anything
on the way into its field. Every metric is checked before it is written, and what does not fit is
refused with the whole font. What is written reads back as it was, up to the last byte. Main
statements: `write_eq_ok`, `reads_write` and `write_lossless`.
-/

namespace EmbeddedBuffers.Font.Container

/-! ## A reader -/

/-- Takes something off the front of some bytes, if there is enough of them. -/
abbrev Reader := StateT (List UInt8) Option

namespace Reader

def byte : Reader UInt8
  | [] => none
  | b :: rest => some (b, rest)

/-- The next `count` bytes. -/
def bytes : (count : Nat) → Reader (List UInt8)
  | 0 => pure []
  | count + 1 => do
    let b ← byte
    let rest ← bytes count
    return b :: rest

/-- The number in the next `count` bytes, the low byte first. -/
def unsigned : (count : Nat) → Reader Nat
  | 0 => pure 0
  | count + 1 => do
    let low ← byte
    let high ← unsigned count
    return low.toNat + 256 * high

/-- The number in the next two bytes, a negative one in two's complement. -/
def signed : Reader Int := do
  let n ← unsigned 2
  return if n < 2 ^ 15 then (n : Int) else n - 2 ^ 16

/-- A record: code point, metrics, and as many bytes as the metrics tell. -/
def glyph : Reader GlyphBitmap := do
  let codePoint ← unsigned 4
  let xmin ← signed
  let ymin ← signed
  let advance ← unsigned 2
  let width ← unsigned 2
  let height ← unsigned 2
  let coverage ← bytes (width * height)
  return ⟨codePoint, xmin, ymin, advance, width, height, coverage⟩

def glyphs : (count : Nat) → Reader (List GlyphBitmap)
  | 0 => pure []
  | count + 1 => do
    let g ← glyph
    let rest ← glyphs count
    return g :: rest

/-- A container: the size and the glyphs. -/
def container : Reader (Nat × List GlyphBitmap) := do
  let front ← bytes 4
  let number ← byte
  guard (front = mark ∧ number = version)
  let size ← unsigned 2
  let count ← unsigned 2
  let found ← glyphs count
  return (size, found)

end Reader

/-- A reader takes just these bytes, whatever stands behind them, and gives a value. -/
def Reads {α : Type} (r : Reader α) (bytes : List UInt8) (a : α) : Prop :=
  ∀ rest, r (bytes ++ rest) = some (a, rest)

section Reads

variable {α β : Type} {r : Reader α} {k : α → Reader β} {front back : List UInt8} {a : α} {b : β}

theorem Reads.pure (a : α) : Reads (Pure.pure a) [] a := fun _ => rfl

/-- Readers one behind the other take bytes one behind the other. -/
theorem Reads.bind (h : Reads r front a) (hk : Reads (k a) back b) :
    Reads (r >>= k) (front ++ back) b := by
  intro rest
  rw [List.append_assoc]
  show (r (front ++ (back ++ rest)) >>= fun (a, rest) => k a rest) = some (b, rest)
  rw [h]
  exact hk rest

/-- A value that is only made into another one. -/
theorem Reads.bind_pure (h : Reads r front a) (f : α → β) :
    Reads (r >>= fun a => Pure.pure (f a)) front (f a) := by
  have hbind := h.bind (k := fun a => Pure.pure (f a)) (Reads.pure (f a))
  rwa [List.append_nil] at hbind

theorem reads_byte (b : UInt8) : Reads Reader.byte [b] b := fun _ => rfl

theorem reads_bytes (bytes : List UInt8) : Reads (Reader.bytes bytes.length) bytes bytes := by
  induction bytes with
  | nil => exact .pure []
  | cons b bytes ih => exact (reads_byte b).bind (ih.bind_pure (b :: ·))

end Reads

/-! ## Numbers -/

theorem lowFirst_succ (count : Nat) (n : Int) :
    lowFirst (count + 1) n = UInt8.ofNat (n % 256).toNat :: lowFirst count (n / 256) := by
  unfold lowFirst
  rw [List.range_succ_eq_map, List.map_cons, List.map_map]
  refine congrArg₂ _ ?_ (List.map_congr_left fun i _ => ?_)
  · rw [Int.pow_zero, Int.ediv_one]
  · rw [Function.comp_apply, Int.ediv_ediv_of_nonneg (by decide), Int.pow_succ']

/-- The low digit of a number and the number of the others. -/
theorem emod_mul (n m : Int) :
    n % (256 * m) = n % 256 + 256 * (n / 256 % m) := by
  rw [Int.emod_def n, Int.emod_def n 256, Int.emod_def (n / 256),
    Int.ediv_ediv_of_nonneg (by decide)]
  grind

/-- Bytes of a number denote what they have room for. -/
theorem reads_unsigned (count : Nat) (n : Int) :
    Reads (Reader.unsigned count) (lowFirst count n) (n % 256 ^ count).toNat := by
  induction count generalizing n with
  | zero =>
      rw [Int.pow_zero, Int.emod_one]
      exact .pure 0
  | succ count ih =>
      have hpow : (0 : Int) < 256 ^ count := Int.pow_pos (by decide)
      have hhigh := Int.emod_nonneg (n / 256) (Int.ne_of_gt hpow)
      have hvalue : (n % 256 ^ (count + 1)).toNat =
          (UInt8.ofNat (n % 256).toNat).toNat + 256 * (n / 256 % 256 ^ count).toNat := by
        rw [Int.pow_succ', emod_mul, UInt8.toNat_ofNat']
        omega
      rw [lowFirst_succ, hvalue]
      exact (reads_byte _).bind ((ih (n / 256)).bind_pure _)

theorem reads_unsigned_of_lt {count n : Nat} (h : n < 256 ^ count) :
    Reads (Reader.unsigned count) (lowFirst count n) n := by
  have hvalue : (n : Int) % 256 ^ count = (n % 256 ^ count : Nat) := by
    rw [Int.natCast_emod, Int.natCast_pow]
    rfl
  have hreads := reads_unsigned count n
  rwa [hvalue, Int.toNat_natCast, Nat.mod_eq_of_lt h] at hreads

/-- Two bytes hold a number of either sign. -/
theorem reads_signed {n : Int} (h : -(2 ^ 15) ≤ n ∧ n < 2 ^ 15) :
    Reads Reader.signed (lowFirst 2 n) n := by
  have hreads := (reads_unsigned 2 n).bind_pure fun n : Nat =>
    if n < 2 ^ 15 then (n : Int) else n - 2 ^ 16
  have hvalue : (if (n % 256 ^ 2).toNat < 2 ^ 15 then ((n % 256 ^ 2).toNat : Int)
      else (n % 256 ^ 2).toNat - 2 ^ 16) = n := by
    split <;> omega
  rwa [hvalue] at hreads

/-! ## Writing -/

/-- What a rasteriser delivers: a code point of 32 bits, and a byte for every pixel. -/
structure Rasterized (g : GlyphBitmap) : Prop where
  codePoint_lt : g.codePoint < 2 ^ 32
  length_coverage : g.coverage.length = g.width * g.height

/-- Every metric fits its field of 16 bits. -/
structure Fits (g : GlyphBitmap) : Prop where
  xmin : -(2 ^ 15) ≤ g.xmin ∧ g.xmin < 2 ^ 15
  ymin : -(2 ^ 15) ≤ g.ymin ∧ g.ymin < 2 ^ 15
  advance : 0 ≤ g.advance ∧ g.advance < 2 ^ 16
  width : g.width < 2 ^ 16
  height : g.height < 2 ^ 16

/-- The record of a glyph, whether or not it fits. -/
def record (g : GlyphBitmap) : List UInt8 :=
  lowFirst 4 g.codePoint ++ (lowFirst 2 g.xmin ++ (lowFirst 2 g.ymin ++ (lowFirst 2 g.advance ++
    (lowFirst 2 g.width ++ (lowFirst 2 g.height ++ g.coverage)))))

variable {g : GlyphBitmap} {gs : List GlyphBitmap} {size : Nat} {bytes : List UInt8}

theorem signedField_eq_ok {what : String} {n : Int} :
    signedField g what n = .ok bytes ↔ (-(2 ^ 15) ≤ n ∧ n < 2 ^ 15) ∧ bytes = lowFirst 2 n := by
  unfold signedField
  split
  · next h => simp only [Except.ok.injEq, h, true_and, eq_comm, and_self]
  · next h => exact iff_of_false (fun h' => by cases h') fun h' => h h'.1

theorem unsignedField_eq_ok {what : String} {n : Int} :
    unsignedField g what n = .ok bytes ↔ (0 ≤ n ∧ n < 2 ^ 16) ∧ bytes = lowFirst 2 n := by
  unfold unsignedField
  split
  · next h => simp only [Except.ok.injEq, h, true_and, eq_comm, and_self]
  · next h => exact iff_of_false (fun h' => by cases h') fun h' => h h'.1

/-- A record is written exactly if its metrics fit. -/
theorem glyph_eq_ok : glyph g = .ok bytes ↔ Fits g ∧ bytes = record g := by
  unfold glyph
  simp only [bind_eq_ok, signedField_eq_ok, unsignedField_eq_ok]
  constructor
  · rintro ⟨_, ⟨hxmin, rfl⟩, _, ⟨hymin, rfl⟩, _, ⟨hadvance, rfl⟩, _, ⟨hwidth, rfl⟩, _,
      ⟨hheight, rfl⟩, hbytes⟩
    cases hbytes
    refine ⟨⟨hxmin, hymin, hadvance, by omega, by omega⟩, ?_⟩
    simp only [record, List.append_assoc]
  · rintro ⟨⟨hxmin, hymin, hadvance, hwidth, hheight⟩, rfl⟩
    refine ⟨_, ⟨hxmin, rfl⟩, _, ⟨hymin, rfl⟩, _, ⟨hadvance, rfl⟩, _, ⟨by omega, rfl⟩, _,
      ⟨by omega, rfl⟩, ?_⟩
    simp only [record, List.append_assoc]
    rfl

/-- **A font is written exactly if its glyphs can be counted and all their metrics fit.** -/
theorem write_eq_ok : write size gs = .ok bytes ↔
    (gs.length < 2 ^ 16 ∧ ∀ g ∈ gs, Fits g) ∧
      bytes = mark ++ ([version] ++ (lowFirst 2 size ++ (lowFirst 2 gs.length ++
        gs.flatMap record))) := by
  have hrecords : ∀ records, gs.mapM glyph = .ok records ↔
      (∀ g ∈ gs, Fits g) ∧ records = gs.map record := by
    intro records
    rw [mapM_eq_ok]
    induction gs generalizing records with
    | nil => cases records <;> simp
    | cons g gs ih => cases records <;> simp [glyph_eq_ok, ih, and_assoc, and_left_comm]
  unfold write
  by_cases hcount : 2 ^ 16 ≤ gs.length
  · rw [if_pos hcount]
    exact iff_of_false (fun h => by cases h) fun h => Nat.not_lt.2 hcount h.1.1
  · rw [if_neg hcount]
    show (gs.mapM glyph >>= _) = _ ↔ _
    simp only [bind_eq_ok, hrecords]
    constructor
    · rintro ⟨_, ⟨hfits, rfl⟩, hbytes⟩
      cases hbytes
      refine ⟨⟨Nat.not_le.1 hcount, hfits⟩, ?_⟩
      simp only [List.flatMap, List.append_assoc]
    · rintro ⟨⟨-, hfits⟩, rfl⟩
      refine ⟨_, ⟨hfits, rfl⟩, ?_⟩
      simp only [List.flatMap, List.append_assoc]
      rfl

/-! ## There and back -/

/-- A record is read up to its last byte, and no further. -/
theorem reads_record (hg : Rasterized g) (h : Fits g) : Reads Reader.glyph (record g) g := by
  have hadvance : ((g.advance.toNat : Nat) : Int) = g.advance := Int.toNat_of_nonneg h.advance.1
  have hadvance' : g.advance.toNat < 256 ^ 2 := by
    have := h.advance.2
    omega
  have hcoverage := reads_bytes g.coverage
  rw [hg.length_coverage] at hcoverage
  unfold Reader.glyph record
  rw [← hadvance]
  refine (reads_unsigned_of_lt hg.codePoint_lt).bind <| (reads_signed h.xmin).bind <|
    (reads_signed h.ymin).bind <| (reads_unsigned_of_lt hadvance').bind <|
    (reads_unsigned_of_lt h.width).bind <| (reads_unsigned_of_lt h.height).bind ?_
  have hreads := hcoverage.bind_pure fun coverage =>
    (⟨g.codePoint, g.xmin, g.ymin, (g.advance.toNat : Nat), g.width, g.height, coverage⟩ :
      GlyphBitmap)
  rwa [hadvance] at hreads ⊢

theorem reads_records (hgs : ∀ g ∈ gs, Rasterized g) (h : ∀ g ∈ gs, Fits g) :
    Reads (Reader.glyphs gs.length) (gs.flatMap record) gs := by
  induction gs with
  | nil => exact .pure []
  | cons g gs ih =>
      obtain ⟨hg, hgs⟩ := List.forall_mem_cons.1 hgs
      obtain ⟨hfits, h⟩ := List.forall_mem_cons.1 h
      exact (reads_record hg hfits).bind ((ih hgs h).bind_pure (g :: ·))

/-- A container is read up to its last byte, and no further. -/
theorem reads_write (hsize : size < 2 ^ 16) (hgs : ∀ g ∈ gs, Rasterized g)
    (h : write size gs = .ok bytes) : Reads Reader.container bytes (size, gs) := by
  obtain ⟨⟨hcount, hfits⟩, rfl⟩ := write_eq_ok.1 h
  refine (reads_bytes mark).bind <| (reads_byte version).bind ?_
  exact (Reads.pure ()).bind <| (reads_unsigned_of_lt hsize).bind <|
    (reads_unsigned_of_lt hcount).bind <| (reads_records hgs hfits).bind_pure (size, ·)

/-- **A font container is lossless, or the font is refused.** It is written exactly if the number of
glyphs and all metrics fit their fields. What is written is read to the last byte, whatever stands
behind it, and gives the size and all glyphs in order; so no two fonts have the same container. -/
theorem write_lossless (hsize : size < 2 ^ 16) (hgs : ∀ g ∈ gs, Rasterized g) :
    ((∃ bytes, write size gs = .ok bytes) ↔ gs.length < 2 ^ 16 ∧ ∀ g ∈ gs, Fits g) ∧
    ∀ bytes, write size gs = .ok bytes →
      (∀ rest, Reader.container (bytes ++ rest) = some ((size, gs), rest)) ∧
      ∀ size' < 2 ^ 16, ∀ gs', (∀ g ∈ gs', Rasterized g) → write size' gs' = .ok bytes →
        size' = size ∧ gs' = gs := by
  refine ⟨?_, fun bytes h => ?_⟩
  · simp only [write_eq_ok, exists_and_left, exists_eq, and_true]
  · have hreads := reads_write hsize hgs h
    refine ⟨hreads, fun size' hsize' gs' hgs' h' => ?_⟩
    have hsame := (reads_write hsize' hgs' h' []).symm.trans (hreads [])
    simp only [Option.some.injEq, Prod.mk.injEq, and_true] at hsame
    exact hsame

/-- A letter that starts left of its place and one that is below it and has no pixels. -/
theorem write_lossless_letters :
    let gs : List GlyphBitmap := [⟨0x41, -1, 2, 7, 2, 1, [0x10, 0xFF]⟩, ⟨0x42, 3, -2, 4, 0, 0, []⟩]
    let bytes : List UInt8 := [0x4D, 0x50, 0x46, 0x46, 1, 16, 0, 2, 0,
      0x41, 0, 0, 0, 0xFF, 0xFF, 2, 0, 7, 0, 2, 0, 1, 0, 0x10, 0xFF,
      0x42, 0, 0, 0, 3, 0, 0xFE, 0xFF, 4, 0, 0, 0, 0, 0]
    (16 < 2 ^ 16 ∧ ∀ g ∈ gs, Rasterized g) ∧ write 16 gs = .ok bytes ∧
      Reader.container bytes = some ((16, gs), []) := by
  intro gs bytes
  have hsize : 16 < 2 ^ 16 := by decide
  have hgs : ∀ g ∈ gs, Rasterized g := List.forall_mem_cons.2
    ⟨⟨by decide, by decide⟩, List.forall_mem_singleton.2 ⟨by decide, by decide⟩⟩
  have hwrite : write 16 gs = .ok bytes := by decide +kernel
  exact ⟨⟨hsize, hgs⟩, hwrite, ((write_lossless hsize hgs).2 bytes hwrite).1 []⟩

/-- One metric that does not fit is enough. -/
example : write 16 [⟨0x42, 40000, 0, 1, 0, 0, []⟩] = .error (.outOfRange 0x42 "xmin" 40000) := by
  decide +kernel

end EmbeddedBuffers.Font.Container
