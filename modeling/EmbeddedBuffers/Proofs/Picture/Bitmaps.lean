import EmbeddedBuffers.Picture.PixelFormat
import EmbeddedBuffers.Proofs.Codec.Items
import EmbeddedBuffers.Proofs.Picture.Places

/-!
# Bitmaps as a reader sees them

A bitmap is a stream of numbers, all as wide as the codes of its pixel format. No format has a code
that is wider, so that no pixel runs into the next one, and a reader that knows the format and the
number of pixels is given the codes one after the other, wherever in a byte they start. Main
statements: `code_lt` and `bitmap_codes`.
-/

namespace EmbeddedBuffers

/-! ## Codes -/

namespace PixelFormat

theorem bits_le (f : PixelFormat) : f.bits ≤ 64 := by cases f <;> decide

/-- Some bits of a part of a colour, moved up. -/
theorem shiftLeft_lt_two_pow {n count width : Nat} (hn : n < 2 ^ 8) (hwidth : 8 + count ≤ width) :
    n <<< count < 2 ^ width := by
  rw [Nat.shiftLeft_eq]
  calc n * 2 ^ count < 2 ^ 8 * 2 ^ count := Nat.mul_lt_mul_of_pos_right hn (Nat.two_pow_pos count)
    _ = 2 ^ (8 + count) := (Nat.pow_add 2 8 count).symm
    _ ≤ 2 ^ width := Nat.pow_le_pow_right (by decide) hwidth

/-- **No code is wider than its field.** -/
theorem code_lt (f : PixelFormat) (p : Pixel) : f.code p < 2 ^ f.bits := by
  have hred := p.red.toNat_lt
  have hgreen := p.green.toNat_lt
  have hblue := p.blue.toNat_lt
  have halpha := p.alpha.toNat_lt
  have masked : ∀ {n : Nat} (mask : Nat), n < 2 ^ 8 → n &&& mask < 2 ^ 8 := fun mask hn =>
    Nat.lt_of_le_of_lt Nat.and_le_left hn
  have lowered : ∀ {n : Nat} (count : Nat), n < 2 ^ 8 → n >>> count < 2 ^ 8 := fun count hn =>
    Nat.lt_of_le_of_lt (Nat.shiftRight_le _ count) hn
  have widened : ∀ {n width : Nat}, n < 2 ^ 8 → 8 ≤ width → n < 2 ^ width := fun hn hwidth =>
    Nat.lt_of_lt_of_le hn (Nat.pow_le_pow_right (by decide) hwidth)
  cases f with
  | rgba8888 =>
      refine Nat.or_lt_two_pow (Nat.or_lt_two_pow (Nat.or_lt_two_pow ?_ ?_) ?_) ?_
      · exact shiftLeft_lt_two_pow hred (by decide)
      · exact shiftLeft_lt_two_pow hgreen (by decide)
      · exact shiftLeft_lt_two_pow hblue (by decide)
      · exact widened halpha (by decide)
  | rgb888 =>
      refine Nat.or_lt_two_pow (Nat.or_lt_two_pow ?_ ?_) ?_
      · exact shiftLeft_lt_two_pow hred (by decide)
      · exact shiftLeft_lt_two_pow hgreen (by decide)
      · exact widened hblue (by decide)
  | rgb565 =>
      refine Nat.or_lt_two_pow (Nat.or_lt_two_pow ?_ ?_) ?_
      · exact shiftLeft_lt_two_pow (masked _ hred) (by decide)
      · exact shiftLeft_lt_two_pow (masked _ hgreen) (by decide)
      · exact widened (lowered _ hblue) (by decide)
  | rgba4444 =>
      refine Nat.or_lt_two_pow (Nat.or_lt_two_pow (Nat.or_lt_two_pow ?_ ?_) ?_) ?_
      · exact shiftLeft_lt_two_pow (masked _ hred) (by decide)
      · exact shiftLeft_lt_two_pow (masked _ hgreen) (by decide)
      · exact widened (masked _ hblue) (by decide)
      · exact widened (lowered _ (masked _ halpha)) (by decide)
  | rgab5515 =>
      refine Nat.or_lt_two_pow (Nat.or_lt_two_pow (Nat.or_lt_two_pow ?_ ?_) ?_) ?_
      · exact shiftLeft_lt_two_pow (masked _ hred) (by decide)
      · exact shiftLeft_lt_two_pow (masked _ hgreen) (by decide)
      · split <;> decide
      · exact widened (lowered _ hblue) (by decide)
  | r4 =>
      show ((p.red.toNat + p.green.toNat + p.blue.toNat + 2) / 3) >>> 4 < 2 ^ 4
      rw [Nat.shiftRight_eq_div_pow]
      omega
  | a4 =>
      show p.alpha.toNat >>> 4 < 2 ^ 4
      rw [Nat.shiftRight_eq_div_pow]
      omega
  | r1 =>
      show (if 384 < p.red.toNat + p.green.toNat + p.blue.toNat then 1 else 0) < 2 ^ 1
      split <;> decide
  | a1 =>
      show (if 0 < p.alpha.toNat then 1 else 0) < 2 ^ 1
      split <;> decide

end PixelFormat

/-! ## Streams of codes -/

open Codec

/-- A code as an item of a stream. -/
def PixelFormat.item (f : PixelFormat) (code : Nat) : Item := .number code f.bits

namespace Picture

/-- The codes of the pixels, row by row and in a row from left to right. -/
def codes (p : Picture) (f : PixelFormat) : List Nat :=
  (List.range p.height).flatMap fun y => (List.range p.width).map fun x => f.code (p.get x y)

/-- The bitmap as it is written in memory, to bytes that are filled piece by piece. -/
def bitmapInMemory (p : Picture) (f : PixelFormat) : ByteWriter :=
  p.toList.foldl (fun w pixel => w.write (UInt64.ofNat (f.code pixel)) f.bits) .empty

variable (p : Picture) (f : PixelFormat)

theorem codes_eq : p.codes f = p.toList.map f.code := by
  rw [toList_eq, List.map_flatMap, codes]
  simp only [List.map_map]
  rfl

theorem length_codes : (p.codes f).length = p.width * p.height := by
  rw [codes_eq, List.length_map, toList, Array.length_toList, p.size_eq]

theorem bitmap_eq : p.bitmap f = streamOf ((p.codes f).map f.item) := by
  rw [codes_eq, List.map_map, streamOf, BitWriter.putAll, List.foldl_map]
  rfl

theorem bitmapInMemory_eq :
    p.bitmapInMemory f = ByteWriter.empty.putAll ((p.codes f).map f.item) := by
  rw [codes_eq, List.map_map, ByteWriter.putAll, List.foldl_map]
  rfl

theorem narrow_items : ∀ i ∈ (p.codes f).map f.item, i.Narrow := by
  intro i hi
  obtain ⟨code, -, rfl⟩ := List.mem_map.1 hi
  exact f.bits_le

theorem map_width_items :
    ((p.codes f).map f.item).map Item.width = List.replicate (p.width * p.height) f.bits := by
  rw [List.map_map, ← length_codes p f]
  exact List.map_const'

/-- What a reader of the bitmap asks for. -/
theorem map_demand_items : ((p.codes f).map f.item).map Item.demand =
    List.replicate (p.width * p.height) (.number f.bits) := by
  rw [List.map_map, ← length_codes p f]
  exact List.map_const'

/-- What it is given are the codes as they are, since each of them fits its field. -/
theorem map_held_items : ((p.codes f).map f.item).map Item.held = (p.codes f).map f.item := by
  rw [List.map_map]
  refine List.map_congr_left fun code hcode => ?_
  rw [codes_eq] at hcode
  obtain ⟨pixel, -, rfl⟩ := List.mem_map.1 hcode
  rw [Function.comp_apply, PixelFormat.item, Item.held, Nat.mod_eq_of_lt (f.code_lt pixel)]

theorem length_bitmap : (p.bitmap f).length = (p.width * p.height * f.bits + 7) / 8 := by
  rw [bitmap_eq, length_streamOf, map_width_items, List.sum_replicate_nat]

theorem bytes_bitmapInMemory : (p.bitmapInMemory f).bytes.toList = p.bitmap f := by
  rw [bitmapInMemory_eq, bitmap_eq, bytes_putAll (narrow_items p f)]

/-- The codes are taken off the bitmap one after the other, and zeros for less than a byte are
left. -/
theorem takeAll_bitmap : ∃ padding < 8, ∃ r,
    (BitReader.ofBytes (p.bitmap f)).takeAll
        (List.replicate (p.width * p.height) (.number f.bits)) =
      (.ok ((p.codes f).map f.item), r) ∧ r.ahead = List.replicate padding false := by
  obtain ⟨padding, hpadding, hbits⟩ := bytesBits_streamOf ((p.codes f).map f.item)
  rw [← bitmap_eq] at hbits
  have htake := BitReader.takeAll_demands (r := .ofBytes (p.bitmap f)) (narrow_items p f) hbits
  rw [map_demand_items, map_held_items] at htake
  refine ⟨padding, hpadding, _, htake, ?_⟩
  show (bytesBits (p.bitmap f)).drop _ = _
  rw [hbits, ← length_flatMap_bits, List.drop_left]

/-- **A bitmap keeps every pixel.** Its codes fit their fields, its bytes are as many as these
fields fill, and asked for as many fields as there are pixels, a reader gives the codes of the
pixels row by row. Less than a byte is left, and it is zero. Written and read in memory, the bytes
and the codes are the same. -/
theorem bitmap_codes :
    (p.bitmap f).length = (p.width * p.height * f.bits + 7) / 8 ∧
    (∀ pixel, f.code pixel < 2 ^ f.bits) ∧
    (p.bitmapInMemory f).bytes.toList = p.bitmap f ∧
    ∃ padding < 8, ∃ r r',
      (BitReader.ofBytes (p.bitmap f)).takeAll
          (List.replicate (p.width * p.height) (.number f.bits)) =
        (.ok ((p.codes f).map fun code => .number code f.bits), r) ∧
      r.ahead = List.replicate padding false ∧
      (ByteReader.mk (p.bitmapInMemory f).bytes 0).takeAll
          (List.replicate (p.width * p.height) (.number f.bits)) =
        (.ok ((p.codes f).map fun code => .number code f.bits), r') ∧ r'.view = r := by
  have hnarrow : ∀ d ∈ List.replicate (p.width * p.height) (Demand.number f.bits), d.Narrow := by
    intro d hd
    rw [List.eq_of_mem_replicate hd]
    exact f.bits_le
  obtain ⟨padding, hpadding, r, htake, hleft⟩ := takeAll_bitmap p f
  obtain ⟨r', htake', hview⟩ :=
    takeAll_bytes (w := p.bitmapInMemory f) hnarrow (bytes_bitmapInMemory p f ▸ htake)
  exact ⟨length_bitmap p f, f.code_lt, bytes_bitmapInMemory p f, padding, hpadding, r, r', htake,
    hleft, htake', hview⟩

/-- Nine pixels of one bit: the rows run into each other, and seven bits are left. -/
example : (Picture.bitmap ⟨3, 3, #[⟨255, 255, 255, 255⟩, default, default, default, default,
    default, default, default, ⟨255, 255, 255, 255⟩], rfl⟩ .r1) = [0x80, 0x80] := by decide

end Picture

end EmbeddedBuffers
