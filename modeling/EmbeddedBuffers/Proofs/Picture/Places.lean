import EmbeddedBuffers.Picture.Basic
import EmbeddedBuffers.Proofs.Slices

/-!
# Places in a picture

Inside a picture every place has a pixel, and the pixels are these row by row. Main statement:
`toList_eq`.
-/

namespace EmbeddedBuffers.Picture

variable {p : Picture} {x y : Nat}

theorem get?_eq_getElem? (hx : x < p.width) (hy : y < p.height) :
    p.get? x y = p.pixels[y * p.width + x]? :=
  if_pos ⟨hx, hy⟩

theorem get?_eq_some (hx : x < p.width) (hy : y < p.height) : p.get? x y = some (p.get x y) := by
  have hinside : y * p.width + x < p.pixels.size := by
    have hrow : y * p.width + p.width ≤ p.height * p.width := by
      rw [← Nat.succ_mul]
      exact Nat.mul_le_mul_right _ hy
    rw [p.size_eq, Nat.mul_comm p.width]
    omega
  rw [get, get?_eq_getElem? hx hy, Array.getElem?_eq_getElem hinside]
  rfl

/-- The pixels are those of the first row from left to right, then those of the next. -/
theorem toList_eq (p : Picture) : p.toList =
    (List.range p.height).flatMap fun y => (List.range p.width).map fun x => p.get x y := by
  have hindex : p.toList =
      (List.range (p.width * p.height)).map fun i => (p.pixels[i]?).getD ⟨0, 0, 0, 0⟩ := by
    refine List.ext_getElem ?_ fun i hi _ => ?_
    · rw [toList, Array.length_toList, p.size_eq, List.length_map, List.length_range]
    · rw [toList, Array.length_toList] at hi
      simp only [toList, Array.getElem_toList, List.getElem_map, List.getElem_range,
        Array.getElem?_eq_getElem hi, Option.getD_some]
  rw [hindex, map_range_mul]
  refine List.flatMap_congr fun y hy => List.map_congr_left fun x hx => ?_
  rw [get, get?_eq_getElem? (List.mem_range.1 hx) (List.mem_range.1 hy), Nat.mul_comm]

end EmbeddedBuffers.Picture
