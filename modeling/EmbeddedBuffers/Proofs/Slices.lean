import EmbeddedBuffers.Arithmetic
import Mathlib.Data.List.Basic

/-!
# Pieces of joined lists

A piece of a list that was joined from pieces stands behind the pieces in front of it.
-/

namespace EmbeddedBuffers

variable {α β : Type} {size count : Nat}

/-- The pieces in front of a piece tell where it starts. -/
theorem slice_flatMap {f : β → List α} {xs : List β} {i : Nat} (hi : i < xs.length) :
    ((xs.flatMap f).drop ((xs.take i).flatMap f).length).take (f xs[i]).length = f xs[i] := by
  have hsplit : xs.flatMap f =
      (xs.take i).flatMap f ++ (f xs[i] ++ (xs.drop (i + 1)).flatMap f) := by
    rw [← List.flatMap_cons, List.getElem_cons_drop, ← List.flatMap_append, List.take_append_drop]
  rw [hsplit, List.drop_left, List.take_left]

variable {f : Nat → List α}

theorem length_flatMap_range (hsize : ∀ i, (f i).length = size) :
    ((List.range count).flatMap f).length = size * count := by
  rw [List.length_flatMap, List.map_congr_left fun i _ => hsize i, List.map_const',
    List.length_range, List.sum_replicate_nat, Nat.mul_comm]

/-- Numbered row by row, the elements of `count` rows of one size. -/
theorem map_range_mul (g : Nat → β) (size count : Nat) :
    (List.range (size * count)).map g =
      (List.range count).flatMap fun i => (List.range size).map fun j => g (size * i + j) := by
  induction count with
  | zero => rfl
  | succ count ih =>
      rw [Nat.mul_succ, List.range_add, List.map_append, ih, List.range_succ, List.flatMap_append,
        List.flatMap_singleton, List.map_map]
      rfl

/-- Of pieces of one size, each stands behind as many elements as its index tells. -/
theorem slice_flatMap_range (hsize : ∀ i, (f i).length = size) {i : Nat} (hi : i < count) :
    (((List.range count).flatMap f).drop (size * i)).take size = f i := by
  have hrange : i < (List.range count).length := by rwa [List.length_range]
  have hpiece := slice_flatMap (f := f) hrange
  rwa [List.take_range, Nat.min_eq_left (Nat.le_of_lt hi), length_flatMap_range hsize,
    List.getElem_range, hsize] at hpiece

theorem getElem?_flatMap_range (hsize : ∀ i, (f i).length = size) {i j : Nat} (hi : i < count)
    (hj : j < size) : ((List.range count).flatMap f)[size * i + j]? = (f i)[j]? := by
  rw [← slice_flatMap_range hsize hi, List.getElem?_take_of_lt hj, List.getElem?_drop]

end EmbeddedBuffers
