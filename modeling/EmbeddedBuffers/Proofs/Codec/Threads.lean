import EmbeddedBuffers.Codec.Container
import EmbeddedBuffers.Proofs.Pool

/-!
# The number of threads does not matter

Only the measurements of a search are spread over workers, and the pool leaves no trace in
them. Main statements: `search_threads` and `encode_threads`.
-/

namespace EmbeddedBuffers.Codec

namespace Search

variable (g : Grid) (data : List UInt8) (threads threads' : Nat)

theorem evaluate_threads (sizes : Sizes) (pairs : List Pair) :
    evaluate data threads sizes pairs = evaluate data threads' sizes pairs := by
  simp only [evaluate, Pool.map_eq]

theorem sweepWindows_threads (progress : Progress) (sizes : Sizes) (batches : List (List Nat)) :
    sweepWindows g data threads progress sizes batches =
      sweepWindows g data threads' progress sizes batches := by
  induction batches generalizing progress sizes with
  | nil => rfl
  | cons windows batches ih =>
      rw [sweepWindows, sweepWindows, evaluate_threads data threads threads']
      simp only [ih]

theorem refine_threads (rounds : Nat) (sizes : Sizes) :
    refine g data threads rounds sizes = refine g data threads' rounds sizes := by
  induction rounds generalizing sizes with
  | zero => rfl
  | succ rounds ih =>
      rw [refine, refine]
      simp only [evaluate_threads data threads threads', ih]

theorem measurements_threads :
    measurements g data threads = measurements g data threads' := by
  unfold measurements sweepLengths
  simp only [sweepWindows_threads g data threads threads', evaluate_threads data threads threads',
    refine_threads g data threads threads']

end Search

/-- A search finds the same parameters, and measures as many pairs, on any number of threads. -/
theorem search_threads (data : List UInt8) (limits : SearchLimits) (threads threads' : Nat) :
    search data limits threads = search data limits threads' := by
  simp only [search, Search.measurements_threads _ data threads threads']

/-- A buffer is encoded the same on any number of threads. -/
theorem encode_threads (name : String) (data : List UInt8) (stride threads threads' : Nat)
    (r : Request) :
    encode name data stride threads r = encode name data stride threads' r := by
  have hchoose : ∀ limits, choose data stride limits threads = choose data stride limits threads' := by
    intro limits
    simp only [choose, search_threads data _ threads threads']
  unfold encode Request.scheme
  cases r with
  | auto limits => simp only [hchoose]
  | none => rfl
  | lzss w l => rfl
  | rle width => rfl

end EmbeddedBuffers.Codec
