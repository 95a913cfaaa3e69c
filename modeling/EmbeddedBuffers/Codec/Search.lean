import EmbeddedBuffers.Codec.Lzss
import EmbeddedBuffers.Pool

/-!
# Searching for LZSS parameters

Coordinate descent over the field widths: the window goes down from the widest useful one,
then every length is tried at the best window, then the neighbours of the best pair are
tried until none of them is better. The sizes are exact, and no pair is measured twice.
-/

namespace EmbeddedBuffers.Codec

/-- The widest fields that a search may try. -/
structure SearchLimits where
  windowBits : Nat := 24
  lengthBits : Nat := 16
deriving DecidableEq, Repr, Inhabited

/-- What a search found: the parameters, the size of their stream in bits, and the number
of pairs that were measured. -/
structure SearchResult where
  params : Lzss
  bits : Nat
  evaluated : Nat
deriving DecidableEq, Repr, Inhabited

namespace Search

/-- Window bits and length bits. -/
abbrev Pair := Nat × Nat

/-- The narrowest window that a search tries, unless the data or the limit force a
narrower one. -/
def minWindowBits : Nat := 4

/-- Number of windows without improvement after which narrower ones are not tried. -/
def patience : Nat := 3

/-- Number of windows that are measured at once. -/
def batch : Nat := 4

/-- The widest length field of the first sweep. -/
def sweepLengthBits : Nat := 8

/-- Number of rounds of the last phase. -/
def maxRounds : Nat := 8

/-- The pairs that may be tried. -/
structure Grid where
  /-- The widest window. -/
  top : Nat
  /-- The widest length field. -/
  maxLengthBits : Nat
deriving DecidableEq, Repr, Inhabited

namespace Grid

/-- The narrowest window. -/
def bottom (g : Grid) : Nat := min minWindowBits g.top

/-- The widest length field at a window. -/
def lengthCap (g : Grid) (windowBits : Nat) : Nat := max 1 (min g.maxLengthBits windowBits)

def contains (g : Grid) (c : Pair) : Bool :=
  g.bottom ≤ c.1 && c.1 ≤ g.top && 1 ≤ c.2 && c.2 ≤ g.lengthCap c.1

/-- The grid for data of some length under some limits. A window wider than the data is of
no use. -/
def ofLimits (limits : SearchLimits) (size : Nat) : Grid :=
  let maxWindow := min 24 (max 1 limits.windowBits)
  ⟨min maxWindow (max minWindowBits (bitsFor (size - 1))), min 16 (max 1 limits.lengthBits)⟩

end Grid

/-- The sizes measured so far, the latest first. -/
abbrev Sizes := List (Pair × Nat)

/-- The size of the stream under a pair of field widths. -/
def sizeOf? (data : List UInt8) (c : Pair) : Option Nat :=
  (Lzss.ofBits c.1 c.2).toOption.map (·.estimateBits data)

/-- Measures the pairs that were not measured before. -/
def evaluate (data : List UInt8) (threads : Nat) (sizes : Sizes) (pairs : List Pair) : Sizes :=
  let fresh := pairs.filter fun c => (sizes.lookup c).isNone
  let measured := Pool.map threads (sizeOf? data) fresh
  (fresh.zip measured).foldl
    (fun sizes (c, size) => match size with
      | some bits => (c, bits) :: sizes
      | none => sizes)
    sizes

/-- Whether one measurement beats another: a smaller size, then a narrower window, then a
narrower length field. -/
def beats (a b : Pair × Nat) : Bool :=
  a.2 < b.2 || (a.2 == b.2 && (a.1.1 < b.1.1 || (a.1.1 == b.1.1 && a.1.2 < b.1.2)))

/-- The best measurement. -/
def best? : Sizes → Option (Pair × Nat)
  | [] => none
  | a :: rest =>
    match best? rest with
    | none => some a
    | some b => if beats a b then some a else some b

/-- The smallest size in a sweep so far, and the number of windows since it was found. -/
structure Progress where
  best : Option Nat
  stale : Nat

/-- Takes note of one size of a sweep. -/
def Progress.note (p : Progress) (size : Option Nat) : Progress :=
  match size, p.best with
  | some bits, none => ⟨some bits, 0⟩
  | some bits, some least => if bits < least then ⟨some bits, 0⟩ else ⟨p.best, p.stale + 1⟩
  | none, _ => ⟨p.best, p.stale + 1⟩

/-- The windows of a grid in batches, the widest first. -/
def windowBatches (g : Grid) : List (List Nat) :=
  let windows := (List.range (g.top + 1 - g.bottom)).map (g.top - ·)
  (List.range ((windows.length + batch - 1) / batch)).map fun i =>
    (windows.drop (i * batch)).take batch

/-- Measures the windows of a grid, batch by batch, until they stop improving. -/
def sweepWindows (g : Grid) (data : List UInt8) (threads : Nat) :
    Progress → Sizes → List (List Nat) → Sizes
  | _, sizes, [] => sizes
  | progress, sizes, windows :: batches =>
    let pairs := windows.map fun w => (w, min (g.lengthCap w) sweepLengthBits)
    let sizes := evaluate data threads sizes pairs
    let progress := pairs.foldl (fun p c => p.note (sizes.lookup c)) progress
    if patience ≤ progress.stale then sizes
    else sweepWindows g data threads progress sizes batches

/-- Measures every length field at a window. -/
def sweepLengths (g : Grid) (data : List UInt8) (threads : Nat) (sizes : Sizes)
    (windowBits : Nat) : Sizes :=
  evaluate data threads sizes
    ((List.range (g.lengthCap windowBits)).map fun i => (windowBits, i + 1))

/-- A pair and the pairs around it that lie in the grid. -/
def neighbours (g : Grid) (c : Pair) : List Pair :=
  [c.1 - 1, c.1, c.1 + 1].flatMap fun w =>
    ([c.2 - 1, c.2, c.2 + 1].map fun l => (w, l)).filter fun n => g.contains n

/-- Measures the neighbours of the best pair until the best pair stays, for a bounded
number of rounds. -/
def refine (g : Grid) (data : List UInt8) (threads : Nat) : (rounds : Nat) → Sizes → Sizes
  | 0, sizes => sizes
  | rounds + 1, sizes =>
    match best? sizes with
    | none => sizes
    | some (c, _) =>
      let sizes := evaluate data threads sizes (neighbours g c)
      if (best? sizes).map (·.1) = some c then sizes else refine g data threads rounds sizes

/-- All measurements of a search. -/
def measurements (g : Grid) (data : List UInt8) (threads : Nat) : Sizes :=
  let sizes := sweepWindows g data threads ⟨none, 0⟩ [] (windowBatches g)
  let sizes := match best? sizes with
    | some (c, _) => sweepLengths g data threads sizes c.1
    | none => sizes
  refine g data threads maxRounds sizes

end Search

/-- Searches for the field widths of the shortest LZSS stream. -/
def search (data : List UInt8) (limits : SearchLimits) (threads : Nat) : SearchResult :=
  let g := Search.Grid.ofLimits limits data.length
  let sizes := Search.measurements g data threads
  let (c, bits) := (Search.best? sizes).getD ((g.top, g.lengthCap g.top), 2 ^ 64 - 1)
  ⟨(Lzss.ofBits c.1 c.2).toOption.getD ⟨c.1, c.2, 1⟩, bits, sizes.length⟩

end EmbeddedBuffers.Codec
