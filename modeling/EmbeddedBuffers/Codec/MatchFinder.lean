import EmbeddedBuffers.Arithmetic

/-!
# Finding earlier occurrences

Hash chains over the positions of a byte string. Every position is entered under a hash
of the few bytes at it. Of the positions under one hash the latest is at the head, and a
ring of the size of the window links each position to the one before it. A link is a word of
32 bits, which tells positions apart as long as there are no more than words. A search walks
along the links for a bounded number of steps.
-/

namespace EmbeddedBuffers.Codec

/-- An earlier occurrence of the bytes at a position. -/
structure Match where
  length : Nat := 0
  distance : Nat := 0
deriving DecidableEq, Repr, Inhabited

/-- Chains of positions. -/
structure MatchFinder where
  links : Array UInt32
  heads : Array UInt32
  /-- Number of bytes that are hashed. -/
  keyLength : Nat
deriving Repr, Inhabited

namespace MatchFinder

/-- The link to no position. -/
def nil : UInt32 := 0xFFFFFFFF

/-- Number of hash values. -/
def hashCount : Nat := 2 ^ 16

/-- Number of candidates that a search visits. -/
def maxChain : Nat := 48

/-- A match of this length is good: only few more candidates are visited after it. -/
def goodLength : Nat := 32

/-- Number of candidates that a search visits after a good match. -/
def goodChain : Nat := 4

/-- The least power of two that is not below a number. -/
def nextPowerOfTwo (n : Nat) : Nat := if n ≤ 1 then 1 else 2 ^ (Nat.log2 (n - 1) + 1)

/-- Chains without positions, for an input of `size` bytes, references of up to `window`
bytes back and matches of at least `minMatch` bytes. -/
def empty (size window minMatch : Nat) : MatchFinder :=
  ⟨Array.replicate (max 1 (min window (nextPowerOfTwo size))) nil, Array.replicate hashCount nil,
   min minMatch 3⟩

/-- The number formed by the bytes from `pos` on. -/
def key (data : Array UInt8) (pos : Nat) : (count : Nat) → UInt32
  | 0 => 0
  | count + 1 => (key data pos count <<< 8) ||| (data.getD (pos + count) 0).toUInt32

/-- The hash of the bytes at a position, unless the data end before the key does. -/
def hash? (f : MatchFinder) (data : Array UInt8) (pos : Nat) : Option Nat :=
  if pos + f.keyLength ≤ data.size then
    some ((key data pos f.keyLength * 2654435761) >>> 16).toNat
  else none

/-- The place of a position in the ring. -/
def slot (f : MatchFinder) (pos : Nat) : Nat := pos % f.links.size

/-- Enters a position at the head of its chain. Of a position only the lowest 32 bits are kept. -/
def insert (f : MatchFinder) (data : Array UInt8) (pos : Nat) : MatchFinder :=
  match f.hash? data pos with
  | none => f
  | some h =>
    match f with
    | ⟨links, heads, keyLength⟩ =>
      let links := links.setIfInBounds (pos % links.size) (heads.getD h nil)
      ⟨links, heads.setIfInBounds h (UInt32.ofNat pos), keyLength⟩

/-- Enters `count` positions from `pos` on. -/
def insertMany (f : MatchFinder) (data : Array UInt8) (pos : Nat) : (count : Nat) → MatchFinder
  | 0 => f
  | count + 1 => (f.insert data pos).insertMany data (pos + 1) count

/-- Number of equal bytes at two positions, at most `limit`. -/
def commonLength (data : Array UInt8) (a b : Nat) : (limit : Nat) → Nat
  | 0 => 0
  | limit + 1 =>
    if data.getD a 0 == data.getD b 0 then commonLength data (a + 1) (b + 1) limit + 1 else 0

/-- The match at a candidate, if it is longer than the best so far. The byte that would
make it longer is looked at first. -/
def improve? (data : Array UInt8) (pos limit candidate : Nat) (best : Match) : Option Match :=
  let probe := min best.length (limit - 1)
  if data.getD (candidate + probe) 0 == data.getD (pos + probe) 0 then
    let length := commonLength data candidate pos limit
    if best.length < length then some ⟨length, pos - candidate⟩ else none
  else none

/-- The link at a candidate. One that does not lead further down ends the chain. -/
def next (f : MatchFinder) (candidate : UInt32) : UInt32 :=
  let link := f.links.getD (f.slot candidate.toNat) nil
  if link < candidate then link else nil

/-- Walks along a chain from a link, with at most `chain` candidates to visit. A chain ends
where it leaves the window. -/
def walk (f : MatchFinder) (data : Array UInt8) (pos window limit : Nat) (chain : Nat)
    (link : UInt32) (best : Match) : Match :=
  match chain with
  | 0 => best
  | chain + 1 =>
    if link = nil ∨ window < pos - link.toNat then best
    else
      match improve? data pos limit link.toNat best with
      | none => walk f data pos window limit chain (f.next link) best
      | some better =>
        if better.length = limit then better
        else if goodLength ≤ better.length then
          walk f data pos window limit (min chain (goodChain - 1)) (f.next link) better
        else walk f data pos window limit chain (f.next link) better
termination_by chain
decreasing_by all_goals omega

/-- The longest match at a position among the candidates that a search visits, at most
`maxMatch` long; of equally long ones the nearest. -/
def longest (f : MatchFinder) (data : Array UInt8) (pos window maxMatch : Nat) : Match :=
  match f.hash? data pos with
  | none => {}
  | some h =>
    f.walk data pos window (min maxMatch (data.size - pos)) maxChain (f.heads.getD h nil) {}

end MatchFinder

end EmbeddedBuffers.Codec
