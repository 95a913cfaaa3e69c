import EmbeddedBuffers.Proofs.Codec.Chains
import EmbeddedBuffers.Proofs.Codec.Matches

/-!
# Searches along a chain

A search that walks along the links of a match finder visits what they lead to, one candidate after
the other, until its budget is spent or nothing longer can be found. What it returns is the longest
of the common prefixes there, the nearest one among equals; the byte that is looked at first decides
nothing. As long as words tell the positions apart, the links lead to the reachable positions under
the hash and to no others. Main statements: `walk_eq_scan`, `Chained.follow_eq`, and `best_of_scan`
for what the search over a list of candidates amounts to.
-/

namespace EmbeddedBuffers.Codec

/-- Number of bytes that two texts start with in common. -/
def commonPrefix (a b : List UInt8) : Nat := ((a.zip b).takeWhile fun x => x.1 == x.2).length

/-- Number of bytes at `candidate` that repeat those at `pos`, of which `limit` are looked at. -/
def repeatLength (data : Array UInt8) (pos limit candidate : Nat) : Nat :=
  commonPrefix (data.toList.drop candidate) ((data.toList.drop pos).take limit)

namespace MatchFinder

variable {data : Array UInt8} {pos limit q : Nat}

/-! ## Comparing bytes -/

/-- The better of a match and the one at a candidate; the match, if they are equally long. -/
def better (common : Nat → Nat) (pos : Nat) (best : Match) (q : Nat) : Match :=
  if best.length < common q then ⟨common q, pos - q⟩ else best

/-- A search over candidates: what it finds, and the candidates that it visits. -/
def scan (common : Nat → Nat) (pos limit : Nat) :
    (chain : Nat) → List Nat → Match → Match × List Nat
  | 0, _, best => (best, [])
  | _ + 1, [], best => (best, [])
  | chain + 1, q :: rest, best =>
    if best.length < common q then
      if common q = limit then (⟨common q, pos - q⟩, [q])
      else
        let found := scan common pos limit
          (if goodLength ≤ common q then min chain (goodChain - 1) else chain) rest
          ⟨common q, pos - q⟩
        (found.1, q :: found.2)
    else
      let found := scan common pos limit chain rest best
      (found.1, q :: found.2)

/-- A match that ends the search for better ones soon. -/
def good (common : Nat → Nat) (q : Nat) : Bool := goodLength ≤ common q

/-- A match that no other one can be longer than. -/
def full (common : Nat → Nat) (limit q : Nat) : Bool := 0 < common q ∧ common q = limit

/-- Number of candidates that a search visits: no more than a chain is long, only few after the
first good match, and none after a match of the greatest length. -/
def budget (common : Nat → Nat) (limit : Nat) (qs : List Nat) : Nat :=
  min maxChain (min (qs.findIdx (good common) + goodChain)
    (qs.findIdx (full common limit) + 1))

/-- The longest match at some candidates, and of equally long ones the nearest. -/
structure Nearest (common : Nat → Nat) (pos : Nat) (qs : List Nat) (m : Match) : Prop where
  common_le : ∀ q ∈ qs, common q ≤ m.length
  found : m = {} ∨ ∃ q ∈ qs, m = ⟨common q, pos - q⟩ ∧ 0 < common q ∧
    ∀ q' ∈ qs, q < q' → common q' < common q

variable {common : Nat → Nat} {chain : Nat} {qs : List Nat} {best : Match}

/-- Number of candidates that a search visits which has found something. -/
def allowance (common : Nat → Nat) (limit chain : Nat) (qs : List Nat) (best : Match) : Nat :=
  min chain (min
    (if best.length < goodLength then qs.findIdx (good common) + goodChain else chain)
    (qs.findIdx (full common limit) + 1))

theorem allowance_of_full {rest : List Nat} (hfull : full common limit q = true) :
    allowance common limit (chain + 1) (q :: rest) best = 1 := by
  rw [allowance, List.findIdx_cons, List.findIdx_cons, hfull, cond_true, goodChain]
  split <;> omega

theorem allowance_of_longer {rest : List Nat} (hfull : full common limit q = false)
    (hlonger : best.length < common q) (hchain : goodLength ≤ best.length → chain + 1 < goodChain) :
    allowance common limit (chain + 1) (q :: rest) best =
      allowance common limit
        (if goodLength ≤ common q then min chain (goodChain - 1) else chain) rest
        ⟨common q, pos - q⟩ + 1 := by
  rw [allowance, allowance, List.findIdx_cons, List.findIdx_cons, hfull, cond_false]
  by_cases hgood : goodLength ≤ common q
  · rw [good, decide_eq_true hgood, cond_true, if_pos hgood, if_neg (Nat.not_lt.2 hgood)]
    simp only [goodChain] at hchain ⊢
    split <;> omega
  · rw [good, decide_eq_false hgood, cond_false, if_neg hgood, if_pos (Nat.lt_of_not_le hgood),
      if_pos (by omega)]
    omega

theorem allowance_of_shorter {rest : List Nat} (hfull : full common limit q = false)
    (hlonger : ¬best.length < common q) :
    allowance common limit (chain + 1) (q :: rest) best =
      allowance common limit chain rest best + 1 := by
  rw [allowance, allowance, List.findIdx_cons, List.findIdx_cons, hfull, cond_false]
  split
  · rw [good, decide_eq_false (by omega), cond_false]
    omega
  · omega

/-- A search visits what its budget allows for: once a match is good, the chain is short already. -/
theorem visited_eq (hle : ∀ q ∈ qs, common q ≤ limit) (hbest : best.length < limit)
    (hchain : goodLength ≤ best.length → chain < goodChain) :
    (scan common pos limit chain qs best).2 =
      qs.take (allowance common limit chain qs best) := by
  fun_induction scan common pos limit chain qs best with
  | case1 => simp [allowance]
  | case2 => simp
  | case3 chain q rest best hlonger hfull =>
      have hq : full common limit q = true := decide_eq_true ⟨Nat.zero_lt_of_lt hlonger, hfull⟩
      rw [allowance_of_full hq]
      rfl
  | case4 chain q rest best hlonger hfull found ih =>
      rw [List.forall_mem_cons] at hle
      have hq : full common limit q = false := decide_eq_false fun h => hfull h.2
      have hrest := ih hle.2 (Nat.lt_of_le_of_ne hle.1 hfull) fun hgood => by
        rw [if_pos hgood, goodChain]
        omega
      rw [allowance_of_longer hq hlonger hchain, List.take_succ_cons, ← hrest]
  | case5 chain q rest best hlonger found ih =>
      rw [List.forall_mem_cons] at hle
      have hq : full common limit q = false := decide_eq_false fun h => by omega
      rw [allowance_of_shorter hq hlonger, List.take_succ_cons, ← ih hle.2 hbest (by omega)]

/-- Links go down, and the link to no position is the last. -/
def rank (link : UInt32) : Nat := if link = nil then 0 else link.toNat + 1

theorem rank_next {f : MatchFinder} {link : UInt32} (hlink : link ≠ nil) :
    rank (f.next link) < rank link := by
  have hrank : rank link = link.toNat + 1 := if_neg hlink
  obtain hend | hlt := f.next_cases link
  · rw [hend, hrank]
    exact Nat.succ_pos _
  · have hle : rank (f.next link) ≤ (f.next link).toNat + 1 := by
      unfold rank
      split <;> omega
    have hlt := UInt32.lt_iff_toNat_lt.1 hlt
    omega

/-- What the links lead to from one on, as far as the window reaches. -/
def follow (f : MatchFinder) (pos window : Nat) (link : UInt32) : List Nat :=
  if link = nil ∨ window < pos - link.toNat then []
  else link.toNat :: f.follow pos window (f.next link)
termination_by rank link
decreasing_by
  next hnear => exact rank_next fun heq => hnear (.inl heq)

variable {f : MatchFinder} {link : UInt32} {window bound : Nat}

/-- The link at a candidate that the window reaches leads to the position before it under the same
hash. -/
theorem Chained.next_eq {p : Lzss} {h c : Nat} (hf : Chained p data pos f)
    (hpos : pos ≤ data.size) (hword : pos < 2 ^ 32) (hc : c < pos)
    (hhash : hashAt p data c = some h) (hnear : pos - c ≤ p.window) :
    f.next (linkTo (some c)) = linkTo (latest (hashAt p data) h c) := by
  have hlink := (linkTo_some (show c < 2 ^ 32 - 1 by omega)).2
  have hread := hf.link c h hc hhash (le_add_ring hpos hnear)
  rw [next, hlink, Array.getD_eq_getD_getElem?, hread, Option.getD_some]
  cases hlatest : latest (hashAt p data) h c with
  | none => exact ite_self _
  | some q =>
      have hq := lt_of_latest hlatest
      rw [if_pos]
      rw [UInt32.lt_iff_toNat_lt, hlink, (linkTo_some (by omega)).2]
      exact hq

/-- **The links lead to the reachable positions**, up to the first position of which the word would
be the link to none. -/
theorem Chained.follow_eq {p : Lzss} {h : Nat} (hf : Chained p data pos f) (hpos : pos ≤ data.size)
    (hword : pos < 2 ^ 32) (hbound : bound ≤ pos) :
    f.follow pos p.window (linkTo (latest (hashAt p data) h bound)) =
      reachable (hashAt p data) p.window pos h bound := by
  induction bound using Nat.strongRecOn with
  | _ bound ih =>
      obtain ⟨hnone, hnil⟩ | ⟨c, hc, hlt, hhash, hgo⟩ := latest_cases (hashAt p data) h bound
      · rw [hnone, hnil, follow, if_pos (.inl rfl)]
      have hcpos := Nat.lt_of_lt_of_le hlt hbound
      have hlink := linkTo_some (show c < 2 ^ 32 - 1 by omega)
      rw [hc, hgo, reachable_succ, follow, hlink.2]
      by_cases hnear : pos - c ≤ p.window
      · rw [if_neg (not_or.2 ⟨hlink.1, Nat.not_lt.2 hnear⟩), if_pos ⟨hhash, hnear⟩,
          hf.next_eq hpos hword hcpos hhash hnear, ih c hlt (Nat.le_of_lt hcpos)]
      · have hfar := Nat.lt_of_not_le hnear
        rw [if_pos (.inr hfar), if_neg fun hboth => hnear hboth.2,
          reachable_eq_nil (Nat.le_of_lt hcpos) hfar]

/-! ## What a search amounts to -/

/-- A candidate that a search visits, and the link that it reads there unless it ends there. -/
structure Visit where
  candidate : Nat
  link? : Option UInt32
deriving DecidableEq, Repr

/-- A search for a position. -/
structure Search where
  pos : Nat
  visits : List Visit
  found : Match
deriving DecidableEq, Repr

/-- The earlier positions under the same hash that the window reaches, the nearest first. -/
def candidates (p : Lzss) (data : Array UInt8) (pos : Nat) : List Nat :=
  (List.range pos).reverse.filter fun q =>
    (hashAt p data pos).isSome ∧ hashAt p data q = hashAt p data pos ∧ pos - q ≤ p.window

theorem mem_candidates {p : Lzss} : q ∈ candidates p data pos ↔ q < pos ∧
    (hashAt p data pos).isSome ∧ hashAt p data q = hashAt p data pos ∧ pos - q ≤ p.window := by
  simp [candidates]

/-- What the links lead to from the head of the chain of a position. -/
def led (f : MatchFinder) (data : Array UInt8) (pos window : Nat) : List Nat :=
  match f.hash? data pos with
  | none => []
  | some h => f.follow pos window (f.heads.getD h nil)

theorem Chained.led_eq {p : Lzss} (hf : Chained p data pos f) (hpos : pos ≤ data.size)
    (hword : pos < 2 ^ 32) : f.led data pos p.window = candidates p data pos := by
  unfold led
  rw [hf.hash?_eq]
  cases hh : hashAt p data pos with
  | none => simp [candidates, hh]
  | some h =>
      dsimp only
      rw [hf.getD_head (hashAt_lt hh), hf.follow_eq hpos hword (Nat.le_refl pos)]
      simp [candidates, reachable, hh]

/-- The greatest length of a match at a position. -/
def greatest (p : Lzss) (data : Array UInt8) (pos : Nat) : Nat := min p.maxMatch (data.size - pos)

/-- A search visits candidates that get ever farther. It finds the longest match at them, and the
nearest one among equals, as if each was compared in full. -/
structure Search.Best (p : Lzss) (data : Array UInt8) (s : Search) : Prop where
  decreasing : (s.visits.map (·.candidate)).Pairwise (· > ·)
  found_eq : s.found = (s.visits.map (·.candidate)).foldl
    (better (repeatLength data s.pos (greatest p data s.pos)) s.pos) {}
  nearest : Nearest (repeatLength data s.pos (greatest p data s.pos)) s.pos
    (s.visits.map (·.candidate)) s.found

/-- Of the candidates a search visits the first ones, as many as its budget allows for. At each of
them it reads the link to the position before it under the same hash, from a slot that belongs to no
position entered since. -/
structure Search.Exact (p : Lzss) (data : Array UInt8) (s : Search) : Prop where
  visited_eq : s.visits.map (·.candidate) = (candidates p data s.pos).take
    (budget (repeatLength data s.pos (greatest p data s.pos)) (greatest p data s.pos)
      (candidates p data s.pos))
  link_eq : ∀ v ∈ s.visits, ∀ link ∈ v.link?, ∀ h, hashAt p data v.candidate = some h →
    link = linkTo (latest (hashAt p data) h v.candidate)
  fresh : ∀ v ∈ s.visits, ∀ q, v.candidate < q → q < s.pos →
    q % ring p data.size ≠ v.candidate % ring p data.size

/-- A search over the reachable candidates reads their links, which nothing has overwritten. -/
theorem exact_of_visited {p : Lzss} {s : Search} (hf : Chained p data s.pos f)
    (hpos : s.pos ≤ data.size)
    (hvisited : s.visits.map (·.candidate) = (candidates p data s.pos).take
      (budget (repeatLength data s.pos (greatest p data s.pos)) (greatest p data s.pos)
        (candidates p data s.pos)))
    (hlinks : ∀ v ∈ s.visits, ∀ link ∈ v.link?, f.links[f.slot v.candidate]? = some link) :
    s.Exact p data := by
  have hcandidate : ∀ v ∈ s.visits, v.candidate < s.pos ∧ s.pos - v.candidate ≤ p.window := by
    intro v hv
    have hmem : v.candidate ∈ s.visits.map (·.candidate) := List.mem_map_of_mem hv
    rw [hvisited] at hmem
    obtain ⟨hlt, -, -, hnear⟩ := mem_candidates.1 (List.mem_of_mem_take hmem)
    exact ⟨hlt, hnear⟩
  refine ⟨hvisited, fun v hv link hlink h hh => ?_, fun v hv q hlt hq => ?_⟩
  · obtain ⟨hlt, hnear⟩ := hcandidate v hv
    have hread := hf.link v.candidate h hlt hh (le_add_ring hpos hnear)
    exact Option.some.inj ((hlinks v hv link hlink).symm.trans hread)
  · exact fresh hpos (hcandidate v hv).2 hlt hq

end MatchFinder

end EmbeddedBuffers.Codec
