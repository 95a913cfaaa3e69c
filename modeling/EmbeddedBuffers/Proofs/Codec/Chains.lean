import EmbeddedBuffers.Codec.Lzss
import EmbeddedBuffers.Proofs.Codec.Matches

/-!
# Chains of positions

What the heads and the ring of a match finder hold once the positions in front of some place have
been entered: each head links to the last position under its hash, and as long as a position is no
further back than the ring is long, its slot in the ring links to the position before it under the
same hash. A link keeps the lowest 32 bits of a position, and the greatest word links to none, so
the links are right up to the position of that number (`linkTo_some`). Main statements:
`Chained.insert`, and `fresh` for the slots of the positions that a search may refer to.
-/

namespace EmbeddedBuffers.Codec.MatchFinder

/-! ## Positions under one hash -/

/-- The last position below a bound under a hash. -/
def latest (hash : Nat → Option Nat) (h : Nat) : Nat → Option Nat
  | 0 => none
  | n + 1 => if hash n = some h then some n else latest hash h n

/-- The positions below a bound under a hash that are no further from `pos` than the window reaches,
the nearest first. -/
def reachable (hash : Nat → Option Nat) (window pos h bound : Nat) : List Nat :=
  (List.range bound).reverse.filter fun q => hash q = some h ∧ pos - q ≤ window

variable {hash : Nat → Option Nat} {window pos h n c : Nat}

theorem reachable_succ (hash : Nat → Option Nat) (window pos h n : Nat) :
    reachable hash window pos h (n + 1) =
      if hash n = some h ∧ pos - n ≤ window then n :: reachable hash window pos h n
      else reachable hash window pos h n := by
  simp only [reachable, List.range_succ, List.reverse_append, List.reverse_singleton,
    List.singleton_append, List.filter_cons, decide_eq_true_eq]

theorem mem_reachable {q : Nat} : q ∈ reachable hash window pos h n ↔
    q < n ∧ hash q = some h ∧ pos - q ≤ window := by
  simp [reachable]

/-- From a position outside the window on there is nothing to find. -/
theorem reachable_eq_nil (hn : n ≤ pos) (hfar : window < pos - n) :
    reachable hash window pos h n = [] := by
  rw [List.eq_nil_iff_forall_not_mem]
  intro q hq
  have := mem_reachable.1 hq
  omega

/-- Where no position is the last one nothing is reachable, and where one is, the reachable ones go
on from there. -/
theorem latest_cases (hash : Nat → Option Nat) (h n : Nat) :
    (latest hash h n = none ∧ ∀ window pos, reachable hash window pos h n = []) ∨
    ∃ c, latest hash h n = some c ∧ c < n ∧ hash c = some h ∧
      ∀ window pos, reachable hash window pos h n = reachable hash window pos h (c + 1) := by
  induction n with
  | zero => exact .inl ⟨rfl, fun _ _ => rfl⟩
  | succ n ih =>
      by_cases hn : hash n = some h
      · exact .inr ⟨n, if_pos hn, Nat.lt_succ_self n, hn, fun _ _ => rfl⟩
      · rw [latest, if_neg hn]
        have hskip : ∀ window pos,
            reachable hash window pos h (n + 1) = reachable hash window pos h n := by
          intro window pos
          rw [reachable_succ, if_neg fun hq => hn hq.1]
        simp only [hskip]
        obtain hnone | ⟨c, hc, hlt, hhash, hgo⟩ := ih
        · exact .inl hnone
        · exact .inr ⟨c, hc, Nat.lt_succ_of_lt hlt, hhash, hgo⟩

theorem lt_of_latest (hc : latest hash h n = some c) : c < n := by
  obtain ⟨hnone, -⟩ | ⟨c', hc', hlt, -⟩ := latest_cases hash h n
  · cases hnone.symm.trans hc
  · cases hc'.symm.trans hc
    exact hlt

/-! ## Links -/

/-- The link to a position, or to none. -/
def linkTo : Option Nat → UInt32
  | none => nil
  | some q => UInt32.ofNat q

/-- **The link to a position leads there**, if the position is less than the greatest word. -/
theorem linkTo_some (hc : c < 2 ^ 32 - 1) : linkTo (some c) ≠ nil ∧ (linkTo (some c)).toNat = c := by
  have hword : (linkTo (some c)).toNat = c :=
    UInt32.toNat_ofNat_of_lt' (Nat.lt_of_lt_of_le hc (Nat.sub_le _ _))
  refine ⟨fun heq => ?_, hword⟩
  rw [heq] at hword
  exact absurd hword.symm (Nat.ne_of_lt hc)

/-- The hash of the bytes at a position, over as many bytes as a match finder for the parameters
hashes. -/
def hashAt (p : Lzss) (data : Array UInt8) (pos : Nat) : Option Nat :=
  hash? ⟨#[], #[], min p.minMatch 3⟩ data pos

variable {p : Lzss} {data : Array UInt8} {f : MatchFinder}

theorem hashAt_lt (hh : hashAt p data pos = some h) : h < hashCount := by
  unfold hashAt hash? at hh
  split at hh
  · cases hh
    have hlt := (key data pos (min p.minMatch 3) * 2654435761).toNat_lt
    show _ >>> 16 < 2 ^ 16
    rw [Nat.shiftRight_eq_div_pow]
    exact Nat.div_lt_of_lt_mul hlt
  · cases hh

/-! ## The ring -/

/-- Two positions share a slot only if a whole ring lies between them. -/
theorem mod_ne {size q q' : Nat} (hlt : q < q') (hnear : q' < q + size) :
    q' % size ≠ q % size := by
  intro heq
  have hzero := Nat.sub_mod_eq_zero_of_mod_eq heq
  rw [Nat.mod_eq_of_lt (by omega)] at hzero
  omega

theorem le_nextPowerOfTwo (n : Nat) : n ≤ nextPowerOfTwo n := by
  unfold nextPowerOfTwo
  split
  · assumption
  · have := Nat.lt_log2_self (n := n - 1)
    omega

theorem exists_nextPowerOfTwo (n : Nat) : ∃ k, nextPowerOfTwo n = 2 ^ k := by
  unfold nextPowerOfTwo
  split
  · exact ⟨0, rfl⟩
  · exact ⟨_, rfl⟩

/-- Number of slots of the ring. -/
def ring (p : Lzss) (size : Nat) : Nat := max 1 (min p.window (nextPowerOfTwo size))

theorem exists_ring (p : Lzss) (size : Nat) : ∃ k, ring p size = 2 ^ k := by
  obtain ⟨k, hk⟩ := exists_nextPowerOfTwo size
  rw [ring, hk, Lzss.window, Nat.max_eq_right (Nat.le_min.2 ⟨Nat.two_pow_pos _, Nat.two_pow_pos _⟩)]
  obtain hle | hle := Nat.le_total (2 ^ p.windowBits) (2 ^ k)
  · exact ⟨_, Nat.min_eq_left hle⟩
  · exact ⟨_, Nat.min_eq_right hle⟩

/-- What the window reaches the ring reaches: it is shorter than the window only if it is as long as
the data. -/
theorem le_add_ring {size q : Nat} (hn : n ≤ size) (hq : n - q ≤ p.window) :
    n ≤ q + ring p size := by
  have hsize := le_nextPowerOfTwo size
  unfold ring
  omega

/-- No slot that a search reads has been written again: none of the positions behind `q` that have
been entered shares the slot of `q`. -/
theorem fresh {size q q' : Nat} (hn : n ≤ size) (hq : n - q ≤ p.window) (hlt : q < q')
    (hq' : q' < n) : q' % ring p size ≠ q % ring p size :=
  mod_ne hlt (Nat.lt_of_lt_of_le hq' (le_add_ring hn hq))

/-! ## What a match finder holds -/

/-- The positions below `n` have been entered. -/
structure Chained (p : Lzss) (data : Array UInt8) (n : Nat) (f : MatchFinder) : Prop where
  keyLength_eq : f.keyLength = min p.minMatch 3
  size_eq : f.links.size = ring p data.size
  head : ∀ h < hashCount, f.heads[h]? = some (linkTo (latest (hashAt p data) h n))
  link : ∀ q h, q < n → hashAt p data q = some h → n ≤ q + ring p data.size →
    f.links[f.slot q]? = some (linkTo (latest (hashAt p data) h q))

namespace Chained

theorem hash?_eq (hf : Chained p data n f) (pos : Nat) : f.hash? data pos = hashAt p data pos := by
  rw [hash?, hf.keyLength_eq]
  rfl

theorem size_pos (hf : Chained p data n f) : 0 < f.links.size := by
  obtain ⟨k, hk⟩ := exists_ring p data.size
  rw [hf.size_eq, hk]
  exact Nat.two_pow_pos k

/-- The slot of a position is its lowest bits. -/
theorem and_mask (hf : Chained p data n f) (pos : Nat) :
    pos &&& (f.links.size - 1) = f.slot pos := by
  obtain ⟨k, hk⟩ := exists_ring p data.size
  rw [slot, hf.size_eq, hk, Nat.and_two_pow_sub_one_eq_mod]

theorem getD_head (hf : Chained p data n f) (hh : h < hashCount) :
    f.heads.getD h nil = linkTo (latest (hashAt p data) h n) := by
  rw [Array.getD_eq_getD_getElem?, hf.head h hh, Option.getD_some]

theorem empty (p : Lzss) (data : Array UInt8) :
    Chained p data 0 (MatchFinder.empty data.size p.window p.minMatch) where
  keyLength_eq := rfl
  size_eq := Array.size_replicate
  head h hh := by
    show (Array.replicate hashCount nil)[h]? = some nil
    rw [Array.getElem?_replicate, if_pos hh]
  link q h hq := absurd hq (Nat.not_lt_zero q)

/-- Entering the next position puts it in front of the chain under its hash. Its slot in the ring is
that of no position that the ring still reaches. -/
theorem insert (hf : Chained p data n f) : Chained p data (n + 1) (f.insert data n) := by
  unfold MatchFinder.insert
  rw [hf.hash?_eq]
  cases hhash : hashAt p data n with
  | none =>
      have hskip : ∀ h, latest (hashAt p data) h (n + 1) = latest (hashAt p data) h n := fun h => by
        rw [latest, hhash, if_neg (by simp)]
      refine ⟨hf.keyLength_eq, hf.size_eq, fun h hh => ?_, fun q h hq hh hnear => ?_⟩
      · rw [hskip]
        exact hf.head h hh
      · have hne : q ≠ n := fun heq => by rw [heq, hhash] at hh; cases hh
        exact hf.link q h (by omega) hh (Nat.le_trans (Nat.le_succ n) hnear)
  | some k =>
      have hk := hashAt_lt hhash
      have hgetD := hf.getD_head hk
      have hsize := hf.size_pos
      obtain ⟨hheads, -⟩ := Array.getElem?_eq_some_iff.1 (hf.head k hk)
      obtain ⟨links, heads, keyLength⟩ := f
      dsimp only at hheads hgetD hsize ⊢
      rw [hgetD]
      refine ⟨hf.keyLength_eq, ?_, fun h hh => ?_, fun q h hq hh hnear => ?_⟩
      · simpa using hf.size_eq
      · rw [latest, hhash, Array.getElem?_setIfInBounds]
        by_cases heq : k = h
        · rw [if_pos heq, if_pos (heq ▸ hheads), if_pos (congrArg some heq)]
          rfl
        · rw [if_neg heq, if_neg fun h' => heq (Option.some.inj h')]
          exact hf.head h hh
      · simp only [slot, Array.size_setIfInBounds]
        rw [Array.getElem?_setIfInBounds]
        by_cases heq : q = n
        · subst heq
          cases hhash.symm.trans hh
          rw [if_pos rfl, if_pos (Nat.mod_lt q hsize)]
        · -- less than a ring lies between `q` and `n`
          have hring : links.size = ring p data.size := hf.size_eq
          rw [if_neg (mod_ne (by omega) (by omega))]
          exact hf.link q h (by omega) hh (Nat.le_trans (Nat.le_succ n) hnear)

theorem insertMany (hf : Chained p data n f) (count : Nat) :
    Chained p data (n + count) (f.insertMany data n count) := by
  induction count generalizing n f with
  | zero => exact hf
  | succ count ih =>
      have := ih hf.insert
      rwa [Nat.add_right_comm, Nat.add_assoc] at this

end Chained

end EmbeddedBuffers.Codec.MatchFinder
