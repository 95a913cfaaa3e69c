import EmbeddedBuffers.Proofs.Codec.Estimates

/-!
# Breaking even

The shortest match that LZSS takes for given field widths is the least one whose reference is
cheaper than the literals in its place. So every reference of a parse saves something, and a stream
falls short of the one without references by exactly what its references save. Main statements:
`minMatch_le_iff` and `estimateBits_le_literals`.
-/

namespace EmbeddedBuffers.Codec.Lzss

/-- **The shortest match is where a reference begins to pay.** -/
theorem minMatch_le_iff {w l : Nat} {p : Lzss} (h : ofBits w l = .ok p) (length : Nat) :
    p.minMatch ≤ length ↔ p.referenceBits < literalBits * length := by
  unfold ofBits at h
  split at h
  · cases h
  · next hw =>
    split at h
    · cases h
    · next hl =>
      cases h
      -- The bounds of eight and one are never reached: a reference has at most 41 bits.
      have hbits : (1 + w + l) / literalBits + 1 ≤ 5 := by
        unfold literalBits
        omega
      rw [Nat.max_eq_right (Nat.le_add_left 1 _), Nat.min_eq_right (Nat.le_trans hbits (by decide)),
        Nat.succ_le_iff, Nat.div_lt_iff_lt_mul (by decide), Nat.mul_comm]
      rfl

/-! ## Savings -/

/-- What a token saves against the literals of the bytes that it stands for. -/
def Token.saved (p : Lzss) (t : Token) : Nat := literalBits * t.size - t.cost p

variable {p : Lzss} {data : Array UInt8} {pos : Nat} {ts : List Token}

theorem Codes.sum_size (h : Codes p data pos ts) :
    pos + (ts.map Token.size).sum = data.size := by
  induction h with
  | done => rfl
  | literal _ _ ih =>
      rw [List.map_cons, List.sum_cons, ← ih]
      exact (Nat.add_assoc _ _ _).symm
  | reference _ _ ih =>
      rw [List.map_cons, List.sum_cons, ← ih]
      exact (Nat.add_assoc _ _ _).symm

theorem Codes.length_of_mem (h : Codes p data pos ts) {distance length : Nat}
    (ht : .reference distance length ∈ ts) : p.minMatch ≤ length := by
  obtain ⟨before, after, rfl⟩ := List.append_of_mem ht
  exact h.refers.minMatch_le

/-- A reference of a parse is cheaper than the literals in its place. -/
theorem Codes.cost_lt (h : Codes p data pos ts) {w l : Nat} (hp : ofBits w l = .ok p)
    {distance length : Nat} (ht : .reference distance length ∈ ts) :
    (Token.reference distance length).cost p < literalBits * length :=
  (minMatch_le_iff hp length).1 (h.length_of_mem ht)

/-- What a parse costs and what it saves are the price of literals alone. -/
theorem Codes.sum_cost_add_saved (h : Codes p data pos ts) {w l : Nat} (hp : ofBits w l = .ok p) :
    (ts.map (Token.cost p)).sum + (ts.map (Token.saved p)).sum =
      literalBits * (ts.map Token.size).sum := by
  have hcost : ∀ t ∈ ts, t.cost p + t.saved p = literalBits * t.size := by
    intro t ht
    cases t with
    | literal b => rfl
    | reference distance length => exact Nat.add_sub_cancel' (Nat.le_of_lt (h.cost_lt hp ht))
  clear h
  induction ts with
  | nil => rfl
  | cons t ts ih =>
      obtain ⟨ht, hts⟩ := List.forall_mem_cons.1 hcost
      have hrest := ih hts
      rw [List.map_cons, List.map_cons, List.map_cons, List.sum_cons, List.sum_cons, List.sum_cons,
        Nat.mul_add]
      omega

/-- A parse saves nothing exactly if it has no reference. -/
theorem Codes.sum_saved_eq_zero (h : Codes p data pos ts) {w l : Nat} (hp : ofBits w l = .ok p) :
    (ts.map (Token.saved p)).sum = 0 ↔ ∀ distance length, .reference distance length ∉ ts := by
  rw [List.sum_eq_zero_iff_forall_eq_nat, List.forall_mem_map]
  constructor
  · intro hzero distance length ht
    exact absurd (hzero _ ht) (Nat.sub_ne_zero_of_lt (h.cost_lt hp ht))
  · intro hnone t ht
    cases t with
    | literal b => rfl
    | reference distance length => exact absurd ht (hnone distance length)

/-- **With the shortest match that its field widths call for, no stream is larger than that of
literals alone.** It is as large only without references, and every reference is cheaper than the
literals of the bytes that it covers. -/
theorem estimateBits_le_literals {w l : Nat} (hw : 1 ≤ w ∧ w ≤ 24) (hl : 1 ≤ l ∧ l ≤ 16)
    (data : List UInt8) :
    ∃ p, ofBits w l = .ok p ∧ p.estimateBits data ≤ 45 + 9 * data.length ∧
      (p.estimateBits data = 45 + 9 * data.length ↔
        ∀ distance length, .reference distance length ∉ p.parse data.toArray) ∧
      ∀ (earlier later : List Token) (distance length : Nat),
        p.parse data.toArray = earlier ++ .reference distance length :: later →
        (earlier.map Token.size).sum + length ≤ data.length ∧
          (Token.reference distance length).cost p <
            (((data.drop (earlier.map Token.size).sum).take length).map fun b =>
              (Token.literal b).cost p).sum := by
  have hp : ofBits w l = .ok _ :=
    (if_neg fun h => h hw).trans (if_neg fun h => h hl)
  refine ⟨_, hp, ?_⟩
  generalize (⟨w, l, _⟩ : Lzss) = p at hp ⊢
  have hcodes := codes_parse p data.toArray
  have hsize := hcodes.sum_size
  have htotal := hcodes.sum_cost_add_saved hp
  have hestimate : p.estimateBits data + ((p.parse data.toArray).map (Token.saved p)).sum =
      45 + 9 * data.length := by
    rw [estimateBits, foldl_cost_eq (Token.length_bits p), List.length_flatMap]
    simp only [Token.length_bits]
    rw [List.size_toArray, Nat.zero_add] at hsize
    rw [Nat.add_assoc, htotal, hsize]
    rfl
  refine ⟨Nat.le.intro hestimate, ?_, fun earlier later distance length hparse => ?_⟩
  · rw [← hcodes.sum_saved_eq_zero hp, ← hestimate]
    exact Nat.left_eq_add
  · have href := (hparse ▸ hcodes).refers
    have hinside : (earlier.map Token.size).sum + length ≤ data.length := by
      simpa using href.inside
    have hlength : ((data.drop (earlier.map Token.size).sum).take length).length = length := by
      rw [List.length_take, List.length_drop]
      omega
    refine ⟨hinside, ?_⟩
    rw [show (fun b => (Token.literal b).cost p) = fun _ => literalBits from rfl, List.map_const',
      List.sum_replicate_nat, hlength, Nat.mul_comm]
    exact (minMatch_le_iff hp length).1 href.minMatch_le

/-- A run of one byte, with narrow fields. -/
theorem estimateBits_le_literals_run :
    let data : List UInt8 := [7, 7, 7, 7, 7, 7]
    (1 ≤ 2 ∧ 2 ≤ 24) ∧ (1 ≤ 2 ∧ 2 ≤ 16) ∧
      ∃ p, ofBits 2 2 = .ok p ∧ p.estimateBits data ≤ 45 + 9 * data.length := by
  intro data
  obtain ⟨p, hp, hle, -⟩ := estimateBits_le_literals (w := 2) (l := 2) (by decide) (by decide) data
  exact ⟨by decide, by decide, p, hp, hle⟩

end EmbeddedBuffers.Codec.Lzss
