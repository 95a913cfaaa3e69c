import EmbeddedBuffers.Proofs.Codec.Automatic
import Mathlib.Data.List.Nodup

/-!
# Where a search ends

A search counts every pair of its grid at most once, has tried every length field at the window
that came out of the first sweep, and answers with the best pair that it tried. That pair is as
good as every pair around it, unless the last of the rounds that a search may take still moved.
Main statement: `search_localOptimum`.
-/

namespace EmbeddedBuffers.Codec

namespace Search

/-! ## The order of measurements -/

/-- A measurement is as good as another: a smaller size, or the same size with a narrower window,
or the same window with a length field that is no wider. -/
def AsGood (a b : Pair × Nat) : Prop :=
  a.2 < b.2 ∨ a.2 = b.2 ∧ (a.1.1 < b.1.1 ∨ a.1.1 = b.1.1 ∧ a.1.2 ≤ b.1.2)

theorem AsGood.refl (a : Pair × Nat) : AsGood a a :=
  Or.inr ⟨rfl, Or.inr ⟨rfl, Nat.le_refl _⟩⟩

theorem AsGood.trans {a b c : Pair × Nat} (hab : AsGood a b) (hbc : AsGood b c) : AsGood a c := by
  unfold AsGood at *
  omega

theorem AsGood.of_beats {a b : Pair × Nat} (h : beats a b = true) : AsGood a b := by
  unfold AsGood
  simp only [beats, Bool.or_eq_true, decide_eq_true_eq, Bool.and_eq_true, beq_iff_eq] at h
  omega

theorem AsGood.of_not_beats {a b : Pair × Nat} (h : ¬ beats a b = true) : AsGood b a := by
  unfold AsGood
  simp only [beats, Bool.or_eq_true, decide_eq_true_eq, Bool.and_eq_true, beq_iff_eq] at h
  omega

/-- The best measurement is as good as every other. -/
theorem asGood_of_best? {sizes : Sizes} {b : Pair × Nat} (h : best? sizes = some b) :
    ∀ a ∈ sizes, AsGood b a := by
  induction sizes generalizing b with
  | nil => cases h
  | cons a sizes ih =>
      rw [best?] at h
      split at h
      · next hnone =>
        cases h
        rw [best?_eq_none.1 hnone]
        simpa using AsGood.refl a
      · next b' hb' =>
        split at h
        · next hbeats =>
          cases h
          refine List.forall_mem_cons.2 ⟨AsGood.refl a, fun x hx => ?_⟩
          exact (AsGood.of_beats hbeats).trans (ih hb' x hx)
        · next hbeats =>
          cases h
          exact List.forall_mem_cons.2 ⟨AsGood.of_not_beats hbeats, ih hb'⟩

/-! ## Pairs that were tried -/

/-- The pairs that were measured. -/
def tried (sizes : Sizes) : List Pair := sizes.map (·.1)

variable {g : Grid} {data : List UInt8} {threads : Nat} {sizes : Sizes}

theorem lookup_eq_none {c : Pair} : sizes.lookup c = none ↔ c ∉ tried sizes := by
  simp only [List.lookup_eq_none_iff, tried, List.mem_map, bne_iff_ne, ne_eq, not_exists, not_and]
  exact forall₂_congr fun a _ => not_congr eq_comm

theorem map_filterMap_measurement? (data : List UInt8) (pairs : List Pair) :
    (pairs.filterMap (measurement? data)).map (·.1) =
      pairs.filter fun c => (sizeOf? data c).isSome := by
  induction pairs with
  | nil => rfl
  | cons c pairs ih =>
      cases hsize : sizeOf? data c with
      | none =>
          rw [List.filterMap_cons_none (by rw [measurement?, hsize]; rfl), ih,
            List.filter_cons_of_neg (by rw [hsize]; exact Bool.false_ne_true)]
      | some bits =>
          rw [List.filterMap_cons_some (b := (c, bits)) (by rw [measurement?, hsize]; rfl),
            List.map_cons, ih, List.filter_cons_of_pos (by rw [hsize]; rfl)]

/-- The pairs that a step tries stand in front of those tried before. -/
theorem tried_evaluate (data : List UInt8) (threads : Nat) (sizes : Sizes) (pairs : List Pair) :
    tried (evaluate data threads sizes pairs) =
      ((pairs.filter fun c => (sizes.lookup c).isNone).filter
        fun c => (sizeOf? data c).isSome).reverse ++ tried sizes := by
  rw [evaluate_eq, tried, List.map_append, List.map_reverse, map_filterMap_measurement?]
  rfl

theorem tried_subset_evaluate {pairs : List Pair} :
    tried sizes ⊆ tried (evaluate data threads sizes pairs) :=
  List.map_subset _ (subset_evaluate data threads sizes pairs)

/-- No pair is tried twice. -/
theorem nodup_evaluate {pairs : List Pair} (h : (tried sizes).Nodup) (hpairs : pairs.Nodup) :
    (tried (evaluate data threads sizes pairs)).Nodup := by
  rw [tried_evaluate, List.nodup_append]
  refine ⟨List.nodup_reverse.2 ((hpairs.filter _).filter _), h, ?_⟩
  rintro c hc _ hold rfl
  have hnew := (List.mem_filter.1 (List.mem_filter.1 (List.mem_reverse.1 hc)).1).2
  exact lookup_eq_none.1 (Option.isNone_iff_eq_none.1 hnew) hold

theorem exists_ofBits (hg : g.Admissible) {c : Pair} (hc : g.contains c = true) :
    ∃ p, Lzss.ofBits c.1 c.2 = .ok p := by
  obtain ⟨hbottom, htop, hpos, hcap⟩ := contains_iff.1 hc
  obtain ⟨htop', hlength⟩ := hg
  unfold Grid.bottom minWindowBits at hbottom
  unfold Grid.lengthCap at hcap
  have hwindow : 1 ≤ c.1 ∧ c.1 ≤ 24 := by omega
  have hwidth : 1 ≤ c.2 ∧ c.2 ≤ 16 := by omega
  unfold Lzss.ofBits
  rw [if_neg (fun h => h hwindow), if_neg (fun h => h hwidth)]
  exact ⟨_, rfl⟩

/-- A step tries every pair of the grid that it is asked for. -/
theorem mem_tried_evaluate (hg : g.Admissible) {pairs : List Pair} {c : Pair} (hc : c ∈ pairs)
    (hgrid : g.contains c = true) : c ∈ tried (evaluate data threads sizes pairs) := by
  by_cases hold : c ∈ tried sizes
  · exact tried_subset_evaluate hold
  · obtain ⟨p, hp⟩ := exists_ofBits hg hgrid
    have hsize : sizeOf? data c = some (p.estimateBits data) := by
      rw [sizeOf?, hp]
      rfl
    exact List.mem_map_of_mem (mem_evaluate_of_mem hc (lookup_eq_none.2 hold) hsize)

theorem contains_of_mem_tried (hsizes : Measured g data sizes) {c : Pair} (hc : c ∈ tried sizes) :
    g.contains c = true := by
  obtain ⟨a, ha, rfl⟩ := List.mem_map.1 hc
  exact (hsizes a ha).1

/-- The best pair is as good as every pair that was tried, by the sizes that they really have. -/
theorem asGood_of_mem_tried (hsizes : Measured g data sizes) {b : Pair × Nat}
    (hb : best? sizes = some b) {c : Pair} (hc : c ∈ tried sizes) :
    ∃ p, Lzss.ofBits c.1 c.2 = .ok p ∧ AsGood b (c, p.estimateBits data) := by
  obtain ⟨a, ha, rfl⟩ := List.mem_map.1 hc
  obtain ⟨p, hp, hbits⟩ := sizeOf?_eq_some (hsizes a ha).2
  exact ⟨p, hp, hbits ▸ asGood_of_best? hb a ha⟩

/-! ## Sweeps -/

theorem nodup_windowBatches : ∀ batch ∈ windowBatches g, batch.Nodup := by
  intro batch hbatch
  obtain ⟨i, -, rfl⟩ := List.mem_map.1 hbatch
  have hwindows : ((List.range (g.top + 1 - g.bottom)).map (g.top - ·)).Nodup := by
    refine List.Nodup.map_on ?_ List.nodup_range
    intro j hj k hk heq
    have hj := List.mem_range.1 hj
    have hk := List.mem_range.1 hk
    omega
  exact hwindows.sublist ((List.take_sublist _ _).trans (List.drop_sublist _ _))

theorem nodup_sweepWindows {progress : Progress} {batches : List (List Nat)}
    (h : (tried sizes).Nodup) (hbatches : ∀ batch ∈ batches, batch.Nodup) :
    (tried (sweepWindows g data threads progress sizes batches)).Nodup := by
  induction batches generalizing progress sizes with
  | nil => exact h
  | cons windows batches ih =>
      obtain ⟨hwindows, hbatches⟩ := List.forall_mem_cons.1 hbatches
      have hpairs : (windows.map (sweepPair g)).Nodup :=
        hwindows.map fun _ _ heq => congrArg Prod.fst heq
      have hnext : (tried (evaluate data threads sizes (windows.map (sweepPair g)))).Nodup :=
        nodup_evaluate h hpairs
      rw [sweepWindows]
      split
      · exact hnext
      · exact ih hnext hbatches

theorem nodup_sweeps (g : Grid) (data : List UInt8) (threads : Nat) :
    (tried (sweeps g data threads)).Nodup := by
  have hwindows : (tried (windowSweep g data threads)).Nodup :=
    nodup_sweepWindows List.nodup_nil nodup_windowBatches
  unfold sweeps
  split
  · refine nodup_evaluate hwindows (List.Nodup.map_on ?_ List.nodup_range)
    intro i _ j _ heq
    exact Nat.succ.inj (congrArg Prod.snd heq)
  · exact hwindows

/-! ## Rounds -/

/-- Two pairs are the same or differ by one at most in each of their fields. -/
def Beside (c n : Pair) : Prop :=
  (n.1 ≤ c.1 + 1 ∧ c.1 ≤ n.1 + 1) ∧ n.2 ≤ c.2 + 1 ∧ c.2 ≤ n.2 + 1

theorem mem_neighbours {c n : Pair} (hgrid : g.contains n = true) (h : Beside c n) :
    n ∈ neighbours g c := by
  obtain ⟨hw, hl⟩ := h
  have near : ∀ {x y : Nat}, x ≤ y + 1 ∧ y ≤ x + 1 → x ∈ [y - 1, y, y + 1] := by
    intro x y hxy
    simp only [List.mem_cons, List.not_mem_nil, or_false]
    omega
  refine List.mem_flatMap.2 ⟨n.1, near hw, List.mem_filter.2 ⟨?_, hgrid⟩⟩
  exact List.mem_map.2 ⟨n.2, near hl, rfl⟩

theorem contains_of_mem_neighbours {c n : Pair} (h : n ∈ neighbours g c) :
    g.contains n = true := by
  obtain ⟨w, -, hn⟩ := List.mem_flatMap.1 h
  exact (List.mem_filter.1 hn).2

theorem nodup_neighbours {c : Pair} (hc : 1 ≤ c.1 ∧ 1 ≤ c.2) : (neighbours g c).Nodup := by
  have around : ∀ {x : Nat}, 1 ≤ x → [x - 1, x, x + 1].Nodup := by
    intro x hx
    simp only [List.nodup_cons, List.mem_cons, List.not_mem_nil, or_false, List.nodup_nil,
      not_false_eq_true, and_true]
    omega
  refine List.nodup_flatMap.2 ⟨fun w _ => ?_, (around hc.1).imp fun {w v} hne n hn hn' => ?_⟩
  · exact ((around hc.2).map fun _ _ heq => congrArg Prod.snd heq).filter _
  · obtain ⟨l, -, rfl⟩ := List.mem_map.1 (List.mem_filter.1 hn).1
    obtain ⟨l', -, heq⟩ := List.mem_map.1 (List.mem_filter.1 hn').1
    exact hne (congrArg Prod.fst heq).symm

/-- One round: the pairs around the best one are tried. -/
def round (g : Grid) (data : List UInt8) (threads : Nat) (sizes : Sizes) : Sizes :=
  match best? sizes with
  | none => sizes
  | some (c, _) => evaluate data threads sizes (neighbours g c)

/-- The best pair so far. -/
def bestPair? (sizes : Sizes) : Option Pair := (best? sizes).map (·.1)

theorem refine_succ (rounds : Nat) : refine g data threads (rounds + 1) sizes =
    if bestPair? (round g data threads sizes) = bestPair? sizes then round g data threads sizes
    else refine g data threads rounds (round g data threads sizes) := by
  unfold round bestPair?
  rw [refine]
  cases h : best? sizes with
  | none =>
      rw [if_pos (by rw [h])]
  | some b => rfl

/-- A round that leaves the best pair in its place has tried everything around it. -/
def Settled (g : Grid) (sizes : Sizes) : Prop :=
  ∀ b, best? sizes = some b → ∀ n, g.contains n = true → Beside b.1 n → n ∈ tried sizes

theorem settled_round (hg : g.Admissible)
    (h : bestPair? (round g data threads sizes) = bestPair? sizes) :
    Settled g (round g data threads sizes) := by
  intro b hb n hgrid hbeside
  rw [bestPair?, hb] at h
  obtain ⟨a, ha, hab⟩ := Option.map_eq_some_iff.1 h.symm
  rw [round, ha]
  exact mem_tried_evaluate hg (mem_neighbours hgrid (hab ▸ hbeside)) hgrid

/-- The rounds end with a best pair in its place, unless every one of them moved it. -/
theorem settled_or_moved (hg : g.Admissible) (rounds : Nat) (sizes : Sizes) :
    Settled g (refine g data threads rounds sizes) ∨
      refine g data threads rounds sizes = (round g data threads)^[rounds] sizes ∧
        ∀ i < rounds, bestPair? ((round g data threads)^[i + 1] sizes) ≠
          bestPair? ((round g data threads)^[i] sizes) := by
  induction rounds generalizing sizes with
  | zero => exact Or.inr ⟨rfl, fun i hi => absurd hi (Nat.not_lt_zero i)⟩
  | succ rounds ih =>
      rw [refine_succ]
      split
      · next hstays => exact Or.inl (settled_round hg hstays)
      · next hmoves =>
        refine (ih (round g data threads sizes)).imp_right fun ⟨hlast, hmoved⟩ => ?_
        refine ⟨hlast, fun i hi => ?_⟩
        cases i with
        | zero => exact hmoves
        | succ i => exact hmoved i (Nat.lt_of_succ_lt_succ hi)

theorem nodup_refine {rounds : Nat} (hg : g.Admissible) (hsizes : Measured g data sizes)
    (h : (tried sizes).Nodup) : (tried (refine g data threads rounds sizes)).Nodup := by
  induction rounds generalizing sizes with
  | zero => exact h
  | succ rounds ih =>
      have hround : Measured g data (round g data threads sizes) ∧
          (tried (round g data threads sizes)).Nodup := by
        unfold round
        split
        · exact ⟨hsizes, h⟩
        · next c bits hbest =>
          have hc := contains_iff.1 (hsizes _ (mem_of_best? hbest)).1
          have hpos : 1 ≤ g.bottom := Nat.le_min.2 ⟨by decide, hg.1.1⟩
          refine ⟨hsizes.evaluate fun n hn => contains_of_mem_neighbours hn, ?_⟩
          exact nodup_evaluate h (nodup_neighbours ⟨Nat.le_trans hpos hc.1, hc.2.2.1⟩)
      rw [refine_succ]
      split
      · exact hround.2
      · exact ih hround.1 hround.2

/-- Every length field that may be used at the best window of the first sweep was tried. -/
theorem mem_tried_sweeps (hg : g.Admissible) {b : Pair × Nat}
    (hb : best? (windowSweep g data threads) = some b) {l : Nat} (hl : 1 ≤ l)
    (hcap : l ≤ g.lengthCap b.1.1) : (b.1.1, l) ∈ tried (sweeps g data threads) := by
  have hgrid := contains_iff.1 (measured_windowSweep g data threads _ (mem_of_best? hb)).1
  have hmem : (b.1.1, l) ∈ (List.range (g.lengthCap b.1.1)).map fun i => (b.1.1, i + 1) :=
    List.mem_map.2 ⟨l - 1, List.mem_range.2 (by omega), by rw [Nat.sub_add_cancel hl]⟩
  unfold sweeps
  rw [hb]
  exact mem_tried_evaluate hg hmem (contains_iff.2 ⟨hgrid.1, hgrid.2.1, hl, hcap⟩)

/-! ## The grid of a search -/

theorem bounds_of_ofLimits {limits : SearchLimits} {size : Nat} {c : Pair}
    (h : (Grid.ofLimits limits size).contains c = true) :
    (1 ≤ c.1 ∧ c.1 ≤ min 24 (max 1 limits.windowBits) ∧ c.1 ≤ max 4 (bitsFor (size - 1))) ∧
      1 ≤ c.2 ∧ c.2 ≤ min 16 (max 1 limits.lengthBits) ∧ c.2 ≤ c.1 := by
  obtain ⟨hbottom, htop, hpos, hcap⟩ := contains_iff.1 h
  unfold Grid.bottom at hbottom
  unfold Grid.lengthCap at hcap
  unfold Grid.ofLimits minWindowBits at hbottom htop hcap
  dsimp only at hbottom htop hcap
  omega

end Search

open Search

/-- **A search ends in a local optimum of what it may try.** Whatever the data, the limits and the
number of threads, it answers with parameters within the limits and their exact size, the best of
all the pairs that it tried, each once and each in its grid. Among them is every length field at
the best window of the first sweep. No pair of the grid beside the answer is better, unless the
search broke off while every round still moved. -/
theorem search_localOptimum (data : List UInt8) (limits : SearchLimits) (threads : Nat) :
    let g := Grid.ofLimits limits data.length
    let found := search data limits threads
    let best : Pair := (found.params.windowBits, found.params.lengthBits)
    let pairs := tried (measured data limits threads)
    ((1 ≤ best.1 ∧ best.1 ≤ min 24 (max 1 limits.windowBits) ∧
        best.1 ≤ max 4 (bitsFor (data.length - 1))) ∧
      1 ≤ best.2 ∧ best.2 ≤ min 16 (max 1 limits.lengthBits) ∧ best.2 ≤ best.1) ∧
    Lzss.ofBits best.1 best.2 = .ok found.params ∧
    found.bits = found.params.estimateBits data ∧
    (best ∈ pairs ∧ ∀ c ∈ pairs, ∃ p, Lzss.ofBits c.1 c.2 = .ok p ∧
      AsGood (best, found.bits) (c, p.estimateBits data)) ∧
    (∃ b ∈ windowSweep g data threads, (∀ a ∈ windowSweep g data threads, AsGood b a) ∧
      ∀ l, 1 ≤ l → l ≤ g.lengthCap b.1.1 → (b.1.1, l) ∈ pairs) ∧
    (∀ c ∈ pairs, g.contains c = true) ∧ pairs.Nodup ∧ found.evaluated = pairs.length ∧
    ((∀ n, g.contains n = true → Beside best n → ∃ p, Lzss.ofBits n.1 n.2 = .ok p ∧
        AsGood (best, found.bits) (n, p.estimateBits data)) ∨
      ∀ i < maxRounds, bestPair? ((round g data threads)^[i + 1] (sweeps g data threads)) ≠
        bestPair? ((round g data threads)^[i] (sweeps g data threads))) := by
  intro g found best pairs
  have hg : g.Admissible := admissible_ofLimits limits data.length
  have hmeasured : Measured g data (measured data limits threads) :=
    Search.measured g data threads
  obtain ⟨c, p, hbest, hp, hsearch⟩ := exists_search_eq data limits threads
  have hfound : found = ⟨p, p.estimateBits data, (measured data limits threads).length⟩ := hsearch
  have hmem := mem_of_best? hbest
  have hc : best = c := by
    obtain ⟨hw, hl⟩ := widths_of_ofBits hp
    show (found.params.windowBits, found.params.lengthBits) = c
    rw [hfound, hw, hl]
  have hleast : ∀ c' ∈ pairs, ∃ p', Lzss.ofBits c'.1 c'.2 = .ok p' ∧
      AsGood (best, found.bits) (c', p'.estimateBits data) := by
    rw [hc, hfound]
    exact fun c' hc' => asGood_of_mem_tried hmeasured hbest hc'
  refine ⟨?_, ?_, ?_, ⟨?_, hleast⟩, ?_, fun c' => contains_of_mem_tried hmeasured, ?_, ?_, ?_⟩
  · rw [hc]
    exact bounds_of_ofLimits (hmeasured _ hmem).1
  · rw [hc, hfound]
    exact hp
  · rw [hfound]
  · rw [hc]
    exact List.mem_map_of_mem hmem
  · have hsweep : windowSweep g data threads ≠ [] := windowSweep_ne_nil hg.1
    obtain ⟨b, hb⟩ := Option.ne_none_iff_exists'.1 (mt best?_eq_none.1 hsweep)
    refine ⟨b, mem_of_best? hb, asGood_of_best? hb, fun l hl hcap => ?_⟩
    exact List.map_subset _ subset_measurements (mem_tried_sweeps hg hb hl hcap)
  · exact nodup_refine hg (measured_sweeps g data threads) (nodup_sweeps g data threads)
  · rw [hfound]
    exact (List.length_map _).symm
  · refine (settled_or_moved hg maxRounds (sweeps g data threads)).imp ?_ And.right
    intro hsettled n hn hbeside
    exact hleast n (hsettled _ hbest n hn (hc ▸ hbeside))

end EmbeddedBuffers.Codec
