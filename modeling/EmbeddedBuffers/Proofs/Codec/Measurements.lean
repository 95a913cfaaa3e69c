import EmbeddedBuffers.Proofs.Codec.Threads

/-!
# What a search measures

Every measurement of a search is the size of the stream under a pair of the grid, the first window
is always measured, and the best measurement is one of the smallest. Main statements:
`Search.measured`, `Search.measurements_ne_nil` and `Search.best?_le`.
-/

namespace EmbeddedBuffers.Codec.Search

/-! ## The best measurement -/

theorem mem_of_best? {sizes : Sizes} {b : Pair × Nat} (h : best? sizes = some b) : b ∈ sizes := by
  induction sizes generalizing b with
  | nil => cases h
  | cons a sizes ih =>
      rw [best?] at h
      split at h
      · cases h
        exact List.mem_cons_self
      · next b' hb' =>
        split at h
        · cases h
          exact List.mem_cons_self
        · cases h
          exact List.mem_cons_of_mem _ (ih hb')

theorem best?_eq_none {sizes : Sizes} : best? sizes = none ↔ sizes = [] := by
  cases sizes with
  | nil => simp [best?]
  | cons a sizes =>
      rw [best?]
      split
      · simp
      · split <;> simp

/-- No measurement is smaller than the best one. -/
theorem best?_le {sizes : Sizes} {b : Pair × Nat} (h : best? sizes = some b) :
    ∀ a ∈ sizes, b.2 ≤ a.2 := by
  induction sizes generalizing b with
  | nil => cases h
  | cons a sizes ih =>
      rw [best?] at h
      split at h
      · next hnone =>
        cases h
        rw [best?_eq_none.1 hnone]
        simp
      · next b' hb' =>
        have hle := ih hb'
        split at h
        · next hbeats =>
          cases h
          have hab : a.2 ≤ b'.2 := by
            simp only [beats, Bool.or_eq_true, decide_eq_true_eq, Bool.and_eq_true,
              beq_iff_eq] at hbeats
            omega
          refine List.forall_mem_cons.2 ⟨Nat.le_refl _, fun x hx => ?_⟩
          exact Nat.le_trans hab (hle x hx)
        · next hbeats =>
          cases h
          refine List.forall_mem_cons.2 ⟨?_, hle⟩
          simp only [beats, Bool.or_eq_true, decide_eq_true_eq, not_or] at hbeats
          exact Nat.not_lt.1 hbeats.1

/-! ## Measuring -/

/-- Every measurement is the size under a pair of the grid. -/
def Measured (g : Grid) (data : List UInt8) (sizes : Sizes) : Prop :=
  ∀ a ∈ sizes, g.contains a.1 = true ∧ sizeOf? data a.1 = some a.2

/-- The measurement of a pair, if it has one. -/
def measurement? (data : List UInt8) (c : Pair) : Option (Pair × Nat) :=
  (sizeOf? data c).map fun bits => (c, bits)

/-- New measurements stand in front of those taken before. -/
theorem evaluate_eq (data : List UInt8) (threads : Nat) (sizes : Sizes) (pairs : List Pair) :
    evaluate data threads sizes pairs =
      ((pairs.filter fun c => (sizes.lookup c).isNone).filterMap (measurement? data)).reverse ++
        sizes := by
  unfold evaluate
  dsimp only
  rw [Pool.map_eq]
  generalize pairs.filter (fun c => (sizes.lookup c).isNone) = fresh
  induction fresh generalizing sizes with
  | nil => rfl
  | cons c fresh ih =>
      rw [List.map_cons, List.zip_cons_cons, List.foldl_cons, ih]
      cases hsize : sizeOf? data c with
      | none => rw [List.filterMap_cons_none (by rw [measurement?, hsize]; rfl)]
      | some bits =>
          rw [List.filterMap_cons_some (b := (c, bits)) (by rw [measurement?, hsize]; rfl)]
          simp

theorem mem_evaluate {data : List UInt8} {threads : Nat} {sizes : Sizes} {pairs : List Pair}
    {a : Pair × Nat} (h : a ∈ evaluate data threads sizes pairs) :
    a ∈ sizes ∨ a.1 ∈ pairs ∧ sizeOf? data a.1 = some a.2 := by
  rw [evaluate_eq, List.mem_append, List.mem_reverse, List.mem_filterMap] at h
  rcases h with ⟨c, hc, hsize⟩ | h
  · obtain ⟨bits, hbits, rfl⟩ := Option.map_eq_some_iff.1 hsize
    exact Or.inr ⟨(List.mem_filter.1 hc).1, hbits⟩
  · exact Or.inl h

theorem subset_evaluate (data : List UInt8) (threads : Nat) (sizes : Sizes) (pairs : List Pair) :
    sizes ⊆ evaluate data threads sizes pairs := by
  rw [evaluate_eq]
  exact List.subset_append_right _ _

/-- A pair that was not measured before is measured. -/
theorem mem_evaluate_of_mem {data : List UInt8} {threads : Nat} {sizes : Sizes}
    {pairs : List Pair} {c : Pair} {bits : Nat} (hc : c ∈ pairs) (hnew : sizes.lookup c = none)
    (hsize : sizeOf? data c = some bits) : (c, bits) ∈ evaluate data threads sizes pairs := by
  have hfresh : c ∈ pairs.filter fun c => (sizes.lookup c).isNone :=
    List.mem_filter.2 ⟨hc, by rw [hnew]; rfl⟩
  rw [evaluate_eq]
  refine List.mem_append_left _ (List.mem_reverse.2 (List.mem_filterMap.2 ⟨c, hfresh, ?_⟩))
  rw [measurement?, hsize]
  rfl

variable {g : Grid} {data : List UInt8} {threads : Nat} {sizes : Sizes}

theorem Measured.evaluate {pairs : List Pair} (h : Measured g data sizes)
    (hpairs : ∀ c ∈ pairs, g.contains c = true) :
    Measured g data (evaluate data threads sizes pairs) := by
  intro a ha
  rcases mem_evaluate ha with ha | ⟨hmem, hsize⟩
  · exact h a ha
  · exact ⟨hpairs _ hmem, hsize⟩

/-! ## The phases of a search -/

theorem contains_iff {c : Pair} : g.contains c = true ↔
    g.bottom ≤ c.1 ∧ c.1 ≤ g.top ∧ 1 ≤ c.2 ∧ c.2 ≤ g.lengthCap c.1 := by
  simp only [Grid.contains, Bool.and_eq_true, decide_eq_true_eq, and_assoc]

/-- The fields of every pair of a grid have widths that LZSS admits. -/
def Grid.Admissible (g : Grid) : Prop := (1 ≤ g.top ∧ g.top ≤ 24) ∧ g.maxLengthBits ≤ 16

theorem admissible_ofLimits (limits : SearchLimits) (size : Nat) :
    (Grid.ofLimits limits size).Admissible := by
  unfold Grid.Admissible Grid.ofLimits minWindowBits
  dsimp only
  omega

theorem one_le_lengthCap (w : Nat) : 1 ≤ g.lengthCap w := Nat.le_max_left _ _

/-- The pair that the first sweep measures at a window. -/
def sweepPair (g : Grid) (w : Nat) : Pair := (w, min (g.lengthCap w) sweepLengthBits)

theorem contains_sweepPair {w : Nat} (h : g.bottom ≤ w ∧ w ≤ g.top) :
    g.contains (sweepPair g w) = true := by
  have hpos : 1 ≤ min (g.lengthCap w) sweepLengthBits :=
    Nat.le_min.2 ⟨one_le_lengthCap w, by decide⟩
  exact contains_iff.2 ⟨h.1, h.2, hpos, Nat.min_le_left _ _⟩

theorem bounds_of_mem_windowBatches {batch : List Nat} (hb : batch ∈ windowBatches g) :
    ∀ w ∈ batch, g.bottom ≤ w ∧ w ≤ g.top := by
  intro w hw
  obtain ⟨i, -, rfl⟩ := List.mem_map.1 hb
  obtain ⟨j, hj, rfl⟩ := List.mem_map.1 (List.mem_of_mem_drop (List.mem_of_mem_take hw))
  have hlt := List.mem_range.1 hj
  omega

theorem Measured.sweepWindows {progress : Progress} {batches : List (List Nat)}
    (h : Measured g data sizes)
    (hbatches : ∀ batch ∈ batches, ∀ w ∈ batch, g.bottom ≤ w ∧ w ≤ g.top) :
    Measured g data (sweepWindows g data threads progress sizes batches) := by
  induction batches generalizing progress sizes with
  | nil => exact h
  | cons windows batches ih =>
      obtain ⟨hwindows, hbatches⟩ := List.forall_mem_cons.1 hbatches
      have hnext : Measured g data
          (Search.evaluate data threads sizes (windows.map (sweepPair g))) := by
        refine h.evaluate fun c hc => ?_
        obtain ⟨w, hw, rfl⟩ := List.mem_map.1 hc
        exact contains_sweepPair (hwindows w hw)
      rw [Search.sweepWindows]
      split
      · exact hnext
      · exact ih hnext hbatches

theorem Measured.sweepLengths (h : Measured g data sizes) {w : Nat}
    (hw : g.bottom ≤ w ∧ w ≤ g.top) :
    Measured g data (sweepLengths g data threads sizes w) := by
  refine h.evaluate fun c hc => ?_
  obtain ⟨i, hi, rfl⟩ := List.mem_map.1 hc
  exact contains_iff.2 ⟨hw.1, hw.2, Nat.succ_le_succ (Nat.zero_le i), List.mem_range.1 hi⟩

theorem Measured.refine {rounds : Nat} (h : Measured g data sizes) :
    Measured g data (refine g data threads rounds sizes) := by
  induction rounds generalizing sizes with
  | zero => exact h
  | succ rounds ih =>
      have hnext : ∀ c, Measured g data (Search.evaluate data threads sizes (neighbours g c)) := by
        refine fun c => h.evaluate fun n hn => ?_
        obtain ⟨w, -, hn⟩ := List.mem_flatMap.1 hn
        exact (List.mem_filter.1 hn).2
      rw [Search.refine]
      split
      · exact h
      · next c bits hbest =>
        show Measured g data (if _ then _ else _)
        split
        · exact hnext _
        · exact ih (hnext _)

/-- The measurements of the sweep over the windows. -/
def windowSweep (g : Grid) (data : List UInt8) (threads : Nat) : Sizes :=
  sweepWindows g data threads ⟨none, 0⟩ [] (windowBatches g)

/-- The measurements of both sweeps. -/
def sweeps (g : Grid) (data : List UInt8) (threads : Nat) : Sizes :=
  match best? (windowSweep g data threads) with
  | some (c, _) => sweepLengths g data threads (windowSweep g data threads) c.1
  | none => windowSweep g data threads

theorem measurements_eq (g : Grid) (data : List UInt8) (threads : Nat) :
    measurements g data threads = refine g data threads maxRounds (sweeps g data threads) := rfl

theorem measured_windowSweep (g : Grid) (data : List UInt8) (threads : Nat) :
    Measured g data (windowSweep g data threads) :=
  Measured.sweepWindows (List.forall_mem_nil _) fun _ hb => bounds_of_mem_windowBatches hb

theorem measured_sweeps (g : Grid) (data : List UInt8) (threads : Nat) :
    Measured g data (sweeps g data threads) := by
  have hwindows := measured_windowSweep g data threads
  unfold sweeps
  split
  · next c bits hbest =>
    have hc := contains_iff.1 (hwindows _ (mem_of_best? hbest)).1
    exact hwindows.sweepLengths ⟨hc.1, hc.2.1⟩
  · exact hwindows

/-- **All measurements of a search are sizes under pairs of its grid.** -/
theorem measured (g : Grid) (data : List UInt8) (threads : Nat) :
    Measured g data (measurements g data threads) := by
  rw [measurements_eq]
  exact (measured_sweeps g data threads).refine

/-! ## No measurement is lost -/

theorem subset_sweepWindows {progress : Progress} {batches : List (List Nat)} :
    sizes ⊆ sweepWindows g data threads progress sizes batches := by
  induction batches generalizing progress sizes with
  | nil => exact List.Subset.refl _
  | cons windows batches ih =>
      rw [sweepWindows]
      split
      · exact subset_evaluate _ _ _ _
      · exact List.Subset.trans (subset_evaluate _ _ _ _) ih

theorem subset_refine {rounds : Nat} : sizes ⊆ refine g data threads rounds sizes := by
  induction rounds generalizing sizes with
  | zero => exact List.Subset.refl _
  | succ rounds ih =>
      rw [refine]
      split
      · exact List.Subset.refl _
      · next c bits hbest =>
        show sizes ⊆ (if _ then _ else _)
        split
        · exact subset_evaluate _ _ _ _
        · exact List.Subset.trans (subset_evaluate _ _ _ _) ih

theorem subset_sweeps : windowSweep g data threads ⊆ sweeps g data threads := by
  unfold sweeps
  split
  · exact subset_evaluate _ _ _ _
  · exact List.Subset.refl _

theorem subset_measurements : sweeps g data threads ⊆ measurements g data threads := by
  rw [measurements_eq]
  exact subset_refine

/-- The widest window is measured first. -/
theorem windowSweep_ne_nil (htop : 1 ≤ g.top ∧ g.top ≤ 24) :
    windowSweep g data threads ≠ [] := by
  obtain ⟨windows, batches, hbatches, hmem⟩ : ∃ windows batches,
      windowBatches g = windows :: batches ∧ g.top ∈ windows := by
    have hbottom : g.bottom ≤ g.top := Nat.min_le_right _ _
    have hcount : g.top + 1 - g.bottom = (g.top - g.bottom) + 1 := by omega
    have hbatch : (((List.range (g.top + 1 - g.bottom)).map (g.top - ·)).length + batch - 1) /
        batch = (g.top - g.bottom) / batch + 1 := by
      rw [List.length_map, List.length_range, batch]
      omega
    unfold windowBatches
    dsimp only
    rw [hbatch, List.range_succ_eq_map, List.map_cons]
    refine ⟨_, _, rfl, ?_⟩
    rw [hcount, List.range_succ_eq_map, List.map_cons, Nat.zero_mul, List.drop_zero, batch,
      List.take_succ_cons]
    exact List.mem_cons_self
  have hsize : ∃ bits, sizeOf? data (sweepPair g g.top) = some bits := by
    have hpos := one_le_lengthCap (g := g) g.top
    have hlength : 1 ≤ min (g.lengthCap g.top) sweepLengthBits ∧
        min (g.lengthCap g.top) sweepLengthBits ≤ 16 := by
      unfold sweepLengthBits
      omega
    unfold sizeOf? sweepPair Lzss.ofBits
    rw [if_neg (fun h => h htop), if_neg (fun h => h hlength)]
    exact ⟨_, rfl⟩
  obtain ⟨bits, hbits⟩ := hsize
  have hfirst : (sweepPair g g.top, bits) ∈
      evaluate data threads [] (windows.map (sweepPair g)) :=
    mem_evaluate_of_mem (List.mem_map_of_mem hmem) rfl hbits
  have hsweep : (sweepPair g g.top, bits) ∈ windowSweep g data threads := by
    rw [windowSweep, hbatches, sweepWindows]
    split
    · exact hfirst
    · exact subset_sweepWindows hfirst
  exact List.ne_nil_of_mem hsweep

theorem measurements_ne_nil (htop : 1 ≤ g.top ∧ g.top ≤ 24) :
    measurements g data threads ≠ [] := by
  obtain ⟨a, ha⟩ := List.exists_mem_of_ne_nil _ (windowSweep_ne_nil htop)
  exact List.ne_nil_of_mem (subset_measurements (subset_sweeps ha))

end EmbeddedBuffers.Codec.Search
