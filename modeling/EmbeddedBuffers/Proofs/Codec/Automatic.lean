import EmbeddedBuffers.Proofs.Codec.Containers
import EmbeddedBuffers.Proofs.Codec.Measurements

/-!
# Automatic compression

A buffer whose scheme is left open gets the shortest container of those in question: stored bytes,
run lengths at the width of its elements, and LZSS at every pair of field widths that the search
measured. Among equals stored bytes come first, then run lengths. Main statements:
`encode_auto_shortest` and `exists_encode_auto`.
-/

namespace EmbeddedBuffers.Codec

/-! ## The shortest of some schemes -/

/-- A scheme is not worse than another: its container is shorter, or as long and not more costly
to decode. -/
def NotWorse (data : List UInt8) (a b : Scheme) : Prop :=
  a.estimateSize data < b.estimateSize data ∨
    a.estimateSize data = b.estimateSize data ∧ a.rank ≤ b.rank

variable {data : List UInt8}

theorem NotWorse.refl (a : Scheme) : NotWorse data a a := Or.inr ⟨rfl, Nat.le_refl _⟩

theorem NotWorse.trans {a b c : Scheme} (hab : NotWorse data a b) (hbc : NotWorse data b c) :
    NotWorse data a c := by
  unfold NotWorse at *
  omega

theorem NotWorse.size_le {a b : Scheme} (h : NotWorse data a b) :
    a.estimateSize data ≤ b.estimateSize data := by
  unfold NotWorse at h
  omega

theorem NotWorse.size_lt {a b : Scheme} (h : NotWorse data a b) (hrank : b.rank < a.rank) :
    a.estimateSize data < b.estimateSize data := by
  unfold NotWorse at h
  omega

/-- The scheme that is picked is one of those in question, and none of them is better. -/
theorem shortest_notWorse (data : List UInt8) (first : Scheme) (others : List Scheme) :
    shortest data first others ∈ first :: others ∧
      ∀ s ∈ first :: others, NotWorse data (shortest data first others) s := by
  -- The best one so far stands beside its size, and no scheme seen is better than it.
  suffices h : ∀ (others : List Scheme) (best : Scheme),
      ∃ s, others.foldl (fun (best : Nat × Scheme) s =>
          let size := s.estimateSize data
          if size < best.1 ∨ (size = best.1 ∧ s.rank < best.2.rank) then (size, s) else best)
        (best.estimateSize data, best) = (s.estimateSize data, s) ∧
      s ∈ best :: others ∧ ∀ s' ∈ best :: others, NotWorse data s s' by
    obtain ⟨s, hfold, hmem, hbest⟩ := h others first
    have hs : shortest data first others = s := congrArg Prod.snd hfold
    exact hs ▸ ⟨hmem, hbest⟩
  intro others
  induction others with
  | nil =>
      intro best
      exact ⟨best, rfl, List.mem_cons_self, by simpa using NotWorse.refl best⟩
  | cons a others ih =>
      intro best
      rw [List.foldl_cons]
      dsimp only
      split
      · next hbetter =>
        have hab : NotWorse data a best := by
          unfold NotWorse
          omega
        obtain ⟨s, hfold, hmem, hbest⟩ := ih a
        obtain ⟨ha, hothers⟩ := List.forall_mem_cons.1 hbest
        refine ⟨s, hfold, List.mem_cons_of_mem _ hmem, ?_⟩
        exact List.forall_mem_cons.2 ⟨ha.trans hab, List.forall_mem_cons.2 ⟨ha, hothers⟩⟩
      · next hbetter =>
        have hba : NotWorse data best a := by
          unfold NotWorse
          omega
        obtain ⟨s, hfold, hmem, hbest⟩ := ih best
        obtain ⟨hb, hothers⟩ := List.forall_mem_cons.1 hbest
        refine ⟨s, hfold, ?_, ?_⟩
        · rcases List.mem_cons.1 hmem with rfl | hmem
          · exact List.mem_cons_self
          · exact List.mem_cons_of_mem _ (List.mem_cons_of_mem _ hmem)
        · exact List.forall_mem_cons.2 ⟨hb, List.forall_mem_cons.2 ⟨hb.trans hba, hothers⟩⟩

/-! ## What a search finds -/

theorem sizeOf?_eq_some {c : Search.Pair} {bits : Nat} (h : Search.sizeOf? data c = some bits) :
    ∃ p, Lzss.ofBits c.1 c.2 = .ok p ∧ p.estimateBits data = bits := by
  unfold Search.sizeOf? at h
  cases hp : Lzss.ofBits c.1 c.2 with
  | error f =>
      rw [hp] at h
      cases h
  | ok p =>
      rw [hp] at h
      exact ⟨p, rfl, Option.some.inj h⟩

theorem widths_of_ofBits {w l : Nat} {p : Lzss} (h : Lzss.ofBits w l = .ok p) :
    p.windowBits = w ∧ p.lengthBits = l := by
  unfold Lzss.ofBits at h
  split at h
  · cases h
  · split at h
    · cases h
    · cases h
      exact ⟨rfl, rfl⟩

/-- The measurements of a search under some limits. -/
def measured (data : List UInt8) (limits : SearchLimits) (threads : Nat) : Search.Sizes :=
  Search.measurements (.ofLimits limits data.length) data threads

/-- A search answers with its best measurement and the number of measurements. -/
theorem exists_search_eq (data : List UInt8) (limits : SearchLimits) (threads : Nat) :
    ∃ c p, Search.best? (measured data limits threads) = some (c, p.estimateBits data) ∧
      Lzss.ofBits c.1 c.2 = .ok p ∧ search data limits threads =
        ⟨p, p.estimateBits data, (measured data limits threads).length⟩ := by
  have hmeasured := Search.measured (.ofLimits limits data.length) data threads
  have hne := @Search.measurements_ne_nil (.ofLimits limits data.length) data threads
    (Search.admissible_ofLimits limits data.length).1
  obtain ⟨⟨c, bits⟩, hbest⟩ := Option.ne_none_iff_exists'.1 (mt Search.best?_eq_none.1 hne)
  obtain ⟨p, hp, rfl⟩ := sizeOf?_eq_some (hmeasured _ (Search.mem_of_best? hbest)).2
  refine ⟨c, p, hbest, hp, ?_⟩
  unfold search
  dsimp only
  rw [hbest]
  dsimp only [Option.getD]
  rw [hp]
  rfl

/-- A search finds the shortest of all streams that it measured. -/
theorem search_params (data : List UInt8) (limits : SearchLimits) (threads : Nat) :
    ∃ c ∈ (measured data limits threads).map (·.1),
      Lzss.ofBits c.1 c.2 = .ok (search data limits threads).params ∧
      ∀ c' ∈ (measured data limits threads).map (·.1), ∃ p, Lzss.ofBits c'.1 c'.2 = .ok p ∧
        (search data limits threads).params.estimateBits data ≤ p.estimateBits data := by
  have hmeasured := Search.measured (.ofLimits limits data.length) data threads
  obtain ⟨c, p, hbest, hp, hsearch⟩ := exists_search_eq data limits threads
  rw [hsearch]
  refine ⟨c, List.mem_map_of_mem (Search.mem_of_best? hbest), hp, fun c' hc' => ?_⟩
  obtain ⟨a, ha, rfl⟩ := List.mem_map.1 hc'
  obtain ⟨p', hp', hbits'⟩ := sizeOf?_eq_some (hmeasured a ha).2
  exact ⟨p', hp', hbits' ▸ Search.best?_le hbest a ha⟩

theorem estimateSize_le {s s' : Scheme} (h : s.estimateBits data ≤ s'.estimateBits data) :
    s.estimateSize data ≤ s'.estimateSize data := by
  unfold Scheme.estimateSize
  omega

/-- The fields of a measured pair are within the limits. -/
theorem widths_le_of_measured {limits : SearchLimits} {threads : Nat} {c : Search.Pair}
    (hc : c ∈ (measured data limits threads).map (·.1)) :
    c.1 ≤ min 24 (max 1 limits.windowBits) ∧ c.2 ≤ min 16 (max 1 limits.lengthBits) := by
  obtain ⟨a, ha, rfl⟩ := List.mem_map.1 hc
  have hgrid := Search.contains_iff.1
    (Search.measured (.ofLimits limits data.length) data threads a ha).1
  have hcap : (Search.Grid.ofLimits limits data.length).lengthCap a.1.1 ≤
      min 16 (max 1 limits.lengthBits) := by
    unfold Search.Grid.lengthCap Search.Grid.ofLimits
    dsimp only
    omega
  refine ⟨Nat.le_trans hgrid.2.1 ?_, Nat.le_trans hgrid.2.2.2 hcap⟩
  exact Nat.min_le_left _ _

/-! ## The guarantee -/

/-- The container of a scheme is at least as long as an encoded buffer. -/
def AtLeast (data : List UInt8) (e : Encoded) (s : Scheme) : Prop :=
  ∃ bytes, container s data = .ok bytes ∧ e.bytes.length ≤ bytes.length

/-- The container of a scheme is longer than an encoded buffer. -/
def Longer (data : List UInt8) (e : Encoded) (s : Scheme) : Prop :=
  ∃ bytes, container s data = .ok bytes ∧ e.bytes.length < bytes.length

/-- **An automatically compressed buffer is no longer than in any other way that was tried**: as
stored bytes, with run lengths at the width of its elements, or as LZSS with any pair of field
widths that the search measured. The fields of LZSS are within the limits. Stored bytes are left
for something shorter only, and run lengths for LZSS only where that is shorter. -/
theorem encode_auto_shortest {name : String} {stride threads : Nat} {limits : SearchLimits}
    {e : Encoded} (hsize : data.length < 2 ^ 32)
    (hstride : stride = 1 ∨ stride = 2 ∨ stride = 4 ∨ stride = 8)
    (h : encode name data stride threads (.auto limits) = .ok e) :
    e.bytes.length ≤ 5 + data.length ∧ AtLeast data e .stored ∧ AtLeast data e (.rle ⟨stride⟩) ∧
    (∀ c ∈ (measured data limits threads).map (·.1), ∃ p, Lzss.ofBits c.1 c.2 = .ok p ∧
      AtLeast data e (.lzss p)) ∧
    (e.scheme = .stored ∨
      e.scheme = .rle ⟨stride⟩ ∧ Longer data e .stored ∨
      ∃ p, e.scheme = .lzss p ∧ Longer data e .stored ∧ Longer data e (.rle ⟨stride⟩) ∧
        p.windowBits ≤ min 24 (max 1 limits.windowBits) ∧
        p.lengthBits ≤ min 16 (max 1 limits.lengthBits) ∧
        ∃ c ∈ (measured data limits threads).map (·.1), Lzss.ofBits c.1 c.2 = .ok p) := by
  obtain ⟨hscheme, hbytes, -⟩ := container_of_encode h
  have hlength := length_container hbytes
  obtain ⟨c, hc, hparams, hleast⟩ := search_params data limits threads
  have hrle : (Rle.ofWidth stride).toOption.map Scheme.rle = some (.rle ⟨stride⟩) := by
    rcases hstride with rfl | rfl | rfl | rfl <;> rfl
  have hchoose : e.scheme =
      shortest data (.lzss (search data limits threads).params) [.stored, .rle ⟨stride⟩] := by
    have hchosen := Except.ok.inj hscheme
    rw [choose, hrle] at hchosen
    exact hchosen.symm
  obtain ⟨hmem, hbest⟩ := shortest_notWorse data
    (.lzss (search data limits threads).params) [.stored, .rle ⟨stride⟩]
  rw [← hchoose] at hmem hbest
  obtain ⟨hlzss, hbest⟩ := List.forall_mem_cons.1 hbest
  obtain ⟨hstored, hbest⟩ := List.forall_mem_cons.1 hbest
  have hrle := hbest _ List.mem_cons_self
  have atLeast : ∀ s, e.scheme.estimateSize data ≤ s.estimateSize data → AtLeast data e s := by
    intro s hs
    obtain ⟨bytes, hb⟩ := exists_container s hsize
    exact ⟨bytes, hb, by rw [hlength, length_container hb]; exact hs⟩
  have longer : ∀ s, e.scheme.estimateSize data < s.estimateSize data → Longer data e s := by
    intro s hs
    obtain ⟨bytes, hb⟩ := exists_container s hsize
    exact ⟨bytes, hb, by rw [hlength, length_container hb]; exact hs⟩
  refine ⟨?_, atLeast _ hstored.size_le, atLeast _ hrle.size_le, fun c' hc' => ?_, ?_⟩
  · have hle := hstored.size_le
    have hsum : Scheme.stored.estimateSize data = 5 + data.length := by
      show 1 + (32 + data.length * 8 + 7) / 8 = _
      omega
    rw [hlength, ← hsum]
    exact hle
  · obtain ⟨p, hp, hbits⟩ := hleast c' hc'
    exact ⟨p, hp, atLeast _ (Nat.le_trans hlzss.size_le (estimateSize_le hbits))⟩
  · simp only [List.mem_cons, List.not_mem_nil, or_false] at hmem
    rcases hmem with hlzss | hstored' | hrle'
    · right; right
      rw [hlzss] at hstored hrle longer
      obtain ⟨hw, hl⟩ := widths_of_ofBits hparams
      have hwidths := widths_le_of_measured hc
      refine ⟨_, hlzss, longer _ (hstored.size_lt Nat.two_pos), longer _ (hrle.size_lt Nat.one_lt_two),
        hw ▸ hwidths.1, hl ▸ hwidths.2, c, hc, hparams⟩
    · exact Or.inl hstored'
    · right; left
      rw [hrle'] at hstored longer
      exact ⟨hrle', longer _ (hstored.size_lt Nat.one_pos)⟩

theorem admissible_of_ofBits {w l : Nat} {p : Lzss} (h : Lzss.ofBits w l = .ok p) :
    p.Admissible := by
  unfold Lzss.ofBits at h
  split at h
  · cases h
  · next hw =>
    split at h
    · cases h
    · next hl =>
      cases h
      refine ⟨Decidable.not_not.1 hw, Decidable.not_not.1 hl, ?_⟩
      dsimp only
      omega

/-- **A buffer whose elements are not two bytes wide can always be compressed automatically.** -/
theorem exists_encode_auto (hsize : data.length < 2 ^ 32) {stride : Nat}
    (hstride : stride = 1 ∨ stride = 4 ∨ stride = 8) (name : String) (threads : Nat)
    (limits : SearchLimits) : ∃ e, encode name data stride threads (.auto limits) = .ok e := by
  obtain ⟨c, -, hparams, -⟩ := search_params data limits threads
  have hwidth : (Rle.ofWidth stride).toOption.map Scheme.rle = some (.rle ⟨stride⟩) := by
    rcases hstride with rfl | rfl | rfl <;> rfl
  have hrle : (⟨stride⟩ : Rle).Admissible := by
    unfold Rle.Admissible
    dsimp only
    omega
  have hchoose : choose data stride limits threads =
      shortest data (.lzss (search data limits threads).params) [.stored, .rle ⟨stride⟩] := by
    rw [choose, hwidth]
    rfl
  have hmem := (shortest_notWorse data (.lzss (search data limits threads).params)
    [.stored, .rle ⟨stride⟩]).1
  rw [← hchoose] at hmem
  simp only [List.mem_cons, List.not_mem_nil, or_false] at hmem
  have hfaithful : (choose data stride limits threads).Faithful data := by
    rcases hmem with h | h | h
    · rw [h]
      exact admissible_of_ofBits hparams
    · rw [h]
      trivial
    · have hne : stride ≠ 2 := by omega
      rw [h]
      exact ⟨hrle, fun hexhausts => hne hexhausts.1⟩
  obtain ⟨bytes, hbytes⟩ := exists_container (choose data stride limits threads) hsize
  exact ⟨_, encodeWith_eq_ok hfaithful hbytes name stride⟩

/-- Two bytes in turn, for which LZSS is the shortest. -/
theorem encode_auto_alternating :
    let data : List UInt8 := [1, 2, 1, 2, 1, 2, 1, 2, 1, 2, 1, 2, 1, 2, 1, 2]
    let limits : SearchLimits := ⟨2, 2⟩
    data.length < 2 ^ 32 ∧ ∃ e, encode "turns" data 1 2 (.auto limits) = .ok e ∧
      e.bytes.length ≤ 5 + data.length ∧ AtLeast data e .stored ∧ AtLeast data e (.rle ⟨1⟩) ∧
      (∀ c ∈ (measured data limits 2).map (·.1), ∃ p, Lzss.ofBits c.1 c.2 = .ok p ∧
        AtLeast data e (.lzss p)) := by
  intro data limits
  have hsize : data.length < 2 ^ 32 := by decide
  obtain ⟨e, he⟩ := exists_encode_auto hsize (Or.inl rfl) "turns" 2 limits
  obtain ⟨hlength, hstored, hrle, hlzss, -⟩ := encode_auto_shortest hsize (Or.inl rfl) he
  exact ⟨hsize, e, he, hlength, hstored, hrle, hlzss⟩

end EmbeddedBuffers.Codec
