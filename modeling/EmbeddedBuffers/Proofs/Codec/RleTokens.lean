import EmbeddedBuffers.Codec.Rle
import Mathlib.Data.List.Chain

/-!
# Run-length tokens and what they expand to

Elements are cut into maximal runs, and every run into tokens. Written out again, the runs
and the tokens are the elements: `expand_runs` and `expand_tokens`. Which tokens a decoder
recognises depends on the sentinel alone, `Token.Readable`; for a sentinel that an element
can hold and that is either absent or escaped, all tokens are of that kind,
`readable_tokens`. `leastAbsent_spec` says which sentinel the encoder picks.
-/

namespace EmbeddedBuffers.Codec.Rle

/-! ## The sentinel -/

theorem size_foldl_marks (values : List Nat) (marks : Array Bool) :
    (values.foldl (fun t v => t.setIfInBounds v true) marks).size = marks.size := by
  induction values generalizing marks with
  | nil => rfl
  | cons v values ih =>
      rw [List.foldl_cons, ih, Array.size_setIfInBounds]

/-- The marked places are those marked before and the values. -/
theorem getElem?_foldl_marks (values : List Nat) (marks : Array Bool) {i : Nat}
    (hi : i < marks.size) :
    (values.foldl (fun t v => t.setIfInBounds v true) marks)[i]? =
      some (marks[i] || decide (i ∈ values)) := by
  induction values generalizing marks with
  | nil => simp [hi]
  | cons v values ih =>
      rw [List.foldl_cons, ih _ (by rwa [Array.size_setIfInBounds])]
      by_cases hv : v = i
      · subst hv
        simp
      · have hiv : i ≠ v := fun h => hv h.symm
        rw [Array.getElem_setIfInBounds_ne hi hv]
        simp [hiv]

/-- More numbers than there are values cannot all be among the values. -/
theorem exists_absent (values : List Nat) : ∃ i ≤ values.length, i ∉ values := by
  by_contra hall
  have hsub : List.range (values.length + 1) ⊆ values := by
    intro i hi
    by_contra hmem
    exact hall ⟨i, Nat.le_of_lt_succ (List.mem_range.1 hi), hmem⟩
  have hle := List.Nodup.length_le_of_subset List.nodup_range hsub
  rw [List.length_range] at hle
  omega

/-- The least absent number: it is absent, and all smaller ones occur. -/
theorem leastAbsent_spec (values : List Nat) :
    leastAbsent values ∉ values ∧ leastAbsent values ≤ values.length ∧
      ∀ v < leastAbsent values, v ∈ values := by
  have hsize := size_foldl_marks values (Array.replicate (values.length + 1) false)
  have hget : ∀ i < values.length + 1, (values.foldl (fun t v => t.setIfInBounds v true)
      (Array.replicate (values.length + 1) false))[i]? = some (decide (i ∈ values)) := by
    intro i hi
    rw [getElem?_foldl_marks values _ (by rwa [Array.size_replicate])]
    simp
  unfold leastAbsent
  dsimp only
  generalize values.foldl _ _ = occurs at hsize hget ⊢
  rw [Array.size_replicate] at hsize
  have hmark : ∀ i (h : i < occurs.size), occurs[i] = decide (i ∈ values) := by
    intro i h
    have hi := hget i (hsize ▸ h)
    rw [Array.getElem?_eq_getElem h] at hi
    exact Option.some.inj hi
  cases hfind : occurs.findIdx? (!·) with
  | none =>
      exfalso
      obtain ⟨i, hi, habsent⟩ := exists_absent values
      have hlt : i < occurs.size := by omega
      have hset := Array.findIdx?_eq_none_iff.1 hfind _ (Array.getElem_mem hlt)
      rw [hmark] at hset
      simp [habsent] at hset
  | some i =>
      obtain ⟨hlt, hset, hbelow⟩ := Array.findIdx?_eq_some_iff_getElem.1 hfind
      rw [hmark] at hset
      refine ⟨by simpa using hset, by simp only [Option.getD_some]; omega, ?_⟩
      intro v hv
      have hv' := hbelow v hv
      rw [hmark] at hv'
      simpa using hv'

theorem rarestByte_lt (values : List Nat) : rarestByte values < 256 := by
  unfold rarestByte
  dsimp only
  -- The choice never leaves the numbers it goes through.
  suffices h : ∀ (candidates : List Nat) (best : Nat), best < 256 →
      (∀ v ∈ candidates, v < 256) →
      candidates.foldl (fun best v =>
        if (byteCounts values).getD v 0 < (byteCounts values).getD best 0 then v else best)
        best < 256 by
    exact h _ 0 (by decide) fun v hv => List.mem_range.1 hv
  intro candidates
  induction candidates with
  | nil =>
      intro best hbest _
      exact hbest
  | cons v candidates ih =>
      intro best hbest hall
      rw [List.forall_mem_cons] at hall
      refine ih _ ?_ hall.2
      dsimp only
      split
      · exact hall.1
      · exact hbest

/-! ## Runs -/

/-- The elements of a list of runs. -/
def expandRuns (rs : List (Nat × Nat)) : List Nat := rs.flatMap fun r => List.replicate r.2 r.1

/-- No run is empty, and no run goes on with the value of the one before it. -/
structure Maximal (rs : List (Nat × Nat)) : Prop where
  chain : rs.IsChain fun a b => a.1 ≠ b.1
  pos : ∀ r ∈ rs, 1 ≤ r.2

theorem expandRuns_cons (run : Nat × Nat) (rs : List (Nat × Nat)) :
    expandRuns (run :: rs) = List.replicate run.2 run.1 ++ expandRuns rs := List.flatMap_cons

theorem expandRuns_addToRuns (rs : List (Nat × Nat)) (v : Nat) :
    expandRuns (addToRuns rs v).reverse = expandRuns rs.reverse ++ [v] := by
  unfold addToRuns expandRuns
  split
  · simp
  · next w n rest =>
    split
    · next heq =>
      subst heq
      simp [List.replicate_succ']
    · simp

theorem Maximal.expand_ne_nil {run : Nat × Nat} {rs : List (Nat × Nat)}
    (h : Maximal (run :: rs)) : expandRuns (run :: rs) ≠ [] := by
  have hpos := h.pos run List.mem_cons_self
  intro hnil
  have hlen := congrArg List.length hnil
  rw [expandRuns_cons, List.length_append, List.length_replicate, List.length_nil] at hlen
  omega

theorem Maximal.addToRuns {rs : List (Nat × Nat)} (h : Maximal rs) (v : Nat) :
    Maximal (addToRuns rs v) := by
  obtain ⟨hchain, hpos⟩ := h
  unfold Rle.addToRuns
  split
  · exact ⟨by simp, by simp⟩
  · next w n rest =>
    rw [List.forall_mem_cons] at hpos
    split
    · refine ⟨?_, ?_⟩
      · rw [List.isChain_cons] at hchain ⊢
        exact hchain
      · rw [List.forall_mem_cons]
        exact ⟨Nat.succ_le_succ (Nat.zero_le n), hpos.2⟩
    · next hne =>
      refine ⟨?_, ?_⟩
      · rw [List.isChain_cons_cons]
        exact ⟨fun heq => hne heq.symm, hchain⟩
      · rw [List.forall_mem_cons, List.forall_mem_cons]
        exact ⟨Nat.le_refl 1, hpos⟩

theorem Maximal.of_append {before rs : List (Nat × Nat)} (h : Maximal (before ++ rs)) :
    Maximal rs :=
  ⟨h.chain.right_of_append, fun r hr => h.pos r (List.mem_append_right before hr)⟩

theorem Maximal.tail {run : Nat × Nat} {rs : List (Nat × Nat)} (h : Maximal (run :: rs)) :
    Maximal rs :=
  ⟨h.chain.tail, fun r hr => h.pos r (List.mem_cons_of_mem run hr)⟩

theorem Maximal.reverse {rs : List (Nat × Nat)} (h : Maximal rs) : Maximal rs.reverse := by
  refine ⟨?_, fun r hr => h.pos r (List.mem_reverse.1 hr)⟩
  rw [List.isChain_reverse]
  exact h.chain.imp fun _ _ hne heq => hne heq.symm

/-- The runs of some elements are maximal, and written out they are the elements. -/
theorem runs_spec (values : List Nat) :
    Maximal (runs values) ∧ expandRuns (runs values) = values := by
  suffices h : ∀ rs, Maximal rs → Maximal (values.foldl addToRuns rs) ∧
      expandRuns (values.foldl addToRuns rs).reverse = expandRuns rs.reverse ++ values by
    obtain ⟨hmax, hexp⟩ := h [] ⟨by simp, by simp⟩
    exact ⟨hmax.reverse, by simpa [expandRuns, runs] using hexp⟩
  induction values with
  | nil =>
      intro rs hrs
      exact ⟨hrs, by simp⟩
  | cons v values ih =>
      intro rs hrs
      obtain ⟨hmax, hexp⟩ := ih _ (hrs.addToRuns v)
      refine ⟨hmax, ?_⟩
      rw [List.foldl_cons, hexp, expandRuns_addToRuns, List.append_assoc, List.singleton_append]

theorem maximal_runs (values : List Nat) : Maximal (runs values) := (runs_spec values).1

theorem expand_runs (values : List Nat) : expandRuns (runs values) = values :=
  (runs_spec values).2

theorem mem_of_mem_runs {values : List Nat} {run : Nat × Nat} (h : run ∈ runs values) :
    run.1 ∈ values := by
  have hpos := (maximal_runs values).pos run h
  have hmem : run.1 ∈ expandRuns (runs values) :=
    List.mem_flatMap.2 ⟨run, h, List.mem_replicate.2 ⟨by omega, rfl⟩⟩
  rwa [expand_runs] at hmem

theorem exists_run_of_mem {values : List Nat} {v : Nat} (h : v ∈ values) :
    ∃ run ∈ runs values, run.1 = v := by
  rw [← expand_runs values] at h
  obtain ⟨run, hrun, hv⟩ := List.mem_flatMap.1 h
  exact ⟨run, hrun, (List.eq_of_mem_replicate hv).symm⟩

/-- No run is longer than its value is frequent. -/
theorem length_run_le_count {values : List Nat} {run : Nat × Nat} (h : run ∈ runs values) :
    run.2 ≤ values.count run.1 := by
  rw [← List.replicate_sublist_iff]
  conv_rhs => rw [← expand_runs values]
  exact List.sublist_flatten_of_mem (List.mem_map_of_mem h)

/-! ## Tokens -/

namespace Token

/-- The value of the elements that a token stands for. -/
def value : Token → Nat
  | .element v => v
  | .run v _ => v

/-- The number of elements that a token stands for. -/
def count : Token → Nat
  | .element _ => 1
  | .run _ n => n

/-- The elements that a token stands for. -/
def expand (t : Token) : List Nat := List.replicate t.count t.value

/-- What a decoder that knows the sentinel can have read. -/
structure Readable (p : Rle) (sentinel : Nat) (t : Token) : Prop where
  value_lt : t.value < 2 ^ p.bits
  count_pos : 1 ≤ t.count
  count_le : t.count ≤ 2 ^ p.bits
  element_ne : ∀ v, t = .element v → v ≠ sentinel

end Token

theorem lt_of_mem_expand {p : Rle} {sentinel : Nat} {ts : List Token}
    (hts : ∀ t ∈ ts, t.Readable p sentinel) : ∀ v ∈ ts.flatMap Token.expand, v < 2 ^ p.bits := by
  intro v hv
  obtain ⟨t, ht, hv⟩ := List.mem_flatMap.1 hv
  rw [List.eq_of_mem_replicate hv]
  exact (hts t ht).value_lt

theorem runTokens_of_pos {maxCount left : Nat} (hm : 0 < maxCount) (hl : 0 < left)
    (value : Nat) :
    runTokens maxCount value left =
      .run value (min left maxCount) :: runTokens maxCount value (left - maxCount) := by
  rw [runTokens, dif_pos ⟨hl, hm⟩]

theorem runTokens_zero (maxCount value : Nat) : runTokens maxCount value 0 = [] := by
  rw [runTokens]
  simp

theorem expand_runTokens {maxCount : Nat} (hm : 0 < maxCount) (value left : Nat) :
    (runTokens maxCount value left).flatMap Token.expand = List.replicate left value := by
  induction left using Nat.strongRecOn with
  | ind left ih =>
      by_cases hl : 0 < left
      · rw [runTokens_of_pos hm hl, List.flatMap_cons, ih _ (by omega)]
        show List.replicate (min left maxCount) value ++ _ = _
        rw [← List.replicate_add]
        congr 1
        omega
      · rw [show left = 0 by omega, runTokens_zero]
        rfl

/-- Every token that counts a run counts at least one and at most what it can. -/
theorem mem_runTokens {maxCount value left : Nat} {t : Token}
    (h : t ∈ runTokens maxCount value left) :
    ∃ n, t = .run value n ∧ 1 ≤ n ∧ n ≤ maxCount := by
  induction left using Nat.strongRecOn with
  | ind left ih =>
      by_cases hl : 0 < left ∧ 0 < maxCount
      · rw [runTokens_of_pos hl.2 hl.1, List.mem_cons] at h
        rcases h with rfl | h
        · exact ⟨_, rfl, by omega, by omega⟩
        · exact ih _ (by omega) h
      · rw [runTokens, dif_neg hl] at h
        simp at h

theorem maxCount_pos (p : Rle) : 0 < p.maxCount := by
  unfold maxCount
  split
  · decide
  · exact Nat.two_pow_pos _

theorem maxCount_le (p : Rle) : p.maxCount ≤ 2 ^ p.bits := by
  unfold maxCount bits
  split
  · have hpow : 2 ^ 32 ≤ 2 ^ (p.width * 8) := Nat.pow_le_pow_right (by decide) (by omega)
    omega
  · exact Nat.le_refl _

theorem expand_tokensOfRun (p : Rle) (sentinel : Nat) (run : Nat × Nat) :
    (p.tokensOfRun sentinel run).flatMap Token.expand = List.replicate run.2 run.1 := by
  unfold tokensOfRun
  split
  · exact expand_runTokens p.maxCount_pos _ _
  · generalize run.2 = n
    induction n with
    | zero => rfl
    | succ n ih =>
        rw [List.replicate_succ, List.flatMap_cons, ih, List.replicate_succ]
        rfl

theorem expand_flatMap_tokensOfRun (p : Rle) (sentinel : Nat) (rs : List (Nat × Nat)) :
    (rs.flatMap (p.tokensOfRun sentinel)).flatMap Token.expand = expandRuns rs := by
  unfold expandRuns
  rw [List.flatMap_assoc]
  simp only [expand_tokensOfRun]

/-- The tokens of some elements stand for the elements. -/
theorem expand_tokens (p : Rle) (sentinel : Nat) (values : List Nat) :
    (p.tokens sentinel values).flatMap Token.expand = values := by
  rw [tokens, expand_flatMap_tokensOfRun, expand_runs]

/-- The tokens of a run can be read back under a sentinel unless the run is a short one of
that very value, and then the encoder has to have known it. -/
theorem readable_tokensOfRun {p : Rle} {known sentinel : Nat} {run : Nat × Nat}
    (hv : run.1 < 2 ^ p.bits)
    (hs : run.1 = sentinel → minRun ≤ run.2 ∨ run.1 = known) :
    ∀ t ∈ p.tokensOfRun known run, t.Readable p sentinel := by
  intro t ht
  unfold tokensOfRun at ht
  split at ht
  · obtain ⟨n, rfl, h1, hn⟩ := mem_runTokens ht
    exact ⟨hv, h1, Nat.le_trans hn p.maxCount_le, fun v h => by cases h⟩
  · next hshort =>
    obtain rfl := List.eq_of_mem_replicate ht
    refine ⟨hv, Nat.le_refl 1, Nat.two_pow_pos _, ?_⟩
    rintro v h rfl
    cases h
    exact hshort (hs rfl)

/-- Every token is recognised under a sentinel that occurs only in runs that are counted. -/
theorem readable_tokens {p : Rle} {known sentinel : Nat} {values : List Nat}
    (hv : ∀ v ∈ values, v < 2 ^ p.bits)
    (hs : ∀ run ∈ runs values, run.1 = sentinel → minRun ≤ run.2 ∨ run.1 = known) :
    ∀ t ∈ p.tokens known values, t.Readable p sentinel := by
  intro t ht
  obtain ⟨run, hrun, ht⟩ := List.mem_flatMap.1 ht
  exact readable_tokensOfRun (hv _ (mem_of_mem_runs hrun)) (hs run hrun) t ht

end EmbeddedBuffers.Codec.Rle
