import EmbeddedBuffers.Proofs.Codec.RleStream

/-!
# Decoding with a sentinel of zero

Where every value of an element occurs, the sentinel needs one bit more than an element
has, and the stream keeps zero of it. The decoder then takes the zeros of a short run for
sentinels, and from there on it is some words ahead of the tokens that were written. What
it reads ahead of them stands for fewer elements than were meant, run after run, so it
never catches up: `not_agrees_of_ahead`.
-/

namespace EmbeddedBuffers.Codec.Rle

/-! ## Words -/

/-- The words that a token takes in a stream that has zero for its sentinel. -/
def Token.words : Token → List Nat
  | .element v => [v]
  | .run v n => [0, v, n - 1]

/-- The words of some tokens. -/
def wordsOf (ts : List Token) : List Nat := ts.flatMap Token.words

/-- The elements of some tokens. -/
def expandAll (ts : List Token) : List Nat := ts.flatMap Token.expand

theorem wordsOf_cons (t : Token) (ts : List Token) : wordsOf (t :: ts) = t.words ++ wordsOf ts :=
  List.flatMap_cons

theorem wordsOf_append (ts us : List Token) : wordsOf (ts ++ us) = wordsOf ts ++ wordsOf us :=
  List.flatMap_append

theorem expandAll_append (ts us : List Token) :
    expandAll (ts ++ us) = expandAll ts ++ expandAll us := List.flatMap_append

theorem length_expandAll_cons (t : Token) (ts : List Token) :
    (expandAll (t :: ts)).length = t.count + (expandAll ts).length := by
  rw [expandAll, List.flatMap_cons, List.length_append, Token.expand_length, ← expandAll]

theorem head?_expandAll_cons {t : Token} (ht : 1 ≤ t.count) (ts : List Token) :
    (expandAll (t :: ts)).head? = some t.value := by
  obtain ⟨n, hn⟩ : ∃ n, t.count = n + 1 := ⟨t.count - 1, by omega⟩
  rw [expandAll, List.flatMap_cons, Token.expand, hn, List.replicate_succ]
  rfl

theorem eq_nil_of_no_words {ts : List Token} (h : wordsOf ts <+: []) : ts = [] := by
  cases ts with
  | nil => rfl
  | cons t ts => cases t <;> simp [wordsOf_cons, Token.words] at h

/-- The words of tokens are the bits of the stream, cut at the width of an element. -/
theorem flatMap_bits_eq (p : Rle) (ts : List Token) :
    ts.flatMap (Token.bits p 0) = (wordsOf ts).flatMap (field p.bits) := by
  rw [wordsOf, List.flatMap_assoc]
  congr 1
  funext t
  cases t with
  | element v => simp [Token.bits, Token.words]
  | run v n => simp [Token.bits, Token.words]

theorem words_lt {p : Rle} {sentinel : Nat} {t : Token} (ht : t.Readable p sentinel) :
    ∀ w ∈ t.words, w < 2 ^ p.bits := by
  obtain ⟨hv, -, hc, -⟩ := ht
  cases t with
  | element v =>
      intro w hw
      rw [List.mem_singleton.1 hw]
      exact hv
  | run v n =>
      simp only [Token.value, Token.count] at hv hc
      have hpos := Nat.two_pow_pos p.bits
      intro w hw
      rcases List.mem_cons.1 hw with rfl | hw
      · exact hpos
      · rcases List.mem_cons.1 hw with rfl | hw
        · exact hv
        · rw [List.mem_singleton.1 hw]
          omega

theorem wordsOf_lt {p : Rle} {sentinel : Nat} {ts : List Token}
    (hts : ∀ t ∈ ts, t.Readable p sentinel) : ∀ w ∈ wordsOf ts, w < 2 ^ p.bits := by
  intro w hw
  obtain ⟨t, ht, hw⟩ := List.mem_flatMap.1 hw
  exact words_lt (hts t ht) w hw

/-- Words read off a stream that holds no whole word after its own are among its own. -/
theorem prefix_of_flatMap_field {width : Nat} {xs ys : List Nat} {rest pad : List Bool}
    (hx : ∀ x ∈ xs, x < 2 ^ width) (hy : ∀ y ∈ ys, y < 2 ^ width) (hpad : pad.length < width)
    (h : xs.flatMap (field width) ++ rest = ys.flatMap (field width) ++ pad) : xs <+: ys := by
  induction xs generalizing ys with
  | nil => exact List.nil_prefix
  | cons x xs ih =>
      rw [List.forall_mem_cons] at hx
      cases ys with
      | nil =>
          have hlen := congrArg List.length h
          simp only [List.flatMap_cons, List.flatMap_nil, List.length_append, length_field,
            List.length_nil] at hlen
          omega
      | cons y ys =>
          rw [List.forall_mem_cons] at hy
          rw [List.flatMap_cons, List.flatMap_cons, List.append_assoc, List.append_assoc] at h
          obtain ⟨hhead, htail⟩ := List.append_inj h (by rw [length_field, length_field])
          have hxy : x = y := by
            rw [← bitsValue_field_of_lt hx.1, hhead, bitsValue_field_of_lt hy.1]
          rw [hxy, List.cons_prefix_cons]
          exact ⟨rfl, ih hx.2 hy.2 htail⟩

/-- Tokens as a decoder with a sentinel of zero reads them. -/
def Decoded (ts : List Token) : Prop := ∀ t ∈ ts, 1 ≤ t.count ∧ ∀ v, t = .element v → v ≠ 0

/-- What such a decoder reads from the bits of some tokens are tokens that have words among
theirs. -/
theorem exists_decoded_of_readTokens {p : Rle} {sentinel declared total left position : Nat}
    {ts : List Token} {rest : List Bool} {out out' : Array Nat} {r : BitReader}
    (hp : p.Admissible) (htotal : total < 2 ^ 32) (hts : ∀ t ∈ ts, t.Readable p sentinel)
    (hrest : rest.length < p.bits) (hout : out.size ≤ total)
    (h : readTokens p 0 declared total left out ⟨position, ts.flatMap (Token.bits p 0) ++ rest⟩ =
      .ok (out', r)) :
    ∃ us, Decoded us ∧ (∀ t ∈ us, t.Readable p 0) ∧ wordsOf us <+: wordsOf ts ∧
      out' = out ++ (expandAll us).toArray ∧ out'.size = total := by
  obtain ⟨us, hus, hahead, hout', hfull⟩ := exists_tokens_of_readTokens hp htotal hout h
  refine ⟨us, fun t ht => ⟨(hus t ht).count_pos, (hus t ht).element_ne⟩, hus, ?_, hout', hfull⟩
  rw [flatMap_bits_eq, flatMap_bits_eq] at hahead
  exact prefix_of_flatMap_field (wordsOf_lt hus) (wordsOf_lt hts) hrest hahead.symm

/-! ## What the words of one run stand for -/

theorem Decoded.tail {t : Token} {ts : List Token} (h : Decoded (t :: ts)) : Decoded ts :=
  fun u hu => h u (List.mem_cons_of_mem t hu)

theorem Decoded.head {t : Token} {ts : List Token} (h : Decoded (t :: ts)) :
    1 ≤ t.count ∧ ∀ v, t = .element v → v ≠ 0 := h t List.mem_cons_self

variable {maxCount value left d : Nat} {ts : List Token}

theorem wordsOf_runTokens (hm : 0 < maxCount) (hl : 0 < left) (value : Nat) :
    wordsOf (runTokens maxCount value left) =
      0 :: value :: (min left maxCount - 1) ::
        wordsOf (runTokens maxCount value (left - maxCount)) := by
  rw [runTokens_of_pos hm hl, wordsOf_cons]
  rfl

/-- What the decoder makes of a word: nothing yet, an element, or the start of a run. -/
theorem Decoded.first {w : Nat} {ws : List Nat} (hts : Decoded ts) (h : wordsOf ts <+: w :: ws) :
    ts = [] ∨
      (w ≠ 0 ∧ ∃ us, ts = .element w :: us ∧ Decoded us ∧ wordsOf us <+: ws) ∨
      (w = 0 ∧ ∃ v n us rest, ts = .run v n :: us ∧ Decoded us ∧ 1 ≤ n ∧
        ws = v :: (n - 1) :: rest ∧ wordsOf us <+: rest) := by
  cases ts with
  | nil => exact Or.inl rfl
  | cons t us =>
      right
      rw [wordsOf_cons] at h
      cases t with
      | element v =>
          obtain ⟨rfl, hrest⟩ := List.cons_prefix_cons.1 h
          exact Or.inl ⟨hts.head.2 v rfl, us, rfl, hts.tail, hrest⟩
      | run v n =>
          obtain ⟨rfl, later, hlater⟩ := List.cons_prefix_cons.1 h
          refine Or.inr ⟨rfl, v, n, us, wordsOf us ++ later, rfl, hts.tail, hts.head.1, ?_, ?_⟩
          · rw [← hlater]
            simp
          · exact List.prefix_append _ _

/-- Words without a zero stand for one element each, whatever single word follows them. -/
theorem length_expandAll_le_of_nonzero {ws tail : List Nat} (hts : Decoded ts)
    (h0 : 0 ∉ ws) (htail : tail.length ≤ 1) (h : wordsOf ts <+: ws ++ tail) :
    (expandAll ts).length ≤ ws.length + tail.length := by
  induction ws generalizing ts with
  | nil =>
      cases tail with
      | nil =>
          rw [eq_nil_of_no_words h]
          exact Nat.zero_le _
      | cons w tail =>
          rw [List.length_cons] at htail
          obtain rfl : tail = [] := List.eq_nil_of_length_eq_zero (by omega)
          rcases hts.first h with rfl | ⟨-, us, rfl, -, hus⟩ | ⟨-, v, n, us, rest, -, -, -, hws, -⟩
          · exact Nat.zero_le _
          · rw [eq_nil_of_no_words hus, length_expandAll_cons]
            exact Nat.le_refl 1
          · cases hws
  | cons w ws ih =>
      rw [List.mem_cons, not_or] at h0
      rcases hts.first h with rfl | ⟨-, us, rfl, hdec, hus⟩ | ⟨h0w, -⟩
      · exact Nat.zero_le _
      · have hrest := ih hdec h0.2 hus
        rw [length_expandAll_cons, List.length_cons]
        simp only [Token.count]
        omega
      · exact absurd h0w.symm h0.1

/-- In step with the tokens of a run, no more is read than was meant. -/
theorem length_expandAll_le_of_in_step (hm : 0 < maxCount) (hts : Decoded ts)
    (h : wordsOf ts <+: wordsOf (runTokens maxCount value left)) :
    (expandAll ts).length ≤ left := by
  induction left using Nat.strongRecOn generalizing ts with
  | ind left ih =>
      by_cases hl : 0 < left
      · rw [wordsOf_runTokens hm hl] at h
        rcases hts.first h with rfl | ⟨h0, -⟩ | ⟨-, v, n, us, rest, rfl, hdec, hn, hws, hus⟩
        · exact Nat.zero_le _
        · exact absurd rfl h0
        · simp only [List.cons.injEq] at hws
          obtain ⟨-, hcount, rfl⟩ := hws
          have hrest := ih (left - maxCount) (by omega) hdec hus
          rw [length_expandAll_cons]
          simp only [Token.count]
          omega
      · rw [show left = 0 by omega, runTokens_zero] at h
        rw [eq_nil_of_no_words h]
        exact Nat.zero_le _

/-- Ahead of the tokens of a run, the decoder gets two elements at most out of the one in
which it is. -/
theorem length_expandAll_le_of_ahead (hm : 4 ≤ maxCount) (hts : Decoded ts) (hd : 1 ≤ d)
    (hhead : ∀ x ∈ (expandAll ts).head?, x = value)
    (h : wordsOf ts <+: (wordsOf (runTokens maxCount value left)).drop d) :
    (expandAll ts).length ≤ left - min left maxCount + 2 := by
  induction left using Nat.strongRecOn generalizing ts d with
  | ind left ih =>
      by_cases hl : 0 < left
      · rw [wordsOf_runTokens (by omega) hl] at h
        have hlast : left < 4 → runTokens maxCount value (left - maxCount) = [] := by
          intro hlt
          rw [show left - maxCount = 0 by omega, runTokens_zero]
        -- What the count of the token is taken for.
        have hcounted : ∀ us : List Token, Decoded us →
            wordsOf us <+: (min left maxCount - 1) ::
              wordsOf (runTokens maxCount value (left - maxCount)) →
            (expandAll us).length ≤ left - min left maxCount + 1 := by
          intro us hdec hus
          rcases hdec.first hus with rfl | ⟨-, vs, rfl, hdec, hvs⟩ |
            ⟨h0, v, n, vs, rest, -, -, -, hws, -⟩
          · exact Nat.zero_le _
          · have hrest := length_expandAll_le_of_in_step (by omega) hdec hvs
            rw [length_expandAll_cons]
            simp only [Token.count]
            omega
          · rw [hlast (by omega)] at hws
            cases hws
        obtain rfl | rfl | rfl | ⟨d, rfl⟩ : d = 1 ∨ d = 2 ∨ d = 3 ∨ ∃ e, d = e + 4 := by
          by_cases hfour : 4 ≤ d
          · exact .inr (.inr (.inr ⟨d - 4, by omega⟩))
          · omega
        · rcases hts.first h with rfl | ⟨-, us, rfl, hdec, hus⟩ |
            ⟨h0, v, n, us, rest, rfl, -, hn, hws, -⟩
          · exact Nat.zero_le _
          · have hrest := hcounted us hdec hus
            rw [length_expandAll_cons]
            simp only [Token.count]
            omega
          · -- A run of the count, which is not what this run repeats.
            exfalso
            have hv := hhead v (head?_expandAll_cons (show 1 ≤ (Token.run v n).count from hn) us)
            simp only [List.cons.injEq] at hws
            by_cases hlt : left < 4
            · rw [hlast hlt] at hws
              cases hws.2
            · omega
        · exact Nat.le_succ_of_le (hcounted ts hts h)
        · have hrest := length_expandAll_le_of_in_step (by omega) hts h
          omega
        · have hrest := ih (left - maxCount) (by omega) hts (Nat.succ_pos d) hhead h
          omega
      · rw [show left = 0 by omega, runTokens_zero] at h
        rw [List.drop_of_length_le (Nat.zero_le d)] at h
        rw [eq_nil_of_no_words h]
        exact Nat.zero_le _

/-! ## Run after run -/

/-- What can pass for the elements of some data: the same ones, but where the last one was
filled up, something other than zero may stand for it. -/
inductive Passes : List Nat → List Nat → Prop
  | nil : Passes [] []
  | last {u : Nat} (w : Nat) : u ≠ 0 → Passes [u] [w]
  | cons (x : Nat) {xs ys : List Nat} : Passes xs ys → Passes (x :: xs) (x :: ys)

theorem Passes.length_eq {xs ys : List Nat} (h : Passes xs ys) : xs.length = ys.length := by
  induction h with
  | nil => rfl
  | last => rfl
  | cons x _ ih => rw [List.length_cons, List.length_cons, ih]

/-- Before the last element nothing differs. -/
theorem Passes.of_append {zs xs ys : List Nat} (h : Passes xs (zs ++ ys)) (hy : ys ≠ []) :
    ∃ us, xs = zs ++ us ∧ Passes us ys := by
  induction zs generalizing xs with
  | nil => exact ⟨xs, rfl, h⟩
  | cons z zs ih =>
      rw [List.cons_append] at h
      generalize hw : zs ++ ys = ws at h
      cases h with
      | last w hu =>
          exact absurd (List.append_eq_nil_iff.1 hw).2 hy
      | cons _ hrest =>
          subst hw
          obtain ⟨us, rfl, hus⟩ := ih hrest
          exact ⟨us, rfl, hus⟩

/-- Tokens that stand for a run and more fall apart into those of the run and the rest. -/
theorem exists_append_of_expandAll {n : Nat} {rest : List Nat} (hts : Decoded ts)
    (h : expandAll ts = List.replicate n value ++ rest) (hrest : ∀ x ∈ rest.head?, x ≠ value) :
    ∃ before after, ts = before ++ after ∧ expandAll before = List.replicate n value ∧
      expandAll after = rest := by
  induction ts generalizing n with
  | nil =>
      obtain ⟨hn, hr⟩ := List.append_eq_nil_iff.1 h.symm
      exact ⟨[], [], rfl, hn.symm, hr.symm⟩
  | cons t ts ih =>
      by_cases hn : n = 0
      · subst hn
        exact ⟨[], t :: ts, rfl, rfl, h⟩
      · have hpos := hts.head.1
        have hvalue : t.value = value := by
          have hhead := head?_expandAll_cons hpos ts
          rw [h, List.head?_append, List.head?_replicate, if_neg hn] at hhead
          exact (Option.some.inj hhead).symm
        have hsplit : expandAll (t :: ts) = List.replicate t.count value ++ expandAll ts := by
          rw [← hvalue]
          rfl
        rw [hsplit] at h
        by_cases hle : t.count ≤ n
        · rw [show n = t.count + (n - t.count) by omega, ← List.replicate_append_replicate,
            List.append_assoc, List.append_cancel_left_eq] at h
          obtain ⟨before, after, rfl, hbefore, hafter⟩ := ih hts.tail h
          refine ⟨t :: before, after, rfl, ?_, hafter⟩
          show t.expand ++ expandAll before = _
          rw [hbefore, Token.expand, hvalue, List.replicate_append_replicate,
            show t.count + (n - t.count) = n by omega]
        · -- The token would go on into a run of another value.
          exfalso
          rw [show t.count = n + (t.count - n) by omega, ← List.replicate_append_replicate,
            List.append_assoc, List.append_cancel_left_eq] at h
          have hmore : t.count - n ≠ 0 := by omega
          refine hrest value ?_ rfl
          rw [← h, List.head?_append, List.head?_replicate, if_neg hmore]
          rfl

variable {p : Rle} {known : Nat}

/-- The words of a run that the encoder does not take for its sentinel. -/
theorem wordsOf_tokensOfRun {n : Nat} (hv : value ≠ known) :
    wordsOf (p.tokensOfRun known (value, n)) =
      if minRun ≤ n then wordsOf (runTokens p.maxCount value n) else List.replicate n value := by
  unfold tokensOfRun
  by_cases hn : minRun ≤ n
  · rw [if_pos (Or.inl hn), if_pos hn]
  · rw [if_neg (by simp [hn, hv]), if_neg hn]
    induction n with
    | zero => rfl
    | succ n ih =>
        rw [List.replicate_succ, wordsOf_cons, List.replicate_succ]
        show value :: _ = _
        congr 1
        refine ih ?_
        omega

/-- **Too little in a run.** Ahead of the tokens of a run, or at a short run of zeros, the
decoder gets fewer elements out of the words of the run than the run has. -/
theorem length_expandAll_lt {n : Nat} (hm : 4 ≤ p.maxCount) (hv : value ≠ known) (hn : 1 ≤ n)
    (hts : Decoded ts) (hd : 1 ≤ d ∨ (value = 0 ∧ n < minRun))
    (hhead : minRun ≤ n → ∀ x ∈ (expandAll ts).head?, x = value)
    (h : wordsOf ts <+: (wordsOf (p.tokensOfRun known (value, n))).drop d) :
    (expandAll ts).length < n := by
  rw [wordsOf_tokensOfRun hv] at h
  unfold minRun at hd hhead h
  by_cases hlong : 4 ≤ n
  · rw [if_pos hlong] at h
    have hle := length_expandAll_le_of_ahead hm hts (by omega) (hhead hlong) h
    omega
  · rw [if_neg hlong, List.drop_replicate] at h
    by_cases h0 : value = 0
    · subst h0
      cases hleft : n - d with
      | zero =>
          rw [hleft] at h
          rw [eq_nil_of_no_words h]
          exact hn
      | succ m =>
          rw [hleft] at h
          rcases hts.first h with rfl | ⟨h0, -⟩ | ⟨-, v, k, us, rest, rfl, hdec, hk, hws, hus⟩
          · exact hn
          · exact absurd rfl h0
          · -- Three zeros are a run of one zero.
            have hlen := congrArg List.length hws
            simp only [List.length_replicate, List.length_cons] at hlen
            have hrest : rest = [] := List.eq_nil_of_length_eq_zero (by omega)
            subst hrest
            have hk0 : k - 1 ∈ List.replicate m 0 := by
              rw [hws]
              simp
            have hcount := List.eq_of_mem_replicate hk0
            rw [length_expandAll_cons, eq_nil_of_no_words hus]
            simp only [Token.count, expandAll, List.flatMap_nil, List.length_nil] at hlen ⊢
            omega
    · rw [← List.append_nil (List.replicate (n - d) value)] at h
      have hle := length_expandAll_le_of_nonzero hts
        (fun hmem => h0 (List.eq_of_mem_replicate hmem).symm) (show ([] : List Nat).length ≤ 1 from Nat.zero_le 1) h
      rw [List.length_replicate, List.length_nil] at hle
      omega

theorem wordsOf_runTokens_concat (hm : 0 < maxCount) (hl : 0 < left) (value : Nat) :
    ∃ ws n, wordsOf (runTokens maxCount value left) = ws ++ [value, n] := by
  induction left using Nat.strongRecOn with
  | ind left ih =>
      rw [wordsOf_runTokens hm hl]
      by_cases hmore : 0 < left - maxCount
      · obtain ⟨ws, n, heq⟩ := ih (left - maxCount) (by omega) hmore
        rw [heq]
        exact ⟨0 :: value :: (min left maxCount - 1) :: ws, n, rfl⟩
      · rw [show left - maxCount = 0 by omega, runTokens_zero]
        exact ⟨[0], _, rfl⟩

/-- Ahead of a run, the one word after it does not help to get one element more than the run
has. -/
theorem expandAll_ne_of_ahead {n w : Nat} (hm : 4 ≤ p.maxCount) (hv : value ≠ known)
    (hn : 1 ≤ n) (h0 : value ≠ 0) (hw : w ≠ value) (hts : Decoded ts) (hd : 1 ≤ d)
    (h : wordsOf ts <+: (wordsOf (p.tokensOfRun known (value, n)) ++ [w]).drop d) :
    expandAll ts ≠ List.replicate (n + 1) value := by
  intro heq
  have hlen := congrArg List.length heq
  rw [List.length_replicate] at hlen
  rw [List.drop_append] at h
  by_cases hlong : minRun ≤ n
  · by_cases hpast : (wordsOf (p.tokensOfRun known (value, n))).length < d
    · rw [List.drop_of_length_le (by omega), List.drop_of_length_le (by simp; omega)] at h
      rw [eq_nil_of_no_words h] at hlen
      cases hlen
    rw [show d - (wordsOf (p.tokensOfRun known (value, n))).length = 0 by omega, List.drop_zero,
      List.prefix_concat_iff] at h
    rcases h with h | h
    · rcases List.eq_nil_or_concat ts with rfl | ⟨us, t, rfl⟩
      · cases hlen
      rw [List.concat_eq_append] at h heq hts
      have ht : t.value = value := by
        have hpos := (hts t (by simp)).1
        refine List.eq_of_mem_replicate (n := n + 1) ?_
        rw [← heq, expandAll_append]
        refine List.mem_append_right _ (List.mem_flatMap.2 ⟨t, by simp, ?_⟩)
        exact List.mem_replicate.2 ⟨by omega, rfl⟩
      rw [wordsOf_append] at h
      cases t with
      | element v =>
          have hvw := (List.append_inj' h rfl).2
          simp only [wordsOf, List.flatMap_cons, Token.words, List.flatMap_nil, List.append_nil,
            List.cons.injEq, and_true] at hvw
          exact hw (hvw ▸ ht)
      | run v k =>
          -- The words of the run would end with a zero and a count, but end with its value.
          have hend : wordsOf us ++ [0, v] = (wordsOf (p.tokensOfRun known (value, n))).drop d := by
            rw [show wordsOf [.run v k] = [0, v] ++ [k - 1] from rfl, ← List.append_assoc] at h
            exact (List.append_inj' h rfl).1
          obtain ⟨ws, c, hws⟩ := wordsOf_runTokens_concat p.maxCount_pos hn value
          rw [wordsOf_tokensOfRun hv, if_pos hlong] at hend
          have hall := List.take_append_drop d (wordsOf (runTokens p.maxCount value n))
          rw [← hend, ← List.append_assoc, hws] at hall
          have hzero := (List.append_inj' hall rfl).2
          simp only [List.cons.injEq] at hzero
          exact h0 hzero.1.symm
    · have hlt := length_expandAll_lt hm hv hn hts (Or.inl hd) (by
        intro _ x hx
        rw [heq, List.replicate_succ] at hx
        exact (Option.some.inj hx).symm) h
      omega
  · rw [wordsOf_tokensOfRun hv, if_neg hlong, List.drop_replicate] at h
    have hle := length_expandAll_le_of_nonzero hts
      (fun hmem => h0 (List.eq_of_mem_replicate hmem).symm) (by simp) h
    rw [List.length_drop, List.length_replicate, List.length_replicate, List.length_singleton]
      at hle
    omega

theorem prefix_or_ahead {α : Type} {xs ys as bs : List α} (h : xs ++ ys <+: (as ++ bs).drop d) :
    xs <+: as.drop d ∨ ∃ e, 1 ≤ e ∧ ys <+: bs.drop e := by
  rw [List.drop_append] at h
  by_cases hle : xs.length ≤ (as.drop d).length
  · left
    exact List.prefix_of_prefix_length_le ((List.prefix_append xs ys).trans h)
      (List.prefix_append _ _) hle
  · right
    obtain ⟨rest, hrest⟩ := h
    refine ⟨d - as.length + (xs.length - (as.drop d).length), by omega, rest, ?_⟩
    have hdrop := congrArg (List.drop xs.length) hrest
    rwa [List.append_assoc, List.drop_left, List.drop_append, List.drop_of_length_le (by omega),
      List.nil_append, List.drop_drop] at hdrop

/-- A run passes for a longer one only where a single element is left, the last one. -/
theorem Passes.eq_of_head {us : List Nat} {w k : Nat} {rest : List (Nat × Nat)}
    (h : Passes us (expandRuns ((w, k) :: rest))) (hmax : Maximal ((w, k) :: rest))
    (hv : value ≠ w) (hhead : us.head? = some value) :
    value ≠ 0 ∧ us = [value] ∧ k = 1 ∧ rest = [] := by
  have hk := hmax.pos _ List.mem_cons_self
  rw [expandRuns_cons, show k = (k - 1) + 1 by omega, List.replicate_succ, List.cons_append] at h
  generalize htail : List.replicate (k - 1) w ++ expandRuns rest = tail at h
  cases h with
  | last _ hu =>
      obtain rfl := Option.some.inj hhead
      obtain ⟨hnone, hempty⟩ := List.append_eq_nil_iff.1 htail
      rw [List.replicate_eq_nil_iff] at hnone
      refine ⟨hu, rfl, by omega, ?_⟩
      cases rest with
      | nil => rfl
      | cons run rest => exact absurd hempty hmax.tail.expand_ne_nil
  | cons _ _ => exact absurd (Option.some.inj hhead).symm hv

/-- **The decoder never catches up.** Ahead of the tokens of some runs, or at a short run of
zeros, it does not get the elements of the runs out of their words. -/
theorem not_passes_of_ahead (hm : 4 ≤ p.maxCount) {rs : List (Nat × Nat)} (hmax : Maximal rs)
    (hknown : ∀ r ∈ rs, r.1 ≠ known) (hne : rs ≠ []) (hts : Decoded ts)
    (hd : 1 ≤ d ∨ ∀ r ∈ rs.head?, r.1 = 0 ∧ r.2 < minRun)
    (h : wordsOf ts <+: (wordsOf (rs.flatMap (p.tokensOfRun known))).drop d) :
    ¬ Passes (expandAll ts) (expandRuns rs) := by
  induction rs generalizing d ts with
  | nil => exact absurd rfl hne
  | cons run rest ih =>
      obtain ⟨v, n⟩ := run
      intro hpass
      rw [List.forall_mem_cons] at hknown
      have hn := hmax.pos _ List.mem_cons_self
      have hd' : 1 ≤ d ∨ (v = 0 ∧ n < minRun) := hd.imp_right fun hhead => hhead _ rfl
      rw [List.flatMap_cons, wordsOf_append] at h
      rw [expandRuns_cons] at hpass
      cases rest with
      | nil =>
          simp only [expandRuns, List.flatMap_nil, List.append_nil] at hpass
          simp only [List.flatMap_nil, wordsOf, List.append_nil] at h
          have hlen := hpass.length_eq
          rw [List.length_replicate] at hlen
          refine absurd hlen (Nat.ne_of_lt (length_expandAll_lt hm hknown.1 hn hts hd' ?_ h))
          intro hlong x hx
          unfold minRun at hlong
          rw [show n = (n - 1) + 1 by omega, List.replicate_succ, ← List.singleton_append] at hpass
          obtain ⟨us, hus, -⟩ := hpass.of_append (by simp; omega)
          rw [hus] at hx
          exact (Option.some.inj hx).symm
      | cons next rest =>
          obtain ⟨w, k⟩ := next
          have hvw : v ≠ w := (List.isChain_cons_cons.1 hmax.chain).1
          obtain ⟨us, hus, hrest⟩ := hpass.of_append hmax.tail.expand_ne_nil
          by_cases hhead : us.head? = some v
          · -- Only as the last element can the value go on, and then in place of one word.
            obtain ⟨hv0, rfl, rfl, rfl⟩ := hrest.eq_of_head hmax.tail hvw hhead
            have hw : w ≠ known := hknown.2 (w, 1) (List.mem_singleton_self _)
            rw [List.flatMap_singleton, wordsOf_tokensOfRun hw, if_neg (by decide)] at h
            have hd1 : 1 ≤ d := hd'.resolve_right fun hz => hv0 hz.1
            refine expandAll_ne_of_ahead hm hknown.1 hn hv0 hvw.symm hts hd1 h ?_
            rw [hus, List.replicate_succ']
          · obtain ⟨before, after, rfl, hbefore, hafter⟩ :=
              exists_append_of_expandAll hts hus (by
                rintro x hx rfl
                exact hhead hx)
            have hdec : Decoded before ∧ Decoded after :=
              ⟨fun t ht => hts t (List.mem_append_left _ ht),
                fun t ht => hts t (List.mem_append_right _ ht)⟩
            rw [wordsOf_append] at h
            rcases prefix_or_ahead h with hin | ⟨e, he, hahead⟩
            · have hlt := length_expandAll_lt hm hknown.1 hn hdec.1 hd' (by
                intro _ x hx
                rw [hbefore] at hx
                exact List.eq_of_mem_replicate (List.mem_of_mem_head? hx)) hin
              rw [hbefore, List.length_replicate] at hlt
              exact absurd hlt (Nat.lt_irrefl n)
            · refine ih hmax.tail hknown.2 (by simp) hdec.2 (Or.inl he) hahead ?_
              rw [hafter]
              exact hrest

end EmbeddedBuffers.Codec.Rle
