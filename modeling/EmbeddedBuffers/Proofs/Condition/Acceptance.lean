import EmbeddedBuffers.Proofs.Condition.Parsing
import EmbeddedBuffers.Proofs.Condition.Tokens

/-!
# Accepted conditions

A text is accepted exactly if it reads as a formula, and it then gives the tree of the formula.
The grammar is unambiguous: the lexemes of a formula settle its tree, and the integers written in
them settle its literals. Main statements: `parse_eq_ok` and `Reads.unique`.
-/

namespace EmbeddedBuffers.Condition

variable {s : List Char} {c : Condition} {f g : Formula} {nt : Nonterminal} {ls ms : List Lexeme}

/-! ## Acceptance -/

theorem parse?_eq_ok : parse? s = .ok c ↔
    ∃ ts, tokens s = .ok ts ∧ read .or ts = .ok (c, []) := by
  constructor
  · intro h
    unfold parse? at h
    split at h
    · cases h
    · cases h
    · next ts hne hts =>
      split at h
      · cases h
      · next a h' hread =>
        cases h
        exact ⟨ts, hts, by rw [read, hread]; rfl⟩
      · cases h
  · rintro ⟨ts, hts, hread⟩
    have hne : ts ≠ [] := by
      rintro rfl
      exact absurd (length_lt_of_read hread) (by simp)
    cases hor : parseOr ts with
    | error e =>
        rw [read, hor] at hread
        cases hread
    | ok r =>
        rw [read, hor] at hread
        obtain ⟨r, hr⟩ := r
        cases hread
        unfold parse?
        rw [hts]
        split
        · next heq => cases heq
        · next heq =>
          cases heq
          exact absurd rfl hne
        · next heq =>
          cases heq
          rw [hor]

/-- What reads as a formula is read to its end. -/
theorem read_of_derives (h : Derives .or ls f) :
    read .or (ls.map Lexeme.token) = .ok (f.condition, []) := by
  have hread := complete_of_derives h [] (fun t ht => nomatch ht)
  rw [List.append_nil] at hread
  exact hread.trans (Junction.or.continued_other fun t ht => nomatch ht)

theorem parse?_iff_reads : parse? s = .ok c ↔ ∃ f, Reads s f ∧ f.condition = c := by
  rw [parse?_eq_ok]
  constructor
  · rintro ⟨ts, hts, hread⟩
    obtain ⟨ls, hls, rfl⟩ := exists_splits_of_tokens hts
    obtain ⟨used, after, f, rfl, hafter, hf, hc⟩ := sound_read .or ls c [] hread
    have hnil : after = [] := List.map_eq_nil_iff.1 hafter.symm
    rw [hnil, List.append_nil] at hls
    exact ⟨f, ⟨used, hls, hf⟩, hc⟩
  · rintro ⟨f, ⟨ls, hls, hf⟩, rfl⟩
    exact ⟨ls.map Lexeme.token, tokens_of_splits hls (framed_of_derives hf).apart,
      read_of_derives hf⟩

/-- **The accepted texts are those that read as a formula.** -/
theorem parse_eq_ok {text : String} : parse text = .ok c ↔
    ∃ f, Reads text.toList f ∧ f.condition = c := by
  rw [parse, mapError_eq_ok, parse?_iff_reads]

/-! ## Unambiguity -/

/-- The literals of a formula, in order. -/
def Formula.literals : Formula → List Int
  | .literal z => [z]
  | .reference _ | .isDefined _ => []
  | .not f => f.literals
  | .compare _ f g | .and f g | .or f g => f.literals ++ g.literals

/-- The integers that are written in lexemes, each with its sign. -/
def signedNumbers : List Lexeme → List Int
  | .minus :: .number n :: rest => -n :: signedNumbers rest
  | .number n :: rest => n :: signedNumbers rest
  | _ :: rest => signedNumbers rest
  | [] => []

theorem signedNumbers_append (h : Derives nt ls f) (rest : List Lexeme) :
    signedNumbers (ls ++ rest) = f.literals ++ signedNumbers rest := by
  induction h generalizing rest with
  | orOne h ih | andOne h ih | compareOne h ih | operand h ih => exact ih rest
  | orMore hf hg ihf ihg | andMore hf hg ihf ihg | compareTwo op hf hg ihf ihg =>
      rw [List.append_assoc, ihf, List.cons_append, signedNumbers, ihg, Formula.literals,
        List.append_assoc] <;> simp
  | not h ih => exact ih rest
  | parens h ih =>
      rw [List.append_assoc, List.cons_append, signedNumbers, ih]
      · rfl
      all_goals simp
  | _ => rfl

/-- A formula is known by its tree and by its literals. -/
theorem eq_of_condition {xs ys : List Int} (hc : f.condition = g.condition)
    (hl : f.literals ++ xs = g.literals ++ ys) : f = g ∧ xs = ys := by
  induction f generalizing g xs ys with
  | literal z =>
      cases g with
      | literal z' => simpa [Formula.literals] using hl
      | _ => cases hc
  | reference name =>
      cases g with
      | reference name' =>
          cases hc
          exact ⟨rfl, hl⟩
      | _ => cases hc
  | isDefined name =>
      cases g with
      | isDefined name' =>
          cases hc
          exact ⟨rfl, hl⟩
      | _ => cases hc
  | not f ih =>
      cases g with
      | not g =>
          simp only [Formula.condition, Condition.not.injEq] at hc
          obtain ⟨rfl, hrest⟩ := ih hc hl
          exact ⟨rfl, hrest⟩
      | _ => cases hc
  | compare op f₁ f₂ ih₁ ih₂ =>
      cases g with
      | compare op' g₁ g₂ =>
          simp only [Formula.condition, Condition.compare.injEq] at hc
          obtain ⟨rfl, hc₁, hc₂⟩ := hc
          simp only [Formula.literals, List.append_assoc] at hl
          obtain ⟨rfl, hsecond⟩ := ih₁ hc₁ hl
          obtain ⟨rfl, hrest⟩ := ih₂ hc₂ hsecond
          exact ⟨rfl, hrest⟩
      | _ => cases hc
  | and f₁ f₂ ih₁ ih₂ =>
      cases g with
      | and g₁ g₂ =>
          simp only [Formula.condition, Condition.and.injEq] at hc
          simp only [Formula.literals, List.append_assoc] at hl
          obtain ⟨rfl, hsecond⟩ := ih₁ hc.1 hl
          obtain ⟨rfl, hrest⟩ := ih₂ hc.2 hsecond
          exact ⟨rfl, hrest⟩
      | _ => cases hc
  | or f₁ f₂ ih₁ ih₂ =>
      cases g with
      | or g₁ g₂ =>
          simp only [Formula.condition, Condition.or.injEq] at hc
          simp only [Formula.literals, List.append_assoc] at hl
          obtain ⟨rfl, hsecond⟩ := ih₁ hc.1 hl
          obtain ⟨rfl, hrest⟩ := ih₂ hc.2 hsecond
          exact ⟨rfl, hrest⟩
      | _ => cases hc

/-- Lexemes derive one formula at most. -/
theorem Derives.unique (hf : Derives .or ls f) (hg : Derives .or ls g) : f = g := by
  have hread := (read_of_derives hf).symm.trans (read_of_derives hg)
  have hc : f.condition = g.condition := by
    simp only [Except.ok.injEq, Prod.mk.injEq] at hread
    exact hread.1
  -- one reader for both derivations makes their trees equal, but a tree knows its integers only
  -- up to 2 ^ 64
  have hl := (signedNumbers_append hf []).symm.trans (signedNumbers_append hg [])
  exact (eq_of_condition hc hl).1

/-- The numbers that a text spells are below 2 ^ 64. -/
theorem Splits.lt (h : Splits s ls) : ∀ n, .number n ∈ ls → n < 2 ^ 64 := by
  induction h with
  | done => simp
  | lexeme hblanks hs hend hrest ih =>
      intro n hn
      rcases List.mem_cons.1 hn with rfl | hn
      · obtain ⟨-, -, -, -, -, -, -, -, -, hlt⟩ := hs
        exact hlt
      · exact ih n hn

/-- The lexemes with numbers below 2 ^ 64 are told apart by their tokens. -/
theorem Lexeme.eq_of_token_of_lt {l m : Lexeme} (hl : ∀ n, .number n = l → n < 2 ^ 64)
    (hm : ∀ n, .number n = m → n < 2 ^ 64) (h : l.token = m.token) : l = m := by
  by_cases hnumber : ∃ n, m = .number n
  · obtain ⟨n, rfl⟩ := hnumber
    cases l with
    | number n' =>
        have hword : Int64.ofNat n' = Int64.ofNat n := by simpa [Lexeme.token] using h
        have hbits := congrArg (fun x : Int64 => x.toBitVec.toNat) hword
        have hlt' := hl n' rfl
        have hlt := hm n rfl
        simp only [Int64.toBitVec_ofNat', BitVec.toNat_ofNat] at hbits
        rw [Nat.mod_eq_of_lt hlt', Nat.mod_eq_of_lt hlt] at hbits
        rw [hbits]
    | _ => cases h
  · exact Lexeme.eq_of_token h fun n hn => hnumber ⟨n, hn⟩

theorem eq_of_map_token (hls : ∀ n, .number n ∈ ls → n < 2 ^ 64)
    (hms : ∀ n, .number n ∈ ms → n < 2 ^ 64) (h : ls.map Lexeme.token = ms.map Lexeme.token) :
    ls = ms := by
  induction ls generalizing ms with
  | nil => exact (List.map_eq_nil_iff.1 h.symm).symm
  | cons l ls ih =>
      obtain ⟨m, tail, rfl, hm, htail⟩ := List.map_eq_cons_iff.1 h.symm
      rw [Lexeme.eq_of_token_of_lt (fun n hn => hls n (by simp [hn]))
          (fun n hn => hms n (by simp [hn])) hm.symm,
        ih (fun n hn => hls n (List.mem_cons_of_mem _ hn))
          (fun n hn => hms n (List.mem_cons_of_mem _ hn)) htail.symm]

/-- **A text reads as one formula at most.** -/
theorem Reads.unique (hf : Reads s f) (hg : Reads s g) : f = g := by
  obtain ⟨ls, hls, hf⟩ := hf
  obtain ⟨ms, hms, hg⟩ := hg
  have htokens := (tokens_of_splits hls (framed_of_derives hf).apart).symm.trans
    (tokens_of_splits hms (framed_of_derives hg).apart)
  rw [Except.ok.injEq] at htokens
  have hsame := eq_of_map_token hls.lt hms.lt htokens
  subst hsame
  exact hf.unique hg

end EmbeddedBuffers.Condition
