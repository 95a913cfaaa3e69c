import EmbeddedBuffers.Declaration.Basic
import EmbeddedBuffers.Proofs.Results
import EmbeddedBuffers.Proofs.Source.Locality
import EmbeddedBuffers.Proofs.Source.Trees

/-!
# Characters beyond ASCII in arguments

Cutting the arguments of a declaration breaks off at a character beyond ASCII, unless it is within a
literal or a bracket before it has no partner. Where the cutting goes through, no list in an
argument breaks it off either. Main statements: `Argument.cut_eq_crash_iff` and
`Declaration.read_eq_crash_iff`.
-/

namespace EmbeddedBuffers

namespace Argument

/-! ## Outside literals -/

/-- The characters of a text outside literals; `inWord` tells whether the character before belongs
to a word, inside which no literal starts. -/
def bare (inWord : Bool) (s : List Char) : List Char :=
  match s with
  | [] => []
  | c :: rest =>
    match _h : if inWord then none else Literal.split? (c :: rest) with
    | some (_, after) => bare false after
    | none => c :: bare (Text.isNameChar c) rest
termination_by s.length
decreasing_by
  · split at _h
    · cases _h
    · exact Literal.length_lt_of_split? _h
  · simp

/-- The open brackets, innermost first, after another character, unless it is a bracket without a
partner. -/
def pairOne (opened : List Char) (c : Char) : Option (List Char) :=
  if (partner? c).isSome then some (c :: opened)
  else if isClosing c then
    match opened with
    | [] => none
    | o :: opened => if partner? o = some c then some opened else none
  else some opened

/-- The open brackets behind a text. -/
def pair (opened s : List Char) : Option (List Char) := s.foldlM pairOne opened

/-- A character beyond ASCII stands outside literals, and the brackets before it are paired. -/
def Stray (opened : List Char) (inWord : Bool) (s : List Char) : Prop :=
  ∃ before c after, bare inWord s = before ++ c :: after ∧ 128 ≤ c.toNat ∧
    (pair opened before).isSome

variable {opened s : List Char} {inWord : Bool} {c : Char} {rest : List Char}

theorem bare_literal {literal after : List Char}
    (h : (if inWord then none else Literal.split? (c :: rest)) = some (literal, after)) :
    bare inWord (c :: rest) = bare false after := by
  rw [bare.eq_def]
  dsimp only
  split
  · next heq =>
    cases heq.symm.trans h
    rfl
  · next heq => cases heq.symm.trans h

theorem bare_cons (h : (if inWord then none else Literal.split? (c :: rest)) = none) :
    bare inWord (c :: rest) = c :: bare (Text.isNameChar c) rest := by
  rw [bare.eq_def]
  dsimp only
  split
  · next heq => cases heq.symm.trans h
  · rfl

theorem bare_subset (inWord : Bool) (s : List Char) : bare inWord s ⊆ s := by
  fun_induction bare inWord s with
  | case1 => exact List.Subset.refl _
  | case2 inWord c rest literal after h ih =>
      split at h
      · cases h
      · rw [← (Literal.split?_eq h).1]
        exact List.Subset.trans ih (List.subset_append_right _ _)
  | case3 inWord c rest h ih => exact List.cons_subset_cons c ih

theorem stray_literal {literal after : List Char}
    (h : (if inWord then none else Literal.split? (c :: rest)) = some (literal, after)) :
    Stray opened inWord (c :: rest) ↔ Stray opened false after := by
  unfold Stray
  rw [bare_literal h]

theorem stray_cons (h : (if inWord then none else Literal.split? (c :: rest)) = none)
    (hascii : c.toNat < 128) : Stray opened inWord (c :: rest) ↔
      ∃ opened', pairOne opened c = some opened' ∧
        Stray opened' (Text.isNameChar c) rest := by
  have hpair : ∀ before, pair opened (c :: before) = (pairOne opened c).bind (pair · before) :=
    fun before => List.foldlM_cons
  unfold Stray
  rw [bare_cons h]
  constructor
  · rintro ⟨before, d, after, hbare, hd, hpaired⟩
    cases before with
    | nil =>
        obtain rfl : c = d := (List.cons.inj hbare).1
        exact absurd hascii (Nat.not_lt.2 hd)
    | cons c' before =>
        obtain ⟨hc, hrest⟩ := List.cons.inj hbare
        rw [← hc, hpair] at hpaired
        cases hopened : pairOne opened c with
        | none =>
            rw [hopened] at hpaired
            cases hpaired
        | some opened' =>
            rw [hopened] at hpaired
            exact ⟨opened', rfl, before, d, after, hrest, hd, hpaired⟩
  · rintro ⟨opened', hopened, before, d, after, hbare, hd, hpaired⟩
    refine ⟨c :: before, d, after, congrArg (c :: ·) hbare, hd, ?_⟩
    rw [hpair, hopened]
    exact hpaired

theorem map_eq_crash_iff {α β : Type} {f : α → β} {x : Except Stop α} {k : Crash} :
    x.map f = .error (.crash k) ↔ x = .error (.crash k) := by
  cases x with
  | error e =>
      constructor <;>
        · intro h
          cases h
          rfl
  | ok a => exact ⟨fun h => (nomatch h), fun h => (nomatch h)⟩

theorem isNameChar_of_partner? (h : (partner? c).isSome = true) : Text.isNameChar c = false := by
  unfold partner? at h
  split at h
  · rfl
  · rfl
  · rfl
  · cases h

theorem isNameChar_of_isClosing (h : isClosing c = true) : Text.isNameChar c = false := by
  simp only [isClosing, Bool.or_eq_true, beq_iff_eq] at h
  rcases h with (rfl | rfl) | rfl <;> rfl

/-- **Cutting breaks off exactly at a stray character.** -/
theorem cut_eq_crash_iff {k : Crash} :
    cut opened inWord s = .error (.crash k) ↔ k = .brokenCharacter ∧ Stray opened inWord s := by
  have hempty : ∀ {opened inWord}, ¬ Stray opened inWord [] := by
    rintro opened inWord ⟨before, c, after, hbare, -⟩
    rw [bare] at hbare
    cases before <;> cases hbare
  -- A character at which the cutting goes on with the brackets as they are behind it.
  have step : ∀ {opened opened' : List Char} {inWord : Bool} {c : Char} {rest : List Char}
      {x : Except Stop (List (List Char))} {f : List (List Char) → List (List Char)},
      (if inWord then none else Literal.split? (c :: rest)) = none → ¬ 128 ≤ c.toNat →
      pairOne opened c = some opened' →
      (x = .error (.crash k) ↔ k = .brokenCharacter ∧ Stray opened' (Text.isNameChar c) rest) →
      (x.map f = .error (.crash k) ↔ k = .brokenCharacter ∧ Stray opened inWord (c :: rest)) := by
    intro opened opened' inWord c rest x f h hascii hopened ih
    rw [map_eq_crash_iff, ih, stray_cons h (Nat.not_le.1 hascii), hopened]
    refine and_congr_right fun _ => ⟨fun hstray => ⟨opened', rfl, hstray⟩, ?_⟩
    rintro ⟨_, ⟨⟩, hstray⟩
    exact hstray
  -- A closing bracket without a partner ends the cutting with a problem.
  have unpaired : ∀ {opened : List Char} {inWord : Bool} {c : Char} {rest : List Char} {p : Problem},
      (if inWord then none else Literal.split? (c :: rest)) = none → ¬ 128 ≤ c.toNat →
      pairOne opened c = none →
      ((.error (.problem p) : Except Stop (List (List Char))) = .error (.crash k) ↔
        k = .brokenCharacter ∧ Stray opened inWord (c :: rest)) := by
    intro opened inWord c rest p h hascii hopened
    rw [stray_cons h (Nat.not_le.1 hascii), hopened]
    refine iff_of_false (fun heq => by cases heq) ?_
    rintro ⟨-, _, ⟨⟩, -⟩
  fun_induction cut opened inWord s with
  | case1 => exact iff_of_false (fun h => by cases h) fun h => hempty h.2
  | case2 => exact iff_of_false (fun h => by cases h) fun h => hempty h.2
  | case3 opened inWord c rest literal after h ih =>
      exact map_eq_crash_iff.trans (ih.trans (and_congr_right fun _ => (stray_literal h).symm))
  | case4 opened inWord c rest h hbeyond =>
      have hstray : Stray opened inWord (c :: rest) := ⟨[], c, _, bare_cons h, hbeyond, rfl⟩
      constructor
      · intro heq
        cases heq
        exact ⟨rfl, hstray⟩
      · rintro ⟨rfl, -⟩
        rfl
  | case5 opened inWord c rest h hascii hcomma ih =>
      obtain ⟨rfl, rfl⟩ := hcomma
      exact step h hascii rfl ih
  | case6 opened inWord c rest h hascii hcomma hopen ih =>
      have hname : Text.isNameChar c = false := isNameChar_of_partner? hopen
      exact step h hascii (if_pos hopen) (by rw [hname]; exact ih)
  | case7 inWord c rest h hascii hopen hclose hcomma =>
      refine unpaired h hascii ?_
      rw [pairOne, if_neg hopen, if_pos hclose]
  | case8 inWord c rest h hascii hopen hclose o opened hpartner hcomma ih =>
      have hname : Text.isNameChar c = false := isNameChar_of_isClosing hclose
      refine step h hascii ?_ (by rw [hname]; exact ih)
      rw [pairOne, if_neg hopen, if_pos hclose]
      exact if_pos hpartner
  | case9 inWord c rest h hascii hopen hclose o opened hpartner hcomma =>
      refine unpaired h hascii ?_
      rw [pairOne, if_neg hopen, if_pos hclose]
      exact if_neg hpartner
  | case10 opened inWord c rest h hascii hcomma hopen hclose ih =>
      refine step h hascii ?_ ih
      unfold pairOne
      rw [if_neg hopen, if_neg hclose]

/-! ## Lists in arguments -/

/-- All characters outside literals are ASCII. -/
def Unbroken (inWord : Bool) (s : List Char) : Prop := ∀ c ∈ bare inWord s, c.toNat < 128

theorem Unbroken.not_stray (h : Unbroken inWord s) : ¬ Stray opened inWord s := by
  rintro ⟨before, c, after, hbare, hbeyond, -⟩
  have hascii := h c (by rw [hbare]; simp)
  omega

theorem unbroken_nil (inWord : Bool) : Unbroken inWord [] := by
  intro c hc
  rw [bare] at hc
  cases hc

theorem unbroken_literal {literal after : List Char}
    (h : (if inWord then none else Literal.split? (c :: rest)) = some (literal, after)) :
    Unbroken inWord (c :: rest) ↔ Unbroken false after := by
  unfold Unbroken
  rw [bare_literal h]

theorem unbroken_cons (h : (if inWord then none else Literal.split? (c :: rest)) = none) :
    Unbroken inWord (c :: rest) ↔ c.toNat < 128 ∧ Unbroken (Text.isNameChar c) rest := by
  unfold Unbroken
  rw [bare_cons h, List.forall_mem_cons]

/-- Where cutting goes through, all characters outside literals are ASCII. -/
theorem unbroken_of_cut {parts : List (List Char)} (h : cut opened inWord s = .ok parts) :
    Unbroken inWord s := by
  fun_induction cut opened inWord s generalizing parts with
  | case1 => exact unbroken_nil _
  | case2 => exact unbroken_nil _
  | case3 opened inWord c rest literal after hliteral ih =>
      obtain ⟨parts', hparts, -⟩ := map_eq_ok h
      exact (unbroken_literal hliteral).2 (ih hparts)
  | case4 => cases h
  | case5 opened inWord c rest hnone hascii hcomma ih =>
      obtain ⟨parts', hparts, -⟩ := map_eq_ok h
      obtain ⟨rfl, -⟩ := hcomma
      exact (unbroken_cons hnone).2 ⟨by decide, ih hparts⟩
  | case6 opened inWord c rest hnone hascii hcomma hopen ih =>
      obtain ⟨parts', hparts, -⟩ := map_eq_ok h
      rw [unbroken_cons hnone, isNameChar_of_partner? hopen]
      exact ⟨Nat.not_le.1 hascii, ih hparts⟩
  | case7 => cases h
  | case8 inWord c rest hnone hascii hopen hclose o opened hpartner hcomma ih =>
      obtain ⟨parts', hparts, -⟩ := map_eq_ok h
      rw [unbroken_cons hnone, isNameChar_of_isClosing hclose]
      exact ⟨Nat.not_le.1 hascii, ih hparts⟩
  | case9 => cases h
  | case10 opened inWord c rest hnone hascii hcomma hopen hclose ih =>
      obtain ⟨parts', hparts, -⟩ := map_eq_ok h
      exact (unbroken_cons hnone).2 ⟨Nat.not_le.1 hascii, ih hparts⟩

theorem lt_of_mem_opening : ∀ o ∈ Literal.openings, ∀ c ∈ o, c.toNat < 128 := by decide

/-- What a text starts with is unbroken if the text is. -/
theorem Unbroken.of_append {a b : List Char} (h : Unbroken inWord (a ++ b)) :
    Unbroken inWord a := by
  induction hn : a.length using Nat.strongRecOn generalizing a inWord with
  | ind n ih =>
      cases a with
      | nil => exact unbroken_nil _
      | cons c a =>
          rw [List.cons_append] at h
          cases hshort : (if inWord then none else Literal.split? (c :: a)) with
          | some found =>
              -- A literal that something follows is the same in the longer text.
              obtain ⟨literal, after⟩ := found
              rw [unbroken_literal hshort]
              by_cases hafter : after = []
              · rw [hafter]
                exact unbroken_nil _
              · cases inWord with
                | true => cases hshort
                | false =>
                    have hsplit : Literal.split? (c :: a) = some (literal, after) := hshort
                    obtain ⟨happend, hne⟩ := Literal.split?_eq hsplit
                    have hlength := Literal.length_lt_of_split? hsplit
                    have hlong : (if false then none else Literal.split? (c :: (a ++ b))) =
                        some (literal, after ++ b) := by
                      rw [if_neg Bool.false_ne_true]
                      rw [← List.cons_append, ← happend, List.append_assoc]
                      rw [← happend] at hsplit
                      have hreplaces := Replaces.of_append hafter [] b
                      rw [List.append_nil] at hreplaces
                      exact Literal.split?_exchange hsplit hreplaces
                    rw [unbroken_literal hlong] at h
                    exact ih after.length (hn ▸ hlength) h rfl
          | none =>
              cases hlong : (if inWord then none else Literal.split? (c :: (a ++ b))) with
              | none =>
                  rw [unbroken_cons hlong] at h
                  rw [unbroken_cons hshort]
                  exact ⟨h.1, ih a.length (by rw [← hn]; exact Nat.lt_succ_self _) h.2 rfl⟩
              | some found =>
                  -- Only a literal whose opening reaches into what follows can be new.
                  cases inWord with
                  | true => cases hlong
                  | false =>
                      have hnone : Literal.split? (c :: a) = none := hshort
                      have hsome : Literal.split? ((c :: a) ++ b) = some found := hlong
                      obtain ⟨o, ho, hopens⟩ :=
                        Literal.split?_isSome_iff.1 (Option.isSome_iff_exists.2 ⟨_, hsome⟩)
                      have hwithin : c :: a <+: o := by
                        rcases List.prefix_or_prefix_of_prefix hopens (List.prefix_append (c :: a) b)
                          with hstarts | hwithin
                        · have hlit := Literal.split?_isSome_iff.2 ⟨o, ho, hstarts⟩
                          rw [hnone] at hlit
                          cases hlit
                        · exact hwithin
                      intro d hd
                      exact lt_of_mem_opening o ho d (hwithin.subset (bare_subset _ _ hd))

/-- The first part of a cut is what its text starts with. -/
theorem unbroken_first {first : List Char} {others : List (List Char)}
    (h : cut opened inWord s = .ok (first :: others)) : Unbroken inWord first := by
  have hstarts : first <+: s := by
    rw [← (intercalate_cut opened inWord s _ h).2]
    cases others with
    | nil => simp [List.intercalate]
    | cons p ps => exact ⟨_, by simp [List.intercalate]; rfl⟩
  obtain ⟨more, rfl⟩ := hstarts
  exact (unbroken_of_cut h).of_append

/-- The other parts are those of what is cut behind a comma. -/
theorem unbroken_others {first : List Char} {others : List (List Char)}
    (h : cut opened inWord s = .ok (first :: others)) : ∀ part ∈ others, Unbroken false part := by
  have extended : ∀ {x : Except Stop (List (List Char))} {piece first : List Char}
      {others : List (List Char)},
      (∀ {first others}, x = .ok (first :: others) → ∀ part ∈ others, Unbroken false part) →
      x.map (extendFirst piece) = .ok (first :: others) → ∀ part ∈ others, Unbroken false part := by
    intro x piece first others ih h
    obtain ⟨parts, hparts, heq⟩ := map_eq_ok h
    cases parts with
    | nil =>
        cases heq
        exact fun part hpart => absurd hpart List.not_mem_nil
    | cons p ps =>
        cases heq
        exact ih hparts
  fun_induction cut opened inWord s generalizing first others with
  | case1 =>
      cases h
      exact fun part hpart => absurd hpart List.not_mem_nil
  | case2 => cases h
  | case3 opened inWord c rest literal after hliteral ih => exact extended ih h
  | case4 => cases h
  | case5 opened inWord c rest hnone hascii hcomma ih =>
      obtain ⟨parts, hparts, heq⟩ := map_eq_ok h
      cases heq
      obtain ⟨p, ps, rfl⟩ :=
        List.exists_cons_of_ne_nil (intercalate_cut [] false rest others hparts).1
      exact List.forall_mem_cons.2 ⟨unbroken_first hparts, ih hparts⟩
  | case6 opened inWord c rest hnone hascii hcomma hopen ih => exact extended ih h
  | case7 => cases h
  | case8 inWord c rest hnone hascii hopen hclose o opened hpartner hcomma ih => exact extended ih h
  | case9 => cases h
  | case10 opened inWord c rest hnone hascii hcomma hopen hclose ih => exact extended ih h

/-- No part of a cut has a stray character. -/
theorem unbroken_of_mem_cut {parts : List (List Char)} (h : cut opened false s = .ok parts) :
    ∀ part ∈ parts, Unbroken false part := by
  obtain ⟨first, others, rfl⟩ :=
    List.exists_cons_of_ne_nil (intercalate_cut opened false s parts h).1
  exact List.forall_mem_cons.2 ⟨unbroken_first h, unbroken_others h⟩

/-- No literal starts at a blank, and no word goes on there. -/
theorem Unbroken.tail (h : Unbroken false (c :: rest))
    (hc : ¬ (Text.isNameChar c = true ∨ c = '"' ∨ c = '\'')) : Unbroken false rest := by
  have hnone : Literal.split? (c :: rest) = none := by
    rw [← Option.not_isSome_iff_eq_none, Literal.split?_isSome_iff]
    rintro ⟨o, ho, t, ht⟩
    cases o with
    | nil => exact absurd ho (by decide)
    | cons d o =>
        obtain rfl : d = c := (List.cons.inj ht).1
        exact hc (Literal.forall_mem_openings _ ho d List.mem_cons_self)
  have hname : Text.isNameChar c = false := Bool.eq_false_iff.2 fun hname => hc (Or.inl hname)
  have hcons := (unbroken_cons (show (if false then none else Literal.split? (c :: rest)) = none
    from hnone)).1 h
  rw [hname] at hcons
  exact hcons.2

theorem not_name_of_isBlank (hc : Text.isBlank c = true) :
    ¬ (Text.isNameChar c = true ∨ c = '"' ∨ c = '\'') := by
  rintro (hname | rfl | rfl)
  · rw [(Source.ne_of_isPlain (Source.isPlain_of_isNameChar hname)).2.1] at hc
    cases hc
  · exact absurd hc (by decide)
  · exact absurd hc (by decide)

theorem Unbroken.trim (h : Unbroken false s) : Unbroken false (Text.trim s) := by
  have hstart : Unbroken false (Text.trimStart s) := by
    unfold Text.trimStart
    induction s with
    | nil => exact h
    | cons c s ih =>
        rw [List.dropWhile_cons]
        split
        · next hc => exact ih (h.tail (not_name_of_isBlank hc))
        · exact h
  have hsplit : Text.trimStart s = Text.trim s ++
      ((Text.trimStart s).reverse.takeWhile Text.isBlank).reverse := by
    rw [Text.trim, Text.trimEnd, Text.dropEndWhile, ← List.reverse_append,
      List.takeWhile_append_dropWhile, List.reverse_reverse]
  rw [hsplit] at hstart
  exact hstart.of_append

/-- An argument without stray characters is read or refused. -/
theorem read_ne_crash {raw : List Char} (h : Unbroken false raw) (k : Crash) :
    read raw ≠ .error (.crash k) := by
  induction hn : raw.length using Nat.strongRecOn generalizing raw with
  | ind n ih =>
      have htrim := h.trim
      intro hread
      rw [read.eq_def] at hread
      split at hread
      · cases hread
      · next rest hopen =>
        split at hread
        · cases hread
        · next inner hclose =>
          split at hread
          · cases hread
          · -- The list is cut between its braces, which are no part of a word.
            rw [hopen] at htrim
            have hrest := htrim.tail (by decide)
            rw [Text.stripEnd?_eq_some hclose] at hrest
            have hinner := hrest.of_append
            split at hread
            · next e hcut =>
              cases hread
              exact hinner.not_stray (cut_eq_crash_iff.1 hcut).2
            · next parts hcut =>
              obtain ⟨part, -, hpart⟩ := exists_of_mapM_eq_error (map_eq_crash_iff.1 hread)
              have hmem := mem_of_mem_dropTrailing part.2
              refine ih part.1.length ?_ (unbroken_of_mem_cut hcut _ hmem) rfl hpart
              have htrimmed := length_trim_le raw
              have hshort := length_le_of_mem_cut hcut hmem
              rw [hopen, Text.stripEnd?_eq_some hclose, List.length_cons,
                List.length_append] at htrimmed
              omega
      · next c rest hplain heq =>
        split at hread
        · split at hread
          · cases hread
          · cases hread
        · cases hread

/-- Reading arguments breaks off exactly at a stray character. -/
theorem readAll_eq_crash_iff {text : List Char} {k : Crash} :
    readAll text = .error (.crash k) ↔
      k = .brokenCharacter ∧ Text.isAllBlank text = false ∧ Stray [] false text := by
  unfold readAll
  cases hblank : Text.isAllBlank text with
  | true => exact ⟨fun h => (nomatch h), fun h => (nomatch h.2.1)⟩
  | false =>
      rw [if_neg Bool.false_ne_true]
      have hiff := @cut_eq_crash_iff [] text false k
      cases hcut : cut [] false text with
      | error e =>
          rw [hcut] at hiff
          show ((.error e : Except Stop (List Argument)) = .error (.crash k)) ↔ _
          rw [← map_eq_crash_iff (f := fun _ : List (List Char) => ([] : List Argument))] at hiff
          exact hiff.trans ⟨fun h => ⟨h.1, rfl, h.2⟩, fun h => ⟨h.1, h.2.2⟩⟩
      | ok parts =>
          constructor
          · intro h
            obtain ⟨part, hpart, hread⟩ := exists_of_mapM_eq_error h
            exact absurd hread (read_ne_crash (unbroken_of_mem_cut hcut part hpart) k)
          · rintro ⟨-, -, hstray⟩
            exact absurd hstray (unbroken_of_cut hcut).not_stray

end Argument

namespace Declaration

/-- **Reading a declaration breaks off exactly at a stray character in the arguments of a known
kind.** -/
theorem read_eq_crash_iff {word : String} {inner : List Char} {scope : List String} {path : String}
    {span : Span} {live : Bool} {k : Crash} :
    read word inner scope path span live = .error (.crash k) ↔
      k = .brokenCharacter ∧ (Kind.ofWord? word).isSome ∧ Text.isAllBlank inner = false ∧
        Argument.Stray [] false inner := by
  unfold read
  cases hkind : Kind.ofWord? word with
  | none => exact ⟨fun h => (nomatch h), fun h => (nomatch h.2.1)⟩
  | some kind =>
      have hiff := @Argument.readAll_eq_crash_iff inner k
      cases hall : Argument.readAll inner with
      | error e =>
          rw [hall] at hiff
          show ((.error e : Except Stop Declaration) = .error (.crash k)) ↔ _
          rw [← Argument.map_eq_crash_iff (f := fun _ : List Argument => (default : Declaration))]
            at hiff
          exact hiff.trans ⟨fun h => ⟨h.1, rfl, h.2⟩, fun h => ⟨h.1, h.2.2⟩⟩
      | ok args =>
          rw [hall] at hiff
          constructor
          · intro h
            change ((liftM (parts kind args) : Except Stop _) >>= _) = _ at h
            cases hparts : parts kind args with
            | error p =>
                rw [hparts] at h
                cases h
            | ok found =>
                rw [hparts] at h
                cases h
          · intro h
            exact absurd (hiff.2 ⟨h.1, h.2.2⟩) (by simp)

end Declaration

end EmbeddedBuffers
