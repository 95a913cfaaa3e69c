import Mathlib.Data.List.TakeWhile
import EmbeddedBuffers.Proofs.Text.Names

/-!
# Trimming

A text without blanks at its ends is what trimming makes of it, however many blanks are put
around it, and words with one space between them are what squeezing makes of them. Main
statements: `trim_append` and `squeeze_spaced`.
-/

namespace EmbeddedBuffers.Text

/-- What holds of the characters of a text is decided along the text, not over all characters. -/
instance (priority := high) decidableForallMem {p : Char → Prop} [DecidablePred p]
    (s : List Char) : Decidable (∀ c ∈ s, p c) := List.decidableBAll p s

theorem dropWhile_eq_self {p : Char → Bool} {s : List Char}
    (h : ∀ c, s.head? = some c → p c = false) : s.dropWhile p = s := by
  cases s with
  | nil => rfl
  | cons c s => exact List.dropWhile_cons_of_neg (by simp [h c rfl])

/-- A span of characters ends at the first other one. -/
theorem span_append {p : Char → Bool} {a b : List Char} (ha : ∀ c ∈ a, p c = true)
    (hb : ∀ c, b.head? = some c → p c = false) :
    (a ++ b).takeWhile p = a ∧ (a ++ b).dropWhile p = b := by
  have htake : b.takeWhile p = [] := by
    cases b with
    | nil => rfl
    | cons c b => exact List.takeWhile_cons_of_neg (by simp [hb c rfl])
  rw [List.takeWhile_append_of_pos ha, List.dropWhile_append_of_pos ha, htake,
    dropWhile_eq_self hb, List.append_nil]
  exact ⟨rfl, rfl⟩

/-- What follows a span does not go on with it. -/
theorem head?_of_span {p : Char → Bool} {s r : List Char} (h : s.dropWhile p = r) (c : Char)
    (hc : r.head? = some c) : p c = false := by
  have hhead := List.head?_dropWhile_not p s
  rw [h, hc] at hhead
  simpa using hhead

/-- No blank at either end. -/
structure Trimmed (s : List Char) : Prop where
  head : ∀ c, s.head? = some c → isBlank c = false
  last : ∀ c, s.getLast? = some c → isBlank c = false

theorem trimmed_nil : Trimmed [] := ⟨fun _ h => (nomatch h), fun _ h => (nomatch h)⟩

/-- A text without any blank. -/
theorem trimmed_of_all {s : List Char} (h : ∀ c ∈ s, isBlank c = false) : Trimmed s :=
  ⟨fun c hc => h c (List.mem_of_mem_head? hc), fun c hc => h c (List.mem_of_getLast? hc)⟩

/-- The ends of a text are those of its outer pieces. -/
theorem trimmed_append {a b : List Char} (ha : Trimmed a) (hb : Trimmed b) (hane : a ≠ [])
    (hbne : b ≠ []) (gap : List Char) : Trimmed (a ++ gap ++ b) := by
  constructor
  · intro c hc
    obtain ⟨x, a, rfl⟩ := List.exists_cons_of_ne_nil hane
    exact ha.head c hc
  · intro c hc
    rw [List.getLast?_append, List.getLast?_eq_some_getLast hbne] at hc
    exact hb.last c (by rw [List.getLast?_eq_some_getLast hbne]; exact hc)

theorem dropEndWhile_append {p : Char → Bool} {s tail : List Char} (htail : ∀ c ∈ tail, p c = true)
    (h : ∀ c, s.getLast? = some c → p c = false) : dropEndWhile p (s ++ tail) = s := by
  unfold dropEndWhile
  rw [List.reverse_append, List.dropWhile_append_of_pos (fun c hc => htail c (List.mem_reverse.1 hc)),
    dropWhile_eq_self (by simpa using h), List.reverse_reverse]

/-- A text is what is left of it after dropping a class at its end, with characters of the class
behind. -/
theorem exists_dropEndWhile (p : Char → Bool) (s : List Char) :
    ∃ tail, s = dropEndWhile p s ++ tail ∧ ∀ c ∈ tail, p c = true := by
  refine ⟨(s.reverse.takeWhile p).reverse, ?_,
    fun c hc => List.mem_takeWhile_imp (List.mem_reverse.1 hc)⟩
  unfold dropEndWhile
  rw [← List.reverse_append, List.takeWhile_append_dropWhile, List.reverse_reverse]

theorem trimEnd_append {s blanks : List Char} (hblanks : ∀ c ∈ blanks, isBlank c = true)
    (h : ∀ c, s.getLast? = some c → isBlank c = false) : trimEnd (s ++ blanks) = s :=
  dropEndWhile_append hblanks h

/-- **Blanks around a text are what trimming drops.** -/
theorem trim_append {s before after : List Char} (h : Trimmed s)
    (hbefore : ∀ c ∈ before, isBlank c = true) (hafter : ∀ c ∈ after, isBlank c = true) :
    trim (before ++ s ++ after) = s := by
  unfold trim trimStart
  rw [List.append_assoc, List.dropWhile_append_of_pos hbefore]
  cases s with
  | nil =>
      have hall : after.dropWhile isBlank = [] := List.dropWhile_eq_nil_iff.2 hafter
      rw [List.nil_append, hall]
      rfl
  | cons c s =>
      rw [dropWhile_eq_self fun d hd => h.head d (by simpa using hd)]
      exact trimEnd_append hafter h.last

theorem trim_eq_self {s : List Char} (h : Trimmed s) : trim s = s := by
  simpa using trim_append h (List.forall_mem_nil _) (List.forall_mem_nil _)

theorem trimmed_trim (s : List Char) : Trimmed (trim s) := by
  unfold trim trimStart trimEnd dropEndWhile
  constructor
  · intro c hc
    have hprefix : (s.dropWhile isBlank).reverse.dropWhile isBlank <:+
        (s.dropWhile isBlank).reverse := List.dropWhile_suffix _
    obtain ⟨r, hr⟩ := List.reverse_prefix.2 hprefix
    rw [List.reverse_reverse] at hr
    have hhead : (s.dropWhile isBlank).head? = some c := by
      rw [← hr, List.head?_append, hc]
      rfl
    have := List.head?_dropWhile_not isBlank s
    rw [hhead] at this
    simpa using this
  · intro c hc
    rw [List.getLast?_reverse] at hc
    have := List.head?_dropWhile_not isBlank (s.dropWhile isBlank).reverse
    rw [hc] at this
    simpa using this

/-- A text is what is left of it after trimming, with blanks on both sides. -/
theorem exists_trim (s : List Char) : ∃ before after, s = before ++ trim s ++ after ∧
    (∀ c ∈ before, isBlank c = true) ∧ ∀ c ∈ after, isBlank c = true := by
  obtain ⟨after, htrim, hafter⟩ := exists_dropEndWhile isBlank (s.dropWhile isBlank)
  have hd : trim s ++ after = s.dropWhile isBlank := htrim.symm
  refine ⟨s.takeWhile isBlank, after, ?_, fun c hc => List.mem_takeWhile_imp hc, hafter⟩
  rw [List.append_assoc, hd]
  exact List.takeWhile_append_dropWhile.symm

/-! ## Words -/

/-- Words with one space between neighbours. -/
def spaced : List (List Char) → List Char
  | [] => []
  | [w] => w
  | w :: v :: ws => w ++ ' ' :: spaced (v :: ws)

/-- A piece without blanks goes on with the word that is open. -/
theorem wordsAux_append {w : List Char} (h : ∀ c ∈ w, isBlank c = false) (rest acc : List Char) :
    wordsAux isBlank (w ++ rest) acc = wordsAux isBlank rest (w.reverse ++ acc) := by
  induction w generalizing acc with
  | nil => rfl
  | cons c w ih =>
      obtain ⟨hc, hw⟩ := List.forall_mem_cons.1 h
      rw [List.cons_append, wordsAux, hc, if_neg Bool.false_ne_true, ih hw, List.reverse_cons,
        List.append_assoc]
      rfl

theorem words_blank {c : Char} (hc : isBlank c = true) (rest : List Char) :
    words (c :: rest) = words rest := by
  rw [words, wordsAux, hc]
  rfl

theorem words_blanks_append {blanks : List Char} (h : ∀ c ∈ blanks, isBlank c = true)
    (rest : List Char) : words (blanks ++ rest) = words rest := by
  induction blanks with
  | nil => rfl
  | cons c blanks ih =>
      obtain ⟨hc, hblanks⟩ := List.forall_mem_cons.1 h
      rw [List.cons_append, words_blank hc, ih hblanks]

theorem words_append_blank {w rest : List Char} {c : Char} (hne : w ≠ [])
    (h : ∀ c ∈ w, isBlank c = false) (hc : isBlank c = true) :
    words (w ++ c :: rest) = w :: words rest := by
  have hopen : w.reverse.isEmpty = false := by simpa using hne
  rw [words, wordsAux_append h, List.append_nil, wordsAux, hc, if_pos rfl, hopen,
    if_neg Bool.false_ne_true, List.reverse_reverse]
  rfl

theorem words_word {w : List Char} (hne : w ≠ []) (h : ∀ c ∈ w, isBlank c = false) :
    words w = [w] := by
  have hopen : w.reverse.isEmpty = false := by simpa using hne
  have haux := wordsAux_append h [] []
  rw [List.append_nil, List.append_nil] at haux
  rw [words, haux, wordsAux, hopen, if_neg Bool.false_ne_true, List.reverse_reverse]

theorem words_spaced {ws : List (List Char)} (hne : ∀ w ∈ ws, w ≠ [])
    (h : ∀ w ∈ ws, ∀ c ∈ w, isBlank c = false) : words (spaced ws) = ws := by
  induction ws with
  | nil => rfl
  | cons w ws ih =>
      obtain ⟨hw, hws⟩ := List.forall_mem_cons.1 hne
      obtain ⟨hbw, hbws⟩ := List.forall_mem_cons.1 h
      cases ws with
      | nil => exact words_word hw hbw
      | cons v ws => rw [spaced, words_append_blank hw hbw (by decide), ih hws hbws]

theorem intercalate_eq_spaced (ws : List (List Char)) : List.intercalate [' '] ws = spaced ws := by
  induction ws with
  | nil => rfl
  | cons w ws ih =>
      cases ws with
      | nil => simp [spaced, List.intercalate]
      | cons v ws =>
          rw [spaced, ← ih]
          simp [List.intercalate, List.intersperse]

/-- **Words with one space between them are squeezed already.** -/
theorem squeeze_spaced {ws : List (List Char)} (hne : ∀ w ∈ ws, w ≠ [])
    (h : ∀ w ∈ ws, ∀ c ∈ w, isBlank c = false) : squeeze (spaced ws) = spaced ws := by
  rw [squeeze, words_spaced hne h, intercalate_eq_spaced]

theorem spaced_ne_nil {w : List Char} {ws : List (List Char)} (hne : w ≠ []) :
    spaced (w :: ws) ≠ [] := by
  cases ws with
  | nil => exact hne
  | cons v ws => exact List.append_ne_nil_of_left_ne_nil hne _

theorem trimmed_spaced {ws : List (List Char)} (hne : ∀ w ∈ ws, w ≠ [])
    (h : ∀ w ∈ ws, Trimmed w) : Trimmed (spaced ws) := by
  induction ws with
  | nil => exact trimmed_nil
  | cons w ws ih =>
      obtain ⟨hw, hws⟩ := List.forall_mem_cons.1 hne
      obtain ⟨htw, htws⟩ := List.forall_mem_cons.1 h
      cases ws with
      | nil => exact htw
      | cons v ws =>
          have := trimmed_append htw (ih hws htws) hw (spaced_ne_nil (hws v List.mem_cons_self)) [' ']
          rwa [List.append_assoc] at this

end EmbeddedBuffers.Text
