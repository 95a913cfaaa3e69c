import EmbeddedBuffers.Header.Basic
import EmbeddedBuffers.Proofs.Files.Following
import EmbeddedBuffers.Proofs.Text.Trimming

/-!
# The fingerprint in a header

A header gives back the fingerprint that it was made with, unless the name of its source
pushes the line away: a name may hold line feeds, but no separator, and every line with the
mark starts with two of them. Main statement: `eq_of_recordedFingerprint?`.
-/

namespace EmbeddedBuffers

/-! ## Numerals -/

namespace Text

theorem digit?_digitChar {radix d : Nat} (hhigh : radix ≤ 16) (h : d < radix) :
    digit? radix d.digitChar = some d := by
  have hall : ∀ radix ≤ 16, ∀ d < radix, digit? radix d.digitChar = some d := by decide
  exact hall radix hhigh d h

theorem digitsFrom?_append (radix acc : Nat) (s rest : List Char) :
    digitsFrom? radix acc (s ++ rest) =
      (digitsFrom? radix acc s).bind fun n => digitsFrom? radix n rest := by
  induction s generalizing acc with
  | nil => rfl
  | cons c s ih =>
      rw [List.cons_append, digitsFrom?, digitsFrom?]
      cases digit? radix c with
      | none => rfl
      | some d => exact ih _

theorem digitsFrom?_toDigits {radix : Nat} (hlow : 1 < radix) (hhigh : radix ≤ 16) (n : Nat) :
    digitsFrom? radix 0 (Nat.toDigits radix n) = some n := by
  induction n using Nat.strongRecOn with
  | ind n ih =>
      rw [Nat.toDigits_eq_if hlow]
      split
      · next hlt =>
        rw [digitsFrom?, digit?_digitChar hhigh hlt]
        simp [digitsFrom?]
      · rw [digitsFrom?_append, ih (n / radix) (Nat.div_lt_self (by omega) hlow), Option.bind_some,
          digitsFrom?, digit?_digitChar hhigh (Nat.mod_lt n (by omega))]
        simp only [digitsFrom?, Option.some.injEq]
        exact Nat.div_add_mod' n radix

theorem digitsFrom?_replicate_zero (k : Nat) (s : List Char) :
    digitsFrom? 16 0 (List.replicate k '0' ++ s) = digitsFrom? 16 0 s := by
  induction k with
  | zero => rfl
  | succ k ih =>
      rw [List.replicate_succ, List.cons_append, digitsFrom?]
      exact ih

theorem exists_digitChar_of_mem_toDigits {radix n : Nat} (hradix : 1 < radix) {c : Char}
    (h : c ∈ Nat.toDigits radix n) : ∃ d < radix, c = Nat.digitChar d := by
  induction n using Nat.strongRecOn with
  | ind n ih =>
      rw [Nat.toDigits_eq_if hradix] at h
      split at h
      · next hlt => exact ⟨n, hlt, List.mem_singleton.1 h⟩
      · next hge =>
        rcases List.mem_append.1 h with h | h
        · exact ih (n / radix) (Nat.div_lt_self (by omega) hradix) h
        · exact ⟨n % radix, Nat.mod_lt n (by omega), List.mem_singleton.1 h⟩

/-- What is written in hexadecimal holds digits alone. -/
theorem exists_digitChar_of_mem_hexFixed {width n : Nat} {c : Char}
    (h : c ∈ (hexFixed width n).toList) : ∃ d < 16, c = Nat.digitChar d := by
  rw [hexFixed, String.toList_ofList] at h
  rcases List.mem_append.1 h with h | h
  · exact ⟨0, by decide, List.eq_of_mem_replicate h⟩
  · exact exists_digitChar_of_mem_toDigits (by decide) h

theorem hexFixed_ne_nil (width n : Nat) : (hexFixed width n).toList ≠ [] := by
  rw [hexFixed, String.toList_ofList]
  intro h
  have hlen := congrArg List.length (List.append_eq_nil_iff.1 h).2
  exact absurd hlen (Nat.ne_of_gt Nat.length_toDigits_pos)

/-- A number in hexadecimal is read back. -/
theorem unsigned?_trim_hexFixed {width n bound : Nat} (h : n < bound) :
    unsigned? 16 bound (trim (hexFixed width n).toList) = some n := by
  have hblank : ∀ d < 16, isBlank (Nat.digitChar d) = false := by decide
  have hplus : ∀ d < 16, Nat.digitChar d ≠ '+' := by decide
  have hvalue : digitsFrom? 16 0 (hexFixed width n).toList = some n := by
    rw [hexFixed, String.toList_ofList, digitsFrom?_replicate_zero,
      digitsFrom?_toDigits (by decide) (by decide)]
  rw [trim_eq_self (trimmed_of_all fun c hc => by
    obtain ⟨d, hd, rfl⟩ := exists_digitChar_of_mem_hexFixed hc
    exact hblank d hd)]
  have hmem := fun c => @exists_digitChar_of_mem_hexFixed width n c
  have hne := hexFixed_ne_nil width n
  generalize (hexFixed width n).toList = s at hvalue hmem hne
  unfold unsigned?
  split
  · next rest =>
    obtain ⟨d, hd, hc⟩ := hmem '+' List.mem_cons_self
    exact absurd hc.symm (hplus d hd)
  · dsimp only
    rw [digits?, if_neg (by simpa using hne), hvalue, Option.filter_some,
      if_pos (decide_eq_true h)]

/-! ## Lines -/

theorem linesFrom_append {l : List Char} (h : '\n' ∉ l) (line rest : List Char) :
    linesFrom line (l ++ rest) = linesFrom (l.reverse ++ line) rest := by
  induction l generalizing line with
  | nil => rfl
  | cons c l ih =>
      rw [List.mem_cons, not_or] at h
      rw [List.cons_append, linesFrom, if_neg (fun heq => h.1 heq.symm), ih h.2,
        List.reverse_cons, List.append_assoc, List.singleton_append]

theorem endLine_isPrefix (line : List Char) : endLine line <+: line.reverse := by
  unfold endLine
  split
  · rw [List.reverse_cons]
    exact List.prefix_append _ _
  · exact List.prefix_refl _

/-- The lines of a text before a line feed: one that starts like the text, and others out of
what comes later. -/
theorem linesFrom_append_lineFeed (line s rest : List Char) :
    ∃ first others, linesFrom line (s ++ '\n' :: rest) = (first :: others) ++ lines rest ∧
      first <+: line.reverse ++ s ∧ ∀ other ∈ others, other ⊆ s := by
  induction s generalizing line with
  | nil =>
      refine ⟨endLine line, [], ?_, ?_, fun _ h => absurd h List.not_mem_nil⟩
      · rw [List.nil_append, linesFrom, if_pos rfl]
        rfl
      · rw [List.append_nil]
        exact endLine_isPrefix line
  | cons c s ih =>
      rw [List.cons_append, linesFrom]
      split
      · obtain ⟨first, others, heq, hfirst, hothers⟩ := ih []
        refine ⟨endLine line, first :: others, by rw [heq]; rfl, ?_, ?_⟩
        · exact (endLine_isPrefix line).trans (List.prefix_append _ _)
        · intro other hother
          rcases List.mem_cons.1 hother with rfl | hother
          · exact fun x hx => List.mem_cons_of_mem _ (hfirst.subset hx)
          · exact fun x hx => List.mem_cons_of_mem _ (hothers other hother hx)
      · obtain ⟨first, others, heq, hfirst, hothers⟩ := ih (c :: line)
        refine ⟨first, others, heq, ?_, ?_⟩
        · rwa [List.reverse_cons, List.append_assoc, List.singleton_append] at hfirst
        · exact fun other hother x hx => List.mem_cons_of_mem _ (hothers other hother hx)

theorem lines_line {l : List Char} (hfeed : '\n' ∉ l) (hreturn : l.getLast? ≠ some '\r')
    (rest : List Char) : lines (l ++ '\n' :: rest) = l :: lines rest := by
  rw [lines, linesFrom_append hfeed, List.append_nil, linesFrom, if_pos rfl, lines]
  congr 1
  unfold endLine
  split
  · next line heq =>
    refine absurd ?_ hreturn
    rw [← List.head?_reverse, heq]
    rfl
  · rw [List.reverse_reverse]

end Text

namespace Header

/-! ## The line of the fingerprint -/

/-- A text of lines, each of them ended. -/
def unlines (lines : List String) : List Char := lines.flatMap fun l => l.toList ++ ['\n']

theorem unlines_cons (l : String) (lines : List String) :
    unlines (l :: lines) = l.toList ++ '\n' :: unlines lines := by
  rw [unlines, List.flatMap_cons, List.append_assoc]
  rfl

theorem unlines_append (lines lines' : List String) :
    unlines (lines ++ lines') = unlines lines ++ unlines lines' := List.flatMap_append

theorem toList_join_lines (lines : List String) :
    (String.join (lines.map (· ++ "\n"))).toList = unlines lines := by
  have hfold : ∀ (acc : String) (lines : List String),
      ((lines.map (· ++ "\n")).foldl (· ++ ·) acc).toList = acc.toList ++ unlines lines := by
    intro acc lines
    induction lines generalizing acc with
    | nil => exact (List.append_nil _).symm
    | cons l lines ih =>
        rw [List.map_cons, List.foldl_cons, ih, unlines_cons]
        simp
  exact hfold "" lines

/-- The lines below the fingerprint. -/
def lowerLines (maxValues : Nat) (entries : List Entry) : List String :=
  ["#pragma once", "", "#include <cstddef>", "#include <cstdint>"] ++
    (if entries.any Entry.needsLimits then ["#include <limits>"] else []) ++
    (groups entries).flatMap (groupLines (max 1 maxValues))

theorem render_eq_ok {maxValues fingerprint : Nat} {sourceName text : String}
    {entries : List Entry} :
    render maxValues sourceName fingerprint entries = .ok text ↔
      entries.forM Entry.check = .ok () ∧
        text = String.join ((s!"// auto-generated by bufproc from {sourceName}, do not edit" ::
          (fingerprintMark ++ Text.hexFixed 16 fingerprint) ::
          lowerLines maxValues entries).map (· ++ "\n")) := by
  have hlines : headLines sourceName fingerprint (entries.any Entry.needsLimits) ++
      (groups entries).flatMap (groupLines (max 1 maxValues)) =
      s!"// auto-generated by bufproc from {sourceName}, do not edit" ::
        (fingerprintMark ++ Text.hexFixed 16 fingerprint) :: lowerLines maxValues entries := by
    simp only [headLines, lowerLines, List.cons_append, List.nil_append]
  unfold render
  simp only [hlines]
  cases entries.forM Entry.check with
  | error p => simp [bind, Except.bind]
  | ok _ => simp [bind, Except.bind, pure, Except.pure, eq_comm]

theorem forM_check_eq_ok {entries : List Entry} :
    entries.forM Entry.check = .ok () ↔ ∀ e ∈ entries, e.check = .ok () := by
  induction entries with
  | nil => exact ⟨fun _ _ h => absurd h List.not_mem_nil, fun _ => rfl⟩
  | cons e entries ih =>
      rw [List.forall_mem_cons, ← ih]
      show (e.check >>= fun _ => entries.forM Entry.check) = .ok () ↔ _
      cases e.check with
      | error p => simp [bind, Except.bind]
      | ok _ => simp [bind, Except.bind]

theorem findSome?_take_append {α β : Type} {f : α → Option β} {l l' : List α} {b : β} {k : Nat}
    (hnone : ∀ a ∈ l, f a = none) (h : ((l ++ l').take k).findSome? f = some b) :
    ∃ k', (l'.take k').findSome? f = some b := by
  refine ⟨k - l.length, ?_⟩
  rw [List.take_append, List.findSome?_append] at h
  have hl : (l.take k).findSome? f = none :=
    List.findSome?_eq_none_iff.2 fun a ha => hnone a (List.mem_of_mem_take ha)
  rwa [hl, Option.none_or] at h

/-- What stands before the name of the source in a header. -/
def namePhrase : List Char := "// auto-generated by bufproc from ".toList

/-- No line that the name of a source takes part in has the mark. -/
theorem strip?_fingerprintMark_eq_none {name first : List Char} {others : List (List Char)}
    (hname : '/' ∉ name) (hfirst : first <+: namePhrase ++ name)
    (hothers : ∀ other ∈ others, other ⊆ name) :
    ∀ line ∈ first :: others, Text.strip? fingerprintMark.toList line = none := by
  have hmark : fingerprintMark.toList = '/' :: '/' :: ' ' :: 'b' ::
    "ufproc-fingerprint: ".toList := rfl
  have hphrase : namePhrase = '/' :: '/' :: ' ' :: 'a' ::
    "uto-generated by bufproc from ".toList := rfl
  intro line hline
  cases hstrip : Text.strip? fingerprintMark.toList line with
  | none => rfl
  | some rest =>
      have heq := Text.strip?_eq_some hstrip
      rw [hmark] at heq
      rcases List.mem_cons.1 hline with rfl | hline
      · obtain ⟨tail, htail⟩ := hfirst
        rw [heq, hphrase] at htail
        simp only [List.cons_append, List.cons.injEq] at htail
        exact absurd htail.2.2.2.1 (by decide)
      · exact absurd (hothers line hline (heq ▸ List.mem_cons_self)) hname

theorem toList_nameLine (sourceName : String) :
    s!"// auto-generated by bufproc from {sourceName}, do not edit".toList =
      namePhrase ++ (sourceName.toList ++ ", do not edit".toList) := by
  show ("// auto-generated by bufproc from " ++ sourceName ++ ", do not edit").toList = _
  unfold namePhrase
  generalize "// auto-generated by bufproc from " = phrase
  rw [String.toList_append, String.toList_append, List.append_assoc]

theorem toList_render {maxValues fingerprint : Nat} {sourceName text : String}
    {entries : List Entry} (h : render maxValues sourceName fingerprint entries = .ok text) :
    text.toList = (namePhrase ++ (sourceName.toList ++ ", do not edit".toList)) ++
      '\n' :: ((fingerprintMark.toList ++ (Text.hexFixed 16 fingerprint).toList) ++
        '\n' :: unlines (lowerLines maxValues entries)) := by
  obtain ⟨-, rfl⟩ := render_eq_ok.1 h
  rw [toList_join_lines, unlines_cons, unlines_cons, toList_nameLine]
  rw [String.toList_append]

/-- The line with the mark is the fingerprint in hexadecimal behind it. -/
theorem lines_marked (fingerprint : Nat) (rest : List Char) :
    Text.lines ((fingerprintMark.toList ++ (Text.hexFixed 16 fingerprint).toList) ++ '\n' :: rest) =
      (fingerprintMark.toList ++ (Text.hexFixed 16 fingerprint).toList) :: Text.lines rest := by
  have hdigits : ∀ d < 16, Nat.digitChar d ≠ '\n' ∧ Nat.digitChar d ≠ '\r' := by decide
  have hhex : ∀ c ∈ (Text.hexFixed 16 fingerprint).toList, c ≠ '\n' ∧ c ≠ '\r' := by
    intro c hc
    obtain ⟨d, hd, rfl⟩ := Text.exists_digitChar_of_mem_hexFixed hc
    exact hdigits d hd
  refine Text.lines_line ?_ ?_ rest
  · rw [List.mem_append, not_or]
    exact ⟨by decide, fun hmem => (hhex _ hmem).1 rfl⟩
  · rw [List.getLast?_append, List.getLast?_eq_some_getLast (Text.hexFixed_ne_nil 16 fingerprint),
      Option.some_or, ← List.getLast?_eq_some_getLast]
    exact fun heq => (hhex _ (List.mem_of_getLast? heq)).2 rfl

/-- **The fingerprint that a header records is the one that it was made with.** -/
theorem eq_of_recordedFingerprint? {maxValues fingerprint n : Nat} {sourceName text : String}
    {entries : List Entry} (hname : '/' ∉ sourceName.toList) (hlt : fingerprint < 2 ^ 64)
    (hrender : render maxValues sourceName fingerprint entries = .ok text)
    (h : recordedFingerprint? text.toList = some n) : n = fingerprint := by
  have htext := toList_render hrender
  generalize unlines (lowerLines maxValues entries) = rest at htext
  have hphrase : '\n' ∉ namePhrase := by decide
  obtain ⟨first, others, hlines, hfirst, hothers⟩ := Text.linesFrom_append_lineFeed
    (namePhrase.reverse) (sourceName.toList ++ ", do not edit".toList)
    ((fingerprintMark.toList ++ (Text.hexFixed 16 fingerprint).toList) ++ '\n' :: rest)
  have hall : Text.lines text.toList = (first :: others) ++
      (fingerprintMark.toList ++ (Text.hexFixed 16 fingerprint).toList) :: Text.lines rest := by
    rw [htext, Text.lines, List.append_assoc, Text.linesFrom_append hphrase, List.append_nil,
      hlines, lines_marked]
  unfold recordedFingerprint? at h
  split at h
  · cases h
  · next hex hfound =>
    have hslash : '/' ∉ sourceName.toList ++ ", do not edit".toList := by
      rw [List.mem_append, not_or]
      exact ⟨hname, by decide⟩
    rw [List.reverse_reverse] at hfirst
    rw [hall] at hfound
    obtain ⟨k, hfound⟩ :=
      findSome?_take_append (strip?_fingerprintMark_eq_none hslash hfirst hothers) hfound
    have hhex : hex = (Text.hexFixed 16 fingerprint).toList := by
      cases k with
      | zero => cases hfound
      | succ k =>
          rw [List.take_succ_cons, List.findSome?_cons, Text.strip?_append] at hfound
          exact (Option.some.inj hfound).symm
    rw [hhex, Text.unsigned?_trim_hexFixed hlt] at h
    exact (Option.some.inj h).symm

end Header

end EmbeddedBuffers
