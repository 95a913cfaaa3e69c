import EmbeddedBuffers.Text.Blank

/-!
# Cutting texts

Prefixes, suffixes, and the places where a separator stands. Main statements: the two
sides of a cut and the separator between them are the text that was cut.
-/

namespace EmbeddedBuffers.Text

/-- Splits a text at every occurrence of a character; the parts are one more than the
occurrences. -/
def splitAt (sep : Char) : List Char → List (List Char)
  | [] => [[]]
  | c :: rest =>
    if c = sep then [] :: splitAt sep rest
    else
      match splitAt sep rest with
      | [] => [[c]]
      | part :: parts => (c :: part) :: parts

/-- The two sides of the first occurrence of a character, without it. -/
def splitOnce (sep : Char) (s : List Char) : Option (List Char × List Char) :=
  match s.dropWhile (· != sep) with
  | [] => none
  | _ :: rest => some (s.takeWhile (· != sep), rest)

theorem splitOnce_eq {c : Char} {s a b : List Char} (h : splitOnce c s = some (a, b)) :
    a ++ c :: b = s := by
  unfold splitOnce at h
  split at h
  · simp at h
  · next d rest heq =>
    simp only [Option.some.injEq, Prod.mk.injEq] at h
    have hd : d = c := by
      have := List.head?_dropWhile_not (p := (· != c)) (l := s)
      rw [heq] at this
      simpa using this
    rw [hd, h.2] at heq
    rw [← h.1, ← heq, List.takeWhile_append_dropWhile]

theorem splitOnce_append {c : Char} {a : List Char} (h : c ∉ a) (b : List Char) :
    splitOnce c (a ++ c :: b) = some (a, b) := by
  have hall : ∀ d ∈ a, (d != c) = true := by
    intro d hd
    simpa using fun heq : d = c => h (heq ▸ hd)
  rw [splitOnce, List.dropWhile_append_of_pos hall, List.takeWhile_append_of_pos hall]
  simp

theorem length_lt_of_splitOnce {c : Char} {s a b : List Char}
    (h : splitOnce c s = some (a, b)) : b.length < s.length := by
  unfold splitOnce at h
  split at h
  · simp at h
  · next rest heq =>
    simp only [Option.some.injEq, Prod.mk.injEq] at h
    have := (List.dropWhile_sublist (· != c) (l := s)).length_le
    rw [heq, h.2] at this
    simp only [List.length_cons] at this
    omega

/-- What follows `lead`, when a text starts with it. -/
def strip? : List Char → List Char → Option (List Char)
  | [], s => some s
  | _ :: _, [] => none
  | a :: lead, b :: s => if a = b then strip? lead s else none

theorem strip?_eq_some {lead s rest : List Char} (h : strip? lead s = some rest) :
    s = lead ++ rest := by
  induction lead generalizing s with
  | nil => simp_all [strip?]
  | cons a lead ih =>
    cases s with
    | nil => simp [strip?] at h
    | cons b s =>
      simp only [strip?] at h
      split at h
      · next hab => rw [hab, ih h, List.cons_append]
      · simp at h

theorem strip?_append (lead rest : List Char) : strip? lead (lead ++ rest) = some rest := by
  induction lead with
  | nil => rfl
  | cons c lead ih => rw [List.cons_append, strip?, if_pos rfl, ih]

/-- What stands before `tail`, when a text ends with it. -/
def stripEnd? (tail s : List Char) : Option (List Char) :=
  (strip? tail.reverse s.reverse).map List.reverse

theorem stripEnd?_eq_some {tail s rest : List Char} (h : stripEnd? tail s = some rest) :
    s = rest ++ tail := by
  obtain ⟨r, hr, rfl⟩ := Option.map_eq_some_iff.1 h
  have := congrArg List.reverse (strip?_eq_some hr)
  simpa using this

theorem stripEnd?_append (s tail : List Char) : stripEnd? tail (s ++ tail) = some s := by
  rw [stripEnd?, List.reverse_append, strip?_append, Option.map_some, List.reverse_reverse]

/-- The two sides of the first occurrence of a non-empty text, without it. -/
def splitAtText (sep : List Char) : List Char → Option (List Char × List Char)
  | [] => if sep.isEmpty then some ([], []) else none
  | c :: s =>
    match strip? sep (c :: s) with
    | some after => some ([], after)
    | none => (splitAtText sep s).map fun (before, after) => (c :: before, after)

theorem splitAtText_eq {sep s a b : List Char} (h : splitAtText sep s = some (a, b)) :
    a ++ sep ++ b = s := by
  induction s generalizing a b with
  | nil =>
    simp only [splitAtText] at h
    split at h <;> simp_all
  | cons c s ih =>
    simp only [splitAtText] at h
    split at h
    · next after hs =>
      simp only [Option.some.injEq, Prod.mk.injEq] at h
      rw [← h.1, ← h.2, strip?_eq_some hs, List.nil_append]
    · obtain ⟨⟨x, y⟩, hx, hxy⟩ := Option.map_eq_some_iff.1 h
      simp only [Prod.mk.injEq] at hxy
      rw [← hxy.1, ← hxy.2, List.cons_append, List.cons_append, ih hx]

end EmbeddedBuffers.Text
