import Mathlib.Data.List.GetD
import EmbeddedBuffers.Proofs.Source.ByteNames
import EmbeddedBuffers.Proofs.Source.Positions

/-!
# The starts of lines

Positions can be found without walking over the text: the offsets at which its lines start are
listed once, and the line of an offset is searched among them by halves. A hit is the first place
of a line, and a miss is inside the line that starts in front of it. Main statements:
`lineAt_eq_countP` and `location_eq`.
-/

namespace EmbeddedBuffers.LineStarts

/-! ## Bisection -/

/-- Searches an ascending list between two places: the place of a number, or the place where it is
missing. -/
def bisect (xs : List Nat) (x lo hi : Nat) : Except Nat Nat :=
  if lo < hi then
    let mid := lo + (hi - lo) / 2
    if xs.getD mid 0 = x then .ok mid
    else if xs.getD mid 0 < x then bisect xs x (mid + 1) hi
    else bisect xs x lo mid
  else .error lo
termination_by hi - lo

/-- The number of the line that an offset is in, by the starts of the lines. -/
def lineAt (starts : List Nat) (offset : Nat) : Nat :=
  match bisect starts offset 0 starts.length with
  | .ok place => place + 1
  | .error place => place

variable {xs : List Nat} {x : Nat}

/-- A place that divides a list into what is at most a number and what is beyond it. -/
theorem countP_eq_of_divides {place : Nat} (hplace : place ≤ xs.length)
    (hlow : ∀ y ∈ xs.take place, y ≤ x) (hhigh : ∀ y ∈ xs.drop place, x < y) :
    xs.countP (· ≤ x) = place := by
  rw [← List.take_append_drop place xs, List.countP_append,
    List.countP_eq_length.2 (by simpa using hlow), List.countP_eq_zero.2 (by simpa using hhigh),
    List.length_take_of_le hplace, Nat.add_zero]

/-- In front of the part that is searched there are only smaller numbers, and behind it only
greater ones. -/
theorem bisect_eq_countP (hs : xs.Pairwise (· < ·)) {lo hi : Nat} (hlohi : lo ≤ hi)
    (hhi : hi ≤ xs.length) (hlow : ∀ y ∈ xs.take lo, y < x) (hhigh : ∀ y ∈ xs.drop hi, x < y) :
    (match bisect xs x lo hi with
      | .ok place => place + 1
      | .error place => place) = xs.countP (· ≤ x) := by
  have hsplit : ∀ {place : Nat} (hlt : place < xs.length),
      (∀ y ∈ xs.take place, y < xs[place]) ∧ ∀ y ∈ xs.drop (place + 1), xs[place] < y := by
    intro place hlt
    have hcut := List.take_append_drop place xs
    rw [List.drop_eq_getElem_cons hlt] at hcut
    rw [← hcut, List.pairwise_append, List.pairwise_cons] at hs
    exact ⟨fun y hy => hs.2.2 y hy _ List.mem_cons_self, hs.2.1.1⟩
  fun_induction bisect xs x lo hi with
  | case1 lo hi hlt mid heq =>
      have hmid : mid < xs.length := by omega
      have hget : xs[mid] = x := by rwa [List.getD_eq_getElem _ _ hmid] at heq
      obtain ⟨hless, hgreater⟩ := hsplit hmid
      refine (countP_eq_of_divides hmid (fun y hy => ?_) (hget ▸ hgreater)).symm
      rw [List.take_add_one, List.getElem?_eq_getElem hmid, List.mem_append] at hy
      rcases hy with hy | hy
      · exact hget ▸ Nat.le_of_lt (hless y hy)
      · exact Nat.le_of_eq ((List.mem_singleton.1 hy).trans hget)
  | case2 lo hi hlt mid hne hless ih =>
      have hmid : mid < xs.length := by omega
      rw [List.getD_eq_getElem _ _ hmid] at hless
      refine ih (by omega) hhi (fun y hy => ?_) hhigh
      rw [List.take_add_one, List.getElem?_eq_getElem hmid, List.mem_append] at hy
      rcases hy with hy | hy
      · exact Nat.lt_trans ((hsplit hmid).1 y hy) hless
      · exact List.mem_singleton.1 hy ▸ hless
  | case3 lo hi hlt mid hne hnot ih =>
      have hmid : mid < xs.length := by omega
      rw [List.getD_eq_getElem _ _ hmid] at hne hnot
      refine ih (by omega) (by omega) hlow (fun y hy => ?_)
      rw [List.drop_eq_getElem_cons hmid, List.mem_cons] at hy
      rcases hy with rfl | hy
      · omega
      · exact Nat.lt_of_le_of_lt (Nat.le_of_not_lt hnot) ((hsplit hmid).2 y hy)
  | case4 lo hi hge =>
      obtain rfl : lo = hi := by omega
      exact (countP_eq_of_divides hhi (fun y hy => Nat.le_of_lt (hlow y hy)) hhigh).symm

/-- **The line of an offset is the number of lines that start at it or in front of it.** -/
theorem lineAt_eq_countP (hs : xs.Pairwise (· < ·)) (x : Nat) :
    lineAt xs x = xs.countP (· ≤ x) := by
  refine bisect_eq_countP hs (Nat.zero_le _) (Nat.le_refl _) ?_ ?_
  · rw [List.take_zero]
    exact List.forall_mem_nil _
  · rw [List.drop_length]
    exact List.forall_mem_nil _

/-! ## Line feeds among bytes -/

/-- The offsets behind the line feeds among some bytes, of which the first has the offset
`offset`. -/
def feedEnds (offset : Nat) : List UInt8 → List Nat
  | [] => []
  | b :: rest =>
    if b = 10 then (offset + 1) :: feedEnds (offset + 1) rest else feedEnds (offset + 1) rest

/-- The bytes of a text. -/
def utf8Bytes (text : List Char) : List UInt8 := text.flatMap String.utf8EncodeChar

/-- The offsets at which the lines of a text start. -/
def ofText (text : List Char) : List Nat := 0 :: feedEnds 0 (utf8Bytes text)

theorem feedEnds_append (offset : Nat) (a b : List UInt8) :
    feedEnds offset (a ++ b) = feedEnds offset a ++ feedEnds (offset + a.length) b := by
  induction a generalizing offset with
  | nil => rfl
  | cons c a ih =>
      rw [List.cons_append, feedEnds, feedEnds, ih, List.length_cons, Nat.add_comm a.length,
        ← Nat.add_assoc]
      split <;> rfl

theorem lt_of_mem_feedEnds {offset y : Nat} {s : List UInt8} (h : y ∈ feedEnds offset s) :
    offset < y ∧ y ≤ offset + s.length := by
  induction s generalizing offset with
  | nil => cases h
  | cons b s ih =>
      rw [List.length_cons]
      have hrest : y ∈ feedEnds (offset + 1) s → offset < y ∧ y ≤ offset + (s.length + 1) := by
        intro hy
        have hbounds := ih hy
        omega
      unfold feedEnds at h
      split at h
      · rcases List.mem_cons.1 h with rfl | hy
        · omega
        · exact hrest hy
      · exact hrest h

theorem pairwise_feedEnds (offset : Nat) (s : List UInt8) :
    (feedEnds offset s).Pairwise (· < ·) := by
  induction s generalizing offset with
  | nil => exact .nil
  | cons b s ih =>
      unfold feedEnds
      split
      · exact .cons (fun y hy => (lt_of_mem_feedEnds hy).1) (ih _)
      · exact ih _

theorem feedEnds_eq_nil {s : List UInt8} (h : 10 ∉ s) (offset : Nat) : feedEnds offset s = [] := by
  induction s generalizing offset with
  | nil => rfl
  | cons b s ih =>
      rw [List.mem_cons, not_or] at h
      rw [feedEnds, if_neg fun heq => h.1 heq.symm, ih h.2]

/-- Only a line feed has the byte of one. -/
theorem feedEnds_utf8EncodeChar (offset : Nat) (c : Char) :
    feedEnds offset (String.utf8EncodeChar c) = if c = '\n' then [offset + 1] else [] := by
  split
  · next hc =>
    subst hc
    rfl
  · next hc =>
    refine feedEnds_eq_nil (fun hmem => ?_) offset
    have hfeed : '\n' ∈ Source.byteChars c := List.mem_map_of_mem hmem
    by_cases hlt : c.toNat < 128
    · rw [Source.byteChars_of_lt hlt, List.mem_singleton] at hfeed
      exact hc hfeed.symm
    · obtain ⟨lead, more, heq, -, hlead, -, hmore⟩ := Source.exists_byteChars (Nat.le_of_not_lt hlt)
      rw [heq, List.mem_cons] at hfeed
      rcases hfeed with rfl | hfeed
      · exact absurd hlead (by decide)
      · exact absurd (hmore _ hfeed).1 (by decide)

theorem length_utf8Bytes (text : List Char) : (utf8Bytes text).length = byteLength text := by
  induction text with
  | nil => rfl
  | cons c text ih =>
      rw [utf8Bytes, List.flatMap_cons, List.length_append, String.length_utf8EncodeChar,
        byteLength_cons]
      exact congrArg _ ih

theorem length_feedEnds (offset : Nat) (text : List Char) :
    (feedEnds offset (utf8Bytes text)).length = text.count '\n' := by
  induction text generalizing offset with
  | nil => rfl
  | cons c text ih =>
      rw [utf8Bytes, List.flatMap_cons, feedEnds_append, feedEnds_utf8EncodeChar,
        List.length_append, ← utf8Bytes, ih, List.count_cons]
      by_cases hc : c = '\n' <;> simp [hc, Nat.add_comm]

/-! ## Starts of lines -/

theorem pairwise_ofText (text : List Char) : (ofText text).Pairwise (· < ·) :=
  .cons (fun _ hy => (lt_of_mem_feedEnds hy).1) (pairwise_feedEnds _ _)

variable {before after : List Char} {offset : Nat}

theorem ofText_append (before after : List Char) : ofText (before ++ after) =
    ofText before ++ feedEnds (byteLength before) (utf8Bytes after) := by
  rw [ofText, utf8Bytes, List.flatMap_append, feedEnds_append, Nat.zero_add]
  show 0 :: (_ ++ feedEnds (utf8Bytes before).length _) = _
  rw [length_utf8Bytes]
  rfl

theorem length_ofText (text : List Char) : (ofText text).length = 1 + text.count '\n' := by
  rw [ofText, List.length_cons, length_feedEnds, Nat.add_comm]

theorem le_of_mem_ofText {text : List Char} {y : Nat} (h : y ∈ ofText text) :
    y ≤ byteLength text := by
  rcases List.mem_cons.1 h with rfl | hy
  · exact Nat.zero_le _
  · have hle := (lt_of_mem_feedEnds hy).2
    rwa [length_utf8Bytes, Nat.zero_add] at hle

/-- The line of an offset that no line in front of `after` reaches behind. -/
theorem lineAt_ofText (hle : byteLength before ≤ offset)
    (hlt : ∀ y ∈ feedEnds (byteLength before) (utf8Bytes after), offset < y) :
    lineAt (ofText (before ++ after)) offset = 1 + before.count '\n' := by
  rw [lineAt_eq_countP (pairwise_ofText _), ofText_append, List.countP_append,
    List.countP_eq_length.2, List.countP_eq_zero.2, length_ofText, Nat.add_zero]
  · intro y hy
    have hy := hlt y hy
    simpa using hy
  · intro y hy
    have hy := le_of_mem_ofText hy
    simpa using Nat.le_trans hy hle

/-- The last line of a text starts where what is in front of it ends. -/
theorem getD_ofText {front : List Char}
    (hfront : front = [] ∨ ∃ front', front = front' ++ ['\n']) (after : List Char) :
    (ofText (front ++ after)).getD (front.count '\n') 0 = byteLength front := by
  have hlength := length_ofText front
  rw [ofText_append, List.getD_append _ _ _ _ (by omega)]
  rcases hfront with rfl | ⟨front', rfl⟩
  · rfl
  · have hcount : (front' ++ ['\n']).count '\n' = (ofText front').length := by
      rw [List.count_append, length_ofText, Nat.add_comm]
      rfl
    rw [hcount, ofText_append, List.getD_append_right _ _ _ _ (Nat.le_refl _), Nat.sub_self,
      byteLength_append]
    rfl

/-! ## Positions -/

/-- The two sides of a byte offset of a text, if no character lies across it. -/
def splitAtByte? (offset : Nat) (s : List Char) : Option (List Char × List Char) :=
  if offset = 0 then some ([], s)
  else
    match s with
    | [] => none
    | c :: rest =>
      if c.utf8Size ≤ offset then
        (splitAtByte? (offset - c.utf8Size) rest).map fun (a, b) => (c :: a, b)
      else none

/-- The text between two byte offsets, if no character lies across one of them. -/
def slice? (text : List Char) (a b : Nat) : Option (List Char) := do
  let (_, rest) ← splitAtByte? a text
  let (piece, _) ← splitAtByte? (b - a) rest
  return piece

/-- The position of an offset, by the starts of the lines. An offset behind the text is taken for
its end, and one inside a character has the first column. -/
def location (starts : List Nat) (text : List Char) (offset : Nat) : Position :=
  let offset := min offset (byteLength text)
  let line := lineAt starts offset
  let start := starts.getD (line - 1) 0
  ⟨offset, line, ((slice? text start offset).map List.length).getD 0 + 1⟩

theorem splitAtByte?_byteLength (before after : List Char) :
    splitAtByte? (byteLength before) (before ++ after) = some (before, after) := by
  induction before with
  | nil =>
      rw [splitAtByte?.eq_def, if_pos (show byteLength [] = 0 from rfl)]
      rfl
  | cons c before ih =>
      have hpos := Char.utf8Size_pos c
      rw [byteLength_cons, List.cons_append, splitAtByte?, if_neg (by omega)]
      dsimp only
      rw [if_pos (Nat.le_add_right _ _), Nat.add_sub_cancel_left, ih]
      rfl

theorem splitAtByte?_inside {c : Char} (hlt : byteLength before < offset)
    (hlt' : offset < byteLength before + c.utf8Size) :
    splitAtByte? offset (before ++ c :: after) = none := by
  induction before generalizing offset with
  | nil =>
      have hzero : byteLength [] = 0 := rfl
      rw [List.nil_append, splitAtByte?, if_neg (by omega)]
      dsimp only
      rw [if_neg (by omega)]
  | cons d before ih =>
      rw [byteLength_cons] at hlt hlt'
      rw [List.cons_append, splitAtByte?, if_neg (by omega)]
      dsimp only
      rw [if_pos (by omega), ih (by omega) (by omega)]
      rfl

theorem slice?_byteLength (front line after : List Char) :
    slice? (front ++ line ++ after) (byteLength front) (byteLength (front ++ line)) =
      some line := by
  rw [slice?, List.append_assoc, splitAtByte?_byteLength, byteLength_append,
    Nat.add_sub_cancel_left]
  show (splitAtByte? (byteLength line) (line ++ after) >>= _) = _
  rw [splitAtByte?_byteLength]
  rfl

theorem location_byteLength (before after : List Char) :
    location (ofText (before ++ after)) (before ++ after) (byteLength before) =
      ⟨byteLength before, 1 + before.count '\n', 1 + lastLineLength before⟩ := by
  have hle : byteLength before ≤ byteLength (before ++ after) := by
    rw [byteLength_append]
    exact Nat.le_add_right _ _
  obtain ⟨front, line, rfl, hfeed, hlength, hfront⟩ := exists_lastLine before
  have hcount : (front ++ line).count '\n' = front.count '\n' := by
    rw [List.count_append, List.count_eq_zero_of_not_mem hfeed, Nat.add_zero]
  unfold location
  dsimp only
  rw [Nat.min_eq_left hle, lineAt_ofText (Nat.le_refl _) fun y hy => (lt_of_mem_feedEnds hy).1,
    Nat.add_sub_cancel_left, hcount, List.append_assoc, getD_ofText hfront, ← List.append_assoc,
    slice?_byteLength, Option.map_some, Option.getD_some, hlength,
    Nat.add_comm 1 (lastLineLength _)]

theorem location_inside {c : Char} (hlt : byteLength before < offset)
    (hlt' : offset < byteLength before + c.utf8Size) :
    location (ofText (before ++ c :: after)) (before ++ c :: after) offset =
      ⟨offset, 1 + before.count '\n', 1⟩ := by
  have hle : offset ≤ byteLength (before ++ c :: after) := by
    rw [byteLength_append, byteLength_cons]
    omega
  have hc : c ≠ '\n' := by
    rintro rfl
    have hone : ('\n' : Char).utf8Size = 1 := rfl
    omega
  have hbehind : ∀ y ∈ feedEnds (byteLength before) (utf8Bytes (c :: after)), offset < y := by
    intro y hy
    rw [utf8Bytes, List.flatMap_cons, feedEnds_append, feedEnds_utf8EncodeChar, if_neg hc,
      List.nil_append, String.length_utf8EncodeChar] at hy
    exact Nat.lt_trans hlt' (lt_of_mem_feedEnds hy).1
  obtain ⟨front, line, rfl, hfeed, -, hfront⟩ := exists_lastLine before
  have hcount : (front ++ line).count '\n' = front.count '\n' := by
    rw [List.count_append, List.count_eq_zero_of_not_mem hfeed, Nat.add_zero]
  rw [byteLength_append] at hlt hlt'
  have hslice : slice? (front ++ (line ++ c :: after)) (byteLength front) offset = none := by
    rw [slice?, splitAtByte?_byteLength]
    show (splitAtByte? (offset - byteLength front) (line ++ c :: after) >>= _) = _
    rw [splitAtByte?_inside (by omega) (by omega)]
    rfl
  unfold location
  dsimp only
  rw [Nat.min_eq_left hle, lineAt_ofText (by rw [byteLength_append]; omega) hbehind,
    Nat.add_sub_cancel_left, hcount, List.append_assoc, getD_ofText hfront, hslice]
  rfl

/-- **The starts of the lines give the positions of all offsets.** -/
theorem location_eq (text : List Char) (offset : Nat) :
    location (ofText text) text offset = Position.ofOffset text offset := by
  obtain hend | ⟨before, c, after, rfl, hle, hlt⟩ := exists_cut text offset
  · have hlocation := location_byteLength text []
    rw [List.append_nil] at hlocation
    rw [Position.ofOffset_of_le hend, Position.past_start, ← hlocation]
    unfold location
    rw [Nat.min_eq_right hend, Nat.min_self]
  · obtain hlt' | rfl := Nat.lt_or_eq_of_le hle
    · rw [location_inside hlt' hlt, Position.ofOffset_inside hlt' hlt]
    · rw [location_byteLength, Position.ofOffset_byteLength]

end EmbeddedBuffers.LineStarts
