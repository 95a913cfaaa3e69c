import EmbeddedBuffers.Production.Data
import EmbeddedBuffers.Proofs.Codec.ElementBytes
import EmbeddedBuffers.Proofs.Source.Parts
import EmbeddedBuffers.Proofs.Text.Integers

/-!
# Values that stand in a declaration

An integer, a character between quotes, and `true` and `false`: how each of them is written, the
number that it means, and the number that it is read as. An integer is read as a signed word, and a
blank between quotes as a space, since the blanks of an argument are squeezed first. Main
statements: `Scalar.valueBytes_eq`, by which the number that is read is packed or refused,
`Scalar.fits_read`, by which it stands for the number that is meant, and `Scalar.misread_iff` on the
values for which it does not.
-/

namespace EmbeddedBuffers

open Elements (twosComplement)

namespace Source

/-! ## Characters between quotes -/

/-- A character of ASCII that stands between quotes as itself. -/
def IsCharacter (c : Char) : Prop := c.toNat < 128 ∧ c ∉ ['\'', '\\', '\n', '\r']

instance (c : Char) : Decidable (IsCharacter c) := inferInstanceAs (Decidable (_ ∧ _))

variable {c : Char}

theorem IsCharacter.ne (h : IsCharacter c) : c ≠ '\'' ∧ c ≠ '\\' ∧ c ≠ '\n' := by
  have hne := h.2
  simp only [List.mem_cons, List.not_mem_nil, or_false, not_or] at hne
  exact ⟨hne.1, hne.2.1, hne.2.2.1⟩

theorem split?_character (h : IsCharacter c) (rest : List Char) :
    Literal.split? (['\'', c, '\''] ++ rest) = some (['\'', c, '\''], rest) := by
  obtain ⟨hquote, hbackslash, hfeed⟩ := h.ne
  have hbody : Literal.plainBody '\'' (c :: '\'' :: rest) = ([c, '\''], rest) := by
    rw [Literal.plainBody.eq_def]
    simp [hquote, hbackslash, hfeed, Literal.plainBody]
  unfold Literal.split?
  simp [Literal.rawMarks, Literal.plainMarks, Literal.rawAfter?, Literal.plainAfter?, Text.strip?,
    hbody]

theorem cut_character (h : IsCharacter c) (opened rest : List Char) :
    Argument.cut opened false (['\'', c, '\''] ++ rest) =
      (Argument.cut opened false rest).map (Argument.extendFirst ['\'', c, '\'']) := by
  have hsplit := split?_character h rest
  rw [List.cons_append] at hsplit ⊢
  rw [Argument.cut.eq_def]
  dsimp only
  split
  · next heq =>
    rw [if_neg Bool.false_ne_true, hsplit] at heq
    cases heq
    rfl
  · next heq =>
    rw [if_neg Bool.false_ne_true, hsplit] at heq
    cases heq

end Source

open Source

namespace Production

/-- A value as it is written. -/
inductive Scalar
  | integer (text : List Char) (z : Int) (h : Text.IsInteger text z)
      (hascii : ∀ c ∈ text, c.toNat < 128)
  | character (c : Char) (h : IsCharacter c)
  | truth (b : Bool)

namespace Scalar

def text : Scalar → List Char
  | .integer text _ _ _ => text
  | .character c _ => ['\'', c, '\'']
  | .truth b => (if b then "true" else "false").toList

/-- The number that is meant. -/
def value : Scalar → Int
  | .integer _ z _ _ => z
  | .character c _ => c.toNat
  | .truth b => b.toNat

/-- The number that is read. -/
def read : Scalar → Int
  | .integer _ z _ _ => z.bmod (2 ^ 64)
  | .character c _ => if Text.isBlank c then 32 else c.toNat
  | .truth b => b.toNat

/-- The text with its blanks squeezed. -/
def shown (s : Scalar) : List Char := Text.squeeze s.text

def argument (s : Scalar) : Argument := .words (String.ofList s.shown)

/-! ## Arguments -/

theorem isQuiet_of_isInteger {text : List Char} {z : Int} (h : Text.IsInteger text z)
    (hascii : ∀ c ∈ text, c.toNat < 128) : ∀ c ∈ text, isQuiet c = true := by
  obtain ⟨front, negative, literal, n, rfl, hfront, hliteral, -⟩ := h
  intro c hc
  have hlt := hascii c hc
  rcases List.mem_append.1 hc with hc | hc
  · cases hfront with
    | none => cases hc
    | plus =>
        rw [List.mem_singleton.1 hc]
        decide
    | minus hblanks =>
        rcases List.mem_cons.1 hc with rfl | hc
        · decide
        · refine isQuiet_of_isNarrowBlank ?_
          rw [isNarrowBlank, hblanks c hc, decide_eq_true hlt]
          rfl
  · exact isQuiet_of_isPlain (isPlain_of_isNameChar (hliteral.isNameChar c hc))

theorem uncut (s : Scalar) (after : Blanks) : Uncut (s.text ++ after.text) := by
  have hquiet (h : ∀ c ∈ s.text, isQuiet c = true) : Uncut (s.text ++ after.text) :=
    uncut_quiet (List.forall_mem_append.2
      ⟨h, fun c hc => isQuiet_of_isNarrowBlank (after.narrow c hc)⟩)
  cases s with
  | integer text z h hascii => exact hquiet (isQuiet_of_isInteger h hascii)
  | truth b => exact hquiet (by cases b <;> decide)
  | character c h =>
      intro opened rest _
      rw [text, List.append_assoc, cut_character h, cut_blanks after.narrow, map_extendFirst]

theorem trimmed_text (s : Scalar) : Text.Trimmed s.text := by
  cases s with
  | integer text z h _ => exact h.trimmed
  | truth b => exact Text.trimmed_of_all (by cases b <;> decide)
  | character c _ =>
      have hquote : Text.Trimmed ['\''] := Text.trimmed_of_all (by decide)
      exact Text.trimmed_append hquote hquote (List.cons_ne_nil _ _) (List.cons_ne_nil _ _) [c]

/-- What a value starts with is no brace, and no literal starts there but a character. -/
theorem head_text (s : Scalar) : s.text ≠ [] ∧ s.text.head? ≠ some '\x7b' ∧
    (s.text.head? = some '\'' ∨ Literal.split? s.text = none) := by
  have hquiet {c : Char} {rest : List Char} (htext : s.text = c :: rest)
      (h : ∀ c ∈ s.text, isQuiet c = true) : s.text ≠ [] ∧ s.text.head? ≠ some '\x7b' ∧
        (s.text.head? = some '\'' ∨ Literal.split? s.text = none) := by
    have hsplit : Literal.split? (s.text ++ []) = none := split?_eq_none_of_separated
      (fun c hc => ⟨(ne_of_isQuiet (h c hc)).2.1, (ne_of_isQuiet (h c hc)).2.2.1⟩) separated_nil
    rw [List.append_nil] at hsplit
    refine ⟨by rw [htext]; exact List.cons_ne_nil _ _, fun hhead => ?_, Or.inr hsplit⟩
    exact absurd (h '\x7b' (List.mem_of_mem_head? hhead)) (by decide)
  cases s with
  | integer text z h hascii =>
      obtain ⟨c, rest, hcons, -⟩ := h.exists_cons
      exact hquiet hcons (isQuiet_of_isInteger h hascii)
  | truth b =>
      obtain ⟨c, rest, hcons⟩ : ∃ c rest, (truth b).text = c :: rest := by
        cases b
        · exact ⟨'f', _, rfl⟩
        · exact ⟨'t', _, rfl⟩
      exact hquiet hcons (by cases b <;> decide)
  | character c _ => exact ⟨List.cons_ne_nil _ _, by simp [text], Or.inl rfl⟩

/-- A value, blanks around it being allowed, is an argument of bare words. -/
def part (before : Blanks) (s : Scalar) (after : Blanks) : Part where
  text := before.text ++ (s.text ++ after.text)
  argument := s.argument
  uncut := (s.uncut after).before before
  read := by
    have htrim := Text.trim_append s.trimmed_text before.isBlank after.isBlank
    obtain ⟨hne, hbrace, hliteral⟩ := s.head_text
    rw [← List.append_assoc, Operand.read_words htrim hne hbrace hliteral]
    rfl

/-! ## Reading -/

/-- Between quotes a blank becomes a space. -/
theorem shown_character {c : Char} (h : IsCharacter c) :
    (character c h).shown = ['\'', if Text.isBlank c then ' ' else c, '\''] := by
  show Text.squeeze ['\'', c, '\''] = _
  cases hc : Text.isBlank c with
  | true =>
      have hwords : Text.words (['\''] ++ c :: ['\'']) = [['\''], ['\'']] := by
        rw [Text.words_append_blank (List.cons_ne_nil _ _) (by decide) hc]
        rfl
      rw [Text.squeeze, show ['\'', c, '\''] = ['\''] ++ c :: ['\''] from rfl, hwords]
      rfl
  | false =>
      exact Text.squeeze_word (List.cons_ne_nil _ _)
        (List.forall_mem_cons.2 ⟨by decide, List.forall_mem_cons.2 ⟨hc, by decide⟩⟩)

theorem shown_truth (b : Bool) : (truth b).shown = (truth b).text := by cases b <;> decide

theorem trimmed_shown (s : Scalar) : Text.Trimmed s.shown := by
  cases s with
  | integer text z h _ => exact h.squeeze.trimmed
  | truth b =>
      rw [shown_truth]
      exact trimmed_text (truth b)
  | character c h =>
      have hquote : Text.Trimmed ['\''] := Text.trimmed_of_all (by decide)
      rw [shown_character]
      exact Text.trimmed_append hquote hquote (List.cons_ne_nil _ _) (List.cons_ne_nil _ _) [_]

theorem characterCode?_quoted {c : Char} (h : IsCharacter c) :
    characterCode? ['\'', c, '\''] = some (c.toNat : Int) := by
  have hstrip : (Text.strip? ['\''] ['\'', c, '\'']).bind (Text.stripEnd? ['\'']) = some [c] :=
    Text.stripEnd?_append [c] ['\'']
  unfold characterCode?
  rw [hstrip]
  split
  · next heq =>
    cases heq
    exact absurd rfl h.ne.2.1
  · next heq =>
    cases heq
    exact if_pos h.1
  · next hnone => exact absurd rfl (hnone c)

theorem scalar?_of_isInteger {text : List Char} {z : Int} (h : Text.IsInteger text z) :
    scalar? text = some (z.bmod (2 ^ 64)) := by
  obtain ⟨c, rest, hcons, hc⟩ := h.exists_cons
  have hhead {d : Char} (hd : d ∈ ['t', 'f', '\'']) : text.head? ≠ some d := by
    rw [hcons]
    rintro ⟨⟩
    rcases hc with rfl | rfl | hc
    · exact absurd hd (by decide)
    · exact absurd hd (by decide)
    · simp only [List.mem_cons, List.not_mem_nil, or_false] at hd
      rcases hd with rfl | rfl | rfl <;> exact absurd hc (by decide)
  have htrue : text ≠ "true".toList := fun heq => hhead (d := 't') (by decide) (by rw [heq]; rfl)
  have hfalse : text ≠ "false".toList := fun heq => hhead (d := 'f') (by decide) (by rw [heq]; rfl)
  have hread := Text.integer?_of_isInteger (s := text) (by rwa [Text.trim_eq_self h.trimmed])
  rw [scalar?, if_neg htrue, if_neg hfalse, if_neg (hhead (by decide)), hread, Option.map_some,
    Int64.toInt_ofInt]

/-- **What a value is read as.** -/
theorem scalar?_shown (s : Scalar) : scalar? s.shown = some s.read := by
  cases s with
  | integer text z h _ => exact scalar?_of_isInteger h.squeeze
  | truth b =>
      rw [shown_truth]
      cases b <;> decide
  | character c h =>
      have hspace : IsCharacter ' ' := by decide
      have hother {d : Char} {word : List Char} (hword : word.head? ≠ some '\'') :
          ['\'', d, '\''] ≠ word := fun heq => hword (congrArg List.head? heq).symm
      rw [shown_character, scalar?, if_neg (hother (by decide)), if_neg (hother (by decide)),
        if_pos (show List.head? _ = some '\'' from rfl), read]
      split
      · exact characterCode?_quoted hspace
      · exact characterCode?_quoted h

/-- What is read as a number is no path. -/
theorem isPath_argument (s : Scalar) : isPath s.argument = false := by
  have hread := s.scalar?_shown
  unfold argument isPath
  dsimp only
  rw [String.toList_ofList, Text.trim_eq_self s.trimmed_shown]
  unfold scalar? at hread
  split at hread
  · next htrue => simp [htrue]
  · split at hread
    · next hfalse => simp [hfalse]
    · split at hread
      · next hquote => simp [hquote]
      · obtain ⟨n, hn, -⟩ := Option.map_eq_some_iff.1 hread
        simp [hn]

theorem width_le (t : ElementType) : t.width ≤ 8 := by cases t <;> decide

/-- **A value is packed as the number that it is read as, or refused.** -/
theorem valueBytes_eq (s : Scalar) {t : ElementType} (hfloat : t.isFloat = false)
    (typeName : String) : valueBytes t typeName s.argument =
      if fits t s.read then .ok (twosComplement t.width s.read)
      else .error (.outOfRange (String.ofList s.shown) typeName) := by
  have htrim : Text.trim s.shown = s.shown := Text.trim_eq_self s.trimmed_shown
  unfold argument valueBytes
  dsimp only
  rw [String.toList_ofList, htrim, ← Elements.toBytes_word (width_le t)]
  cases t with
  | float => cases hfloat
  | double => cases hfloat
  | _ =>
      dsimp only
      rw [scalar?_shown]

/-! ## Numbers that are meant -/

/-- The numbers that an element has room for, signed or not. -/
def HasRoom (t : ElementType) (z : Int) : Prop :=
  if t = .bool then 0 ≤ z ∧ z ≤ 1 else -2 ^ (8 * t.width - 1) ≤ z ∧ z ≤ 2 ^ (8 * t.width) - 1

instance (t : ElementType) (z : Int) : Decidable (HasRoom t z) :=
  inferInstanceAs (Decidable (ite _ _ _))

theorem fits_iff {t : ElementType} {z : Int} : fits t z = true ↔ HasRoom t z := by
  unfold HasRoom
  cases t <;> simp [fits]

/-- A number of 64 bits, signed or not, as a signed word. -/
theorem bmod_word {z : Int} (hlow : -2 ^ 63 ≤ z) (hhigh : z ≤ 2 ^ 64 - 1) :
    z < 2 ^ 63 ∧ z.bmod (2 ^ 64) = z ∨ 2 ^ 63 ≤ z ∧ z.bmod (2 ^ 64) = z - 2 ^ 64 := by
  rw [Int.bmod_def]
  split <;> omega

/-- What there is room for fits as a signed word, too. -/
theorem fits_bmod {t : ElementType} {z : Int} (h : HasRoom t z) :
    fits t (z.bmod (2 ^ 64)) = true := by
  rw [fits_iff]
  have hbmod := @bmod_word z
  generalize z.bmod (2 ^ 64) = word at hbmod ⊢
  unfold HasRoom at h ⊢
  cases t <;>
    simp only [ElementType.width, reduceCtorEq, if_true, if_false, Nat.reduceMul,
      Nat.reduceSub] at h ⊢ <;> omega

/-- The number that is read does not stand for the one that is meant: an integer fits only as a
signed word, or a blank becomes a space. -/
def Misread (t : ElementType) : Scalar → Prop
  | .integer _ z _ _ => ¬ HasRoom t z ∧ fits t (z.bmod (2 ^ 64)) = true
  | .character c _ => t ≠ .bool ∧ Text.isBlank c = true ∧ c ≠ ' '
  | .truth _ => False

instance (t : ElementType) : (s : Scalar) → Decidable (s.Misread t)
  | .integer _ _ _ _ => inferInstanceAs (Decidable (_ ∧ _))
  | .character _ _ => inferInstanceAs (Decidable (_ ∧ _))
  | .truth _ => inferInstanceAs (Decidable False)

/-- No blank has a code that a `bool` has room for. -/
theorem not_hasRoom_bool {c : Char} (h : Text.isBlank c = true) : ¬ HasRoom .bool c.toNat := by
  have hcode : 2 ≤ c.toNat := by
    simp only [Text.isBlank, Bool.or_eq_true, Bool.and_eq_true, decide_eq_true_eq,
      beq_iff_eq] at h
    omega
  intro hroom
  have hle : (c.toNat : Int) ≤ 1 := hroom.2
  omega

/-- **The number that is read stands for the one that is meant**, unless the value is misread: it
fits exactly if there is room for that one, and has its bytes. -/
theorem fits_read {s : Scalar} {t : ElementType} (h : ¬ s.Misread t) :
    (fits t s.read = true ↔ HasRoom t s.value) ∧
      (fits t s.read = true → twosComplement t.width s.read = twosComplement t.width s.value) := by
  cases s with
  | integer text z _ _ =>
      refine ⟨⟨fun hfits => ?_, fits_bmod⟩, fun _ => Elements.twosComplement_bmod (width_le t) z⟩
      exact Classical.not_not.1 fun hroom => h ⟨hroom, hfits⟩
  | truth b => exact ⟨fits_iff, fun _ => rfl⟩
  | character c _ =>
      by_cases hsame : read (character c ‹_›) = value (character c ‹_›)
      · rw [hsame]
        exact ⟨fits_iff, fun _ => rfl⟩
      · have hblank : Text.isBlank c = true := by
          by_contra hnot
          exact hsame (if_neg hnot)
        have hread : read (character c ‹_›) = (32 : Int) := if_pos hblank
        have hspace : c ≠ ' ' := by
          rintro rfl
          exact hsame rfl
        have hbool : t = .bool := by
          by_contra hnot
          exact h ⟨hnot, hblank, hspace⟩
        subst hbool
        have hfits : ¬ fits .bool (read (character c ‹_›)) = true := by
          rw [hread]
          decide
        exact ⟨iff_of_false hfits (not_hasRoom_bool hblank), fun hfalse => absurd hfalse hfits⟩

/-- A small number has the bytes of no other small number. -/
theorem eq_of_twosComplement {t : ElementType} {m n : Nat} (hm : m < 256) (hn : n < 256)
    (h : twosComplement t.width m = twosComplement t.width n) : m = n := by
  have hpow : 2 ^ (8 * t.width) = 256 ^ t.width := Nat.pow_mul 2 8 t.width
  have hroom : 256 ≤ 256 ^ t.width := Nat.le_self_pow (Nat.ne_of_gt t.width_pos) 256
  have hself : ∀ k : Nat, k < 256 → ((k : Int) % 2 ^ (8 * t.width)).toNat = k := by
    intro k hk
    rw [show (2 : Int) ^ (8 * t.width) = ((2 ^ (8 * t.width) : Nat) : Int) by push_cast; rfl,
      ← Int.natCast_emod, Int.toNat_natCast, Nat.mod_eq_of_lt (by omega)]
  rw [twosComplement, twosComplement, hself m hm, hself n hn] at h
  exact Elements.toBytes_inj (Nat.lt_of_lt_of_le hm hroom) (Nat.lt_of_lt_of_le hn hroom) h

/-- **A misread value is packed, and wrongly so**: there is no room for the number that is meant, or
it has other bytes. No other value is. -/
theorem misread_iff {s : Scalar} {t : ElementType} : s.Misread t ↔ fits t s.read = true ∧
    (HasRoom t s.value → twosComplement t.width s.read ≠ twosComplement t.width s.value) := by
  constructor
  · intro h
    cases s with
    | integer text z _ _ => exact ⟨h.2, fun hroom => absurd hroom h.1⟩
    | truth b => exact h.elim
    | character c hc =>
        obtain ⟨hbool, hblank, hspace⟩ := h
        have hread : read (character c hc) = (32 : Nat) := if_pos hblank
        refine ⟨?_, fun _ hbytes => hspace (Char.toNat_inj.1 ?_)⟩
        · rw [hread]
          cases t with
          | bool => exact absurd rfl hbool
          | _ => decide
        · rw [hread] at hbytes
          exact (eq_of_twosComplement (by decide) (Nat.lt_trans hc.1 (by decide)) hbytes).symm
  · rintro ⟨hfits, hwrong⟩
    by_contra hmeant
    obtain ⟨hroom, hbytes⟩ := fits_read hmeant
    exact hwrong (hroom.1 hfits) (hbytes hfits)

end Scalar

end Production

end EmbeddedBuffers
