import EmbeddedBuffers.Header.Basic
import EmbeddedBuffers.Proofs.Header.Recorded

/-!
# Characters of literals

No literal of a header ends its line or holds a comma, and a literal holds an angle bracket exactly
when it names `std::numeric_limits`, and then one. Main statement: `regular_of`.
-/

namespace EmbeddedBuffers

/-- What no literal holds: it neither ends a line or a value nor opens a comment. -/
def separators : List Char := ['\n', '\r', ',', '/']

/-- What is no separator and no angle bracket. -/
abbrev IsPlain (c : Char) : Prop := c ∉ separators ∧ c ≠ '<'

/-- A text without separators and angle brackets. -/
def Plain (s : List Char) : Prop := ∀ c ∈ s, IsPlain c

instance (s : List Char) : Decidable (Plain s) := inferInstanceAs (Decidable (∀ c ∈ s, _))

/-! ## Plain texts -/

section Plain

variable {s s' : List Char}

theorem plain_append : Plain (s ++ s') ↔ Plain s ∧ Plain s' := List.forall_mem_append

theorem plain_concat {a b : String} :
    Plain (a ++ b).toList ↔ Plain a.toList ∧ Plain b.toList := by
  rw [String.toList_append, plain_append]

theorem plain_cons {c : Char} : Plain (c :: s) ↔ IsPlain c ∧ Plain s :=
  List.forall_mem_cons

theorem Plain.subset (h : Plain s) (hsub : s' ⊆ s) : Plain s' := fun c hc => h c (hsub hc)

theorem Plain.separators (h : Plain s) : ∀ c ∈ separators, c ∉ s := fun c hc hmem =>
  (h c hmem).1 hc

theorem Plain.count_eq (h : Plain s) : s.count '<' = 0 :=
  List.count_eq_zero.2 fun hmem => (h _ hmem).2 rfl

theorem Plain.no_slash (h : Plain s) : '/' ∉ s := h.separators _ (by decide)

theorem plain_replicate {c : Char} (h : IsPlain c) (n : Nat) :
    Plain (List.replicate n c) := by
  intro c' hc'
  rw [List.eq_of_mem_replicate hc']
  exact h

theorem plain_toDigits {radix : Nat} (hlow : 1 < radix) (hhigh : radix ≤ 16) (n : Nat) :
    Plain (Nat.toDigits radix n) := by
  have hall : ∀ d < 16, IsPlain (Nat.digitChar d) := by decide
  intro c hc
  obtain ⟨d, hd, rfl⟩ := Text.exists_digitChar_of_mem_toDigits hlow hc
  exact hall d (Nat.lt_of_lt_of_le hd hhigh)

theorem plain_toString (n : Nat) : Plain (toString n).toList := by
  rw [Nat.toString_eq_repr, Nat.repr_eq_ofList_toDigits, String.toList_ofList]
  exact plain_toDigits (by decide) (by decide) n

theorem plain_toString_int (n : Int) : Plain (toString n).toList := by
  cases n with
  | ofNat n => exact plain_toString n
  | negSucc n =>
      show Plain ("-" ++ toString (n + 1)).toList
      rw [plain_concat]
      exact ⟨by decide, plain_toString _⟩

end Plain

namespace Header

theorem plain_hexUpper (width n : Nat) : Plain (hexUpper width n).toList := by
  have hall : ∀ d < 16, IsPlain (Nat.digitChar d).toUpper := by decide
  rw [hexUpper, String.toList_ofList]
  intro c hc
  obtain ⟨c', hc', rfl⟩ := List.mem_map.1 hc
  obtain ⟨d, hd, rfl⟩ := Text.exists_digitChar_of_mem_hexFixed hc'
  exact hall d hd

theorem plain_signedLiteral (width n : Nat) : Plain (signedLiteral width n).toList := by
  unfold signedLiteral
  dsimp only
  split
  · rw [plain_concat, plain_concat]
    exact ⟨⟨by decide, plain_hexUpper _ _⟩, by decide⟩
  · split
    · rw [plain_concat]
      exact ⟨by decide, plain_hexUpper _ _⟩
    · rw [plain_concat]
      exact ⟨by decide, plain_hexUpper _ _⟩

end Header

/-! ## Decimals -/

namespace Decimal

theorem plain_placePoint {digits : List Char} (h : Plain digits) (point : Int) :
    Plain (placePoint digits point).1 ∧ Plain (placePoint digits point).2 := by
  have hzeros : ∀ n, Plain (List.replicate n '0') := plain_replicate (by decide)
  unfold placePoint
  split
  · exact ⟨hzeros 1, plain_append.2 ⟨hzeros _, h⟩⟩
  · dsimp only
    split
    · exact ⟨plain_append.2 ⟨h, hzeros _⟩, hzeros 0⟩
    · exact ⟨h.subset (List.take_subset _ _), h.subset (List.drop_subset _ _)⟩

theorem plain_render (p : Positional) {digits : List Char} (h : Plain digits) (last : Int) :
    Plain (render p digits last) := by
  unfold render
  dsimp only
  split
  · obtain ⟨hwhole, hfraction⟩ := plain_placePoint h (last + digits.length - 1 + 1)
    refine plain_append.2 ⟨hwhole, plain_cons.2 ⟨by decide, ?_⟩⟩
    split
    · decide
    · exact hfraction
  · refine plain_append.2 ⟨plain_append.2 ⟨h.subset (List.take_subset _ _), ?_⟩,
      plain_cons.2 ⟨by decide, plain_toString_int _⟩⟩
    split
    · decide
    · exact plain_cons.2 ⟨by decide, h.subset (List.drop_subset _ _)⟩

theorem plain_renderWith (f : BinaryFormat) (p : Positional) (bits : Nat) :
    Plain (f.renderWith p bits).toList := by
  have hsign : ∀ negative : Bool, Plain (if negative then "-" else "").toList := by decide
  unfold BinaryFormat.renderWith
  dsimp only
  split
  · decide
  · rw [plain_concat]
    exact ⟨hsign _, by decide⟩
  · split
    · rw [plain_concat]
      exact ⟨hsign _, by decide⟩
    · rw [plain_concat, String.toList_ofList]
      exact ⟨hsign _, plain_render p (plain_toDigits (by decide) (by decide) _) _⟩

end Decimal

/-! ## Values -/

namespace Header

/-- A value on one line, which holds an angle bracket when it names `std::numeric_limits`. -/
structure Value.Regular (v : Value) : Prop where
  separators : ∀ c ∈ separators, c ∉ v.text.toList
  count_eq : v.text.toList.count '<' = if v.needsLimits then 1 else 0

theorem Value.regular_of_plain {text : String} (h : Plain text.toList) :
    Value.Regular ⟨text, false⟩ := ⟨h.separators, h.count_eq⟩

/-- A name in angle brackets, of which the text before it ends with the first. -/
theorem Value.regular_limits {before name after : String}
    (hbefore : (∀ c ∈ separators, c ∉ before.toList) ∧ before.toList.count '<' = 1)
    (hname : Plain name.toList) (hafter : Plain after.toList) :
    Value.Regular ⟨before ++ name ++ after, true⟩ := by
  obtain ⟨hsep, hcount⟩ := hbefore
  refine ⟨fun c hc => ?_, ?_⟩
  · rw [String.toList_append, String.toList_append, List.mem_append, List.mem_append, not_or, not_or]
    exact ⟨⟨hsep c hc, hname.separators c hc⟩, hafter.separators c hc⟩
  · rw [String.toList_append, String.toList_append, List.count_append, List.count_append, hcount,
      hname.count_eq, hafter.count_eq]
    rfl

theorem Value.regular_floatLiteral (format : Decimal.BinaryFormat) {typeName mark : String}
    (hname : Plain typeName.toList) (hmark : Plain mark.toList) (bits : Nat) :
    (floatLiteral format typeName mark bits).Regular := by
  have hsign : ∀ negative : Bool,
      (∀ c ∈ separators, c ∉ ((if negative then "-" else "") ++ "std::numeric_limits<").toList) ∧
        ((if negative then "-" else "") ++ "std::numeric_limits<").toList.count '<' = 1 := by
    decide
  unfold floatLiteral
  split
  · exact regular_limits (hsign false) hname (by decide)
  · next negative _ =>
    exact regular_limits (hsign negative) hname (by decide)
  · refine regular_of_plain ?_
    rw [plain_concat]
    exact ⟨Decimal.plain_renderWith _ _ _, hmark⟩

theorem Value.regular_of (t : ElementType) (n : Nat) : (Value.of t n).Regular := by
  cases t with
  | bool =>
      refine regular_of_plain ?_
      split <;> decide
  | char =>
      refine regular_of_plain ?_
      rw [plain_concat, plain_concat]
      exact ⟨⟨by decide, plain_hexUpper _ _⟩, by decide⟩
  | float => exact regular_floatLiteral _ (by decide) (by decide) n
  | double => exact regular_floatLiteral _ (by decide) (by decide) n
  | i8 | i16 | i32 | i64 => exact regular_of_plain (plain_signedLiteral _ _)
  | u8 | u16 | u32 | u64 =>
      refine regular_of_plain ?_
      rw [plain_concat]
      exact ⟨by decide, plain_hexUpper _ _⟩

end Header

end EmbeddedBuffers
