import EmbeddedBuffers.Condition.Value
import EmbeddedBuffers.Proofs.Condition.Acceptance

/-!
# What conditions mean

The meaning of a formula in integers, and that evaluation gives its truth if every integer is
taken to the range of a signed word. An integer in that range stays what it is; a magnitude from
2 ^ 63 on comes out negative, so that `0x8000000000000000 > 0` does not hold. Main statement:
`evaluate_wrapped`.
-/

namespace EmbeddedBuffers

/-- The comparison of integers. -/
def Comparison.compares : Comparison → Int → Int → Bool
  | .eq, a, b => a == b
  | .ne, a, b => a != b
  | .lt, a, b => decide (a < b)
  | .le, a, b => decide (a ≤ b)
  | .gt, a, b => decide (a > b)
  | .ge, a, b => decide (a ≥ b)

theorem Comparison.holds_eq (op : Comparison) (a b : Int64) :
    op.holds a b = op.compares a.toInt b.toInt := by
  have heq : (a == b) = (a.toInt == b.toInt) := by
    rw [Bool.eq_iff_iff, beq_iff_eq, beq_iff_eq, Int64.toInt_inj]
  cases op with
  | eq => exact heq
  | ne => exact congrArg not heq
  | lt => exact decide_eq_decide.2 Int64.lt_iff_toInt_lt
  | le => exact decide_eq_decide.2 Int64.le_iff_toInt_le
  | gt => exact decide_eq_decide.2 Int64.lt_iff_toInt_lt
  | ge => exact decide_eq_decide.2 Int64.le_iff_toInt_le

namespace Condition

variable {m : Macros} {f : Formula} {val : String → Int}

/-- What a macro stands for among numbers. -/
inductive Stands (m : Macros) (name : String) : Int → Prop
  | undefined (h : m.get? name = none) : Stands m name 0
  | defined (h : m.get? name = some .defined) : Stands m name 1
  | value {shown : String} {z : Int} (h : m.get? name = some (.value shown))
      (hz : Text.IsSigned shown.toList z) : Stands m name z

namespace Formula

/-- The macros that a formula takes the values of. -/
def references : Formula → List String
  | .literal _ | .isDefined _ => []
  | .reference name => [name]
  | .not f => f.references
  | .compare _ f g | .and f g | .or f g => f.references ++ g.references

/-- A truth value as an integer. -/
def ofBool (b : Bool) : Int := if b then 1 else 0

/-- The meaning of a formula, with `num` for what an integer is taken as, `val` for the integers
that macros stand for, and `defined` for the macros that are defined. -/
def meaning (num : Int → Int) (val : String → Int) (defined : String → Bool) : Formula → Int
  | .literal z => num z
  | .reference name => num (val name)
  | .isDefined name => ofBool (defined name)
  | .not f => ofBool (f.meaning num val defined == 0)
  | .compare op f g => ofBool (op.compares (f.meaning num val defined) (g.meaning num val defined))
  | .and f g => ofBool (f.meaning num val defined != 0 && g.meaning num val defined != 0)
  | .or f g => ofBool (f.meaning num val defined != 0 || g.meaning num val defined != 0)

end Formula

/-- An integer taken to the range of a signed word. -/
def wrap (z : Int) : Int := z.bmod (2 ^ 64)

/-- The integers that a signed word holds. -/
def Fits (z : Int) : Prop := -2 ^ 63 ≤ z ∧ z < 2 ^ 63

/-- A value that is a number, whatever asks for it. -/
def Value.Is (v : Value) (z : Int) : Prop :=
  v.isText = false ∧ ∃ n, (∀ place, v.toInt place = .ok n) ∧ n.toInt = z

theorem Value.is_ofBool (b : Bool) : (Value.ofBool b).Is (Formula.ofBool b) := by
  refine ⟨rfl, _, fun _ => rfl, ?_⟩
  cases b <;> rfl

theorem Value.is_int (z : Int) : (Value.int (Int64.ofInt z)).Is (wrap z) :=
  ⟨rfl, _, fun _ => rfl, Int64.toInt_ofInt⟩

/-- A macro has the value that it stands for. -/
theorem Value.exists_ofMacro {name : String} {z : Int} (h : Stands m name z) :
    ∃ v, Value.ofMacro name (m.get? name) = .ok v ∧ v.Is (wrap z) := by
  cases h with
  | undefined h =>
      rw [h]
      exact ⟨_, rfl, rfl, 0, fun _ => rfl, rfl⟩
  | defined h =>
      rw [h]
      exact ⟨_, rfl, rfl, 1, fun _ => rfl, rfl⟩
  | value h hz =>
      rw [h]
      refine ⟨.int (Int64.ofInt z), ?_, Value.is_int z⟩
      rw [Value.ofMacro, Text.integer?_of_isSigned hz]

theorem beq_zero_eq (n : Int64) : (n == 0) = (n.toInt == 0) := by
  rw [Bool.eq_iff_iff, beq_iff_eq, beq_iff_eq, ← Int64.toInt_inj]
  rfl

theorem Value.compare_eq {v w : Value} {x y : Int} (op : Comparison) (hv : v.Is x) (hw : w.Is y) :
    v.compare op w = .ok (op.compares x y) := by
  obtain ⟨hvtext, a, ha, rfl⟩ := hv
  obtain ⟨hwtext, b, hb, rfl⟩ := hw
  unfold Value.compare
  rw [hvtext, hwtext, ← Comparison.holds_eq]
  show (v.toInt _ >>= fun x => w.toInt _ >>= fun y => pure (op.holds x y)) = _
  rw [ha]
  show (w.toInt _ >>= _) = _
  rw [hb]
  rfl

/-- Where a condition has a number for its value, every operation that asks for a number goes on
with it. -/
theorem exists_number {c : Condition} {z : Int} (h : ∃ v, c.value m = .ok v ∧ v.Is z) :
    ∃ n : Int64, n.toInt = z ∧ ∀ {α : Type} (place : String) (k : Int64 → Except Fault α),
      (c.value m >>= fun v => v.toInt place >>= k) = k n := by
  obtain ⟨v, hv, -, n, hn, hz⟩ := h
  refine ⟨n, hz, fun place k => ?_⟩
  rw [hv]
  show (v.toInt place >>= k) = _
  rw [hn]
  rfl

/-- A formula has a value if its macros stand for integers, and the value is its meaning. -/
theorem exists_value (hval : ∀ name ∈ f.references, Stands m name (val name)) :
    ∃ v, f.condition.value m = .ok v ∧ v.Is (f.meaning wrap val m.isDefined) := by
  induction f with
  | literal z => exact ⟨_, rfl, Value.is_int z⟩
  | reference name => exact Value.exists_ofMacro (hval name List.mem_cons_self)
  | isDefined name => exact ⟨_, rfl, Value.is_ofBool _⟩
  | not f ih =>
      obtain ⟨n, hz, hn⟩ := exists_number (ih hval)
      rw [Formula.condition, Formula.meaning, ← hz, ← beq_zero_eq, value, hn]
      exact ⟨_, rfl, Value.is_ofBool _⟩
  | compare op f g ihf ihg =>
      obtain ⟨v, hv, hx⟩ := ihf fun name hname => hval name (List.mem_append_left _ hname)
      obtain ⟨w, hw, hy⟩ := ihg fun name hname => hval name (List.mem_append_right _ hname)
      refine ⟨_, ?_, Value.is_ofBool _⟩
      rw [Formula.condition, value, hv, hw]
      show (v.compare op w >>= _) = _
      rw [Value.compare_eq op hx hy]
      rfl
  | and f g ihf ihg =>
      obtain ⟨x, hxz, hx⟩ :=
        exists_number (ihf fun name hname => hval name (List.mem_append_left _ hname))
      obtain ⟨y, hyz, hy⟩ :=
        exists_number (ihg fun name hname => hval name (List.mem_append_right _ hname))
      rw [Formula.condition, Formula.meaning, ← hxz, ← hyz, bne, bne, ← beq_zero_eq, ← beq_zero_eq,
        value, hx]
      refine ⟨_, ?_, Value.is_ofBool _⟩
      -- the second operand is not asked if the first is zero, and would not change the answer
      rw [hy]
      cases x == 0 <;> rfl
  | or f g ihf ihg =>
      obtain ⟨x, hxz, hx⟩ :=
        exists_number (ihf fun name hname => hval name (List.mem_append_left _ hname))
      obtain ⟨y, hyz, hy⟩ :=
        exists_number (ihg fun name hname => hval name (List.mem_append_right _ hname))
      rw [Formula.condition, Formula.meaning, ← hxz, ← hyz, bne, bne, ← beq_zero_eq, ← beq_zero_eq,
        value, hx]
      refine ⟨_, ?_, Value.is_ofBool _⟩
      rw [hy, bne]
      cases x == 0 <;> rfl

theorem evaluate_eq (hval : ∀ name ∈ f.references, Stands m name (val name)) :
    f.condition.evaluate m = .ok (decide (f.meaning wrap val m.isDefined ≠ 0)) := by
  obtain ⟨n, hz, hn⟩ := exists_number (exists_value hval)
  rw [evaluate, holds?, hn, ← hz]
  have hzero : (n != 0) = decide (n.toInt ≠ 0) := by
    rw [bne, beq_zero_eq]
    by_cases hmeaning : n.toInt = 0 <;> simp [hmeaning]
  exact congrArg Except.ok hzero

/-! ## Integers that fit -/

theorem wrap_of_fits {z : Int} (h : Fits z) : wrap z = z := by
  obtain ⟨hlow, hhigh⟩ := h
  exact Int.bmod_eq_of_le (by omega) (by omega)

/-- Where every integer fits, nothing is wrapped. -/
theorem Formula.meaning_wrap (hliterals : ∀ z ∈ f.literals, Fits z)
    (hval : ∀ name ∈ f.references, Fits (val name)) (defined : String → Bool) :
    f.meaning wrap val defined = f.meaning id val defined := by
  induction f with
  | literal z => exact wrap_of_fits (hliterals z List.mem_cons_self)
  | reference name => exact wrap_of_fits (hval name List.mem_cons_self)
  | isDefined name => rfl
  | not f ih => rw [meaning, meaning, ih hliterals hval]
  | compare op f g ihf ihg | and f g ihf ihg | or f g ihf ihg =>
      simp only [Formula.literals, Formula.references, List.forall_mem_append] at hliterals hval
      rw [meaning, meaning, ihf hliterals.1 hval.1, ihg hliterals.2 hval.2]

/-! ## Texts -/

/-- **Evaluation is integer arithmetic on signed words**: conditions give the truth of their
meaning, with every literal and every value of a macro taken to the range of a signed word, which
changes nothing where all of them are in that range. -/
theorem evaluate_wrapped {m : Macros} {text : String} {f : Formula} (val : String → Int)
    (hf : Reads text.toList f) (hval : ∀ name ∈ f.references, Stands m name (val name)) :
    ∃ c, parse text = .ok c ∧
      c.evaluate m = .ok (decide (f.meaning wrap val m.isDefined ≠ 0)) ∧
      ((∀ z ∈ f.literals, Fits z) → (∀ name ∈ f.references, Fits (val name)) →
        c.evaluate m = .ok (decide (f.meaning id val m.isDefined ≠ 0))) := by
  have heval := evaluate_eq hval
  refine ⟨f.condition, parse_eq_ok.2 ⟨f, hf, rfl⟩, heval, fun hliterals hfits => ?_⟩
  rw [heval, Formula.meaning_wrap hliterals hfits]

/-- Two operands of one lexeme each, with the sign of a comparison between them. -/
theorem reads_compare {s t : List Char} {l r : Lexeme} {f g : Formula} (op : Comparison)
    (hl : l.Spelled s) (hr : r.Spelled t) (hf : Derives .primary [l] f)
    (hg : Derives .primary [r] g) :
    Reads (s ++ ([' '] ++ op.symbol.toList ++ [' '] ++ t)) (.compare op f g) :=
  ⟨_, Splits.join (l := .comparison op) rfl (Splits.single hl) (Splits.single hr),
    .orOne (.andOne (.compareTwo op (.operand hf) (.operand hg)))⟩

theorem evaluate_wrapped_size :
    ∃ c, parse "0x10 == SIZE" = .ok c ∧ c.evaluate ⟨[("SIZE", .value "16")]⟩ = .ok true := by
  have hhex : Text.IsLiteral "0x10".toList 16 :=
    (Text.magnitude?_eq_some (by decide)).1 (by decide +kernel)
  have hdecimal : Text.IsLiteral "16".toList 16 :=
    (Text.magnitude?_eq_some (by decide)).1 (by decide +kernel)
  have hf : Reads "0x10 == SIZE".toList (.compare .eq (.literal 16) (.reference "SIZE")) :=
    reads_compare .eq (l := .number 16) (r := .word "SIZE") hhex ⟨rfl, by decide⟩ (.number 16)
      (.name (by decide))
  have hsize : Stands ⟨[("SIZE", .value "16")]⟩ "SIZE" 16 :=
    .value rfl ⟨[], [], _, [], 16, rfl, hdecimal, by decide, by decide, .inl ⟨rfl, rfl⟩⟩
  have hfits : Fits 16 := ⟨by decide, by decide⟩
  obtain ⟨c, hparse, -, heval⟩ := evaluate_wrapped (fun _ => 16) hf
    (by simpa [Formula.references] using hsize)
  refine ⟨c, hparse, heval ?_ ?_⟩
  · simpa [Formula.literals] using hfits
  · simpa [Formula.references] using hfits

/-- Integers as they are written do not tell what a condition gives: the magnitude 2 ^ 63 is
negative as a signed word, and no longer above zero. -/
theorem evaluate_ne_unwrapped :
    ¬ ∀ (m : Macros) (text : String) (f : Formula) (val : String → Int), Reads text.toList f →
      (∀ name ∈ f.references, Stands m name (val name)) →
      ∃ c, parse text = .ok c ∧
        c.evaluate m = .ok (decide (f.meaning id val m.isDefined ≠ 0)) := by
  intro h
  have hhigh : Text.IsLiteral "0x8000000000000000".toList (2 ^ 63) :=
    (Text.magnitude?_eq_some (by decide)).1 (by decide +kernel)
  have hzero : Text.IsLiteral "0".toList 0 :=
    (Text.magnitude?_eq_some (by decide)).1 (by decide +kernel)
  have hf : Reads "0x8000000000000000 > 0".toList
      (.compare .gt (.literal ((2 ^ 63 : Nat) : Int)) (.literal ((0 : Nat) : Int))) :=
    reads_compare .gt (l := .number (2 ^ 63)) (r := .number 0) hhigh hzero (.number _) (.number 0)
  have hnone : ∀ name ∈ Formula.references
      (.compare .gt (.literal ((2 ^ 63 : Nat) : Int)) (.literal ((0 : Nat) : Int))),
      Stands .empty name 0 := by simp [Formula.references]
  obtain ⟨c, hparse, heval⟩ := h .empty _ _ (fun _ => 0) hf hnone
  have hc := parse_eq_ok.2 ⟨_, hf, rfl⟩
  rw [hparse, Except.ok.injEq] at hc
  subst hc
  rw [evaluate_eq hnone, Except.ok.injEq] at heval
  exact absurd heval (by decide +kernel)

end Condition

end EmbeddedBuffers
