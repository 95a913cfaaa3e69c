import EmbeddedBuffers.Font.Variable

/-!
# Runs of inked columns

The glyphs of a variable font are the maximal runs of columns in which a band of the picture holds a
visible pixel. Going through the columns once, with the start of the open run in mind, finds all of
them, each once, from left to right and band by band. Main statements: `mem_runsFrom`, `mem_cells`
and `pairwise_cells`.
-/

namespace EmbeddedBuffers.Font

/-! ## Runs -/

/-- The columns from `left` to the one in front of `right` are inked, and the ones beside them, if
there are any, are not. -/
structure IsRun (inked : Nat → Prop) (width left right : Nat) : Prop where
  lt : left < right
  le_width : right ≤ width
  all_inked : ∀ x, left ≤ x → x < right → inked x
  left_end : left = 0 ∨ ¬ inked (left - 1)
  right_end : right = width ∨ ¬ inked right

/-- What is known at column `x`: without an open run the column before is not inked, and an open run
has been inked from its start on. -/
def Tracks (inked : Nat → Prop) (x : Nat) : Option Nat → Prop
  | none => x = 0 ∨ ¬ inked (x - 1)
  | some s => s < x ∧ (∀ i, s ≤ i → i < x → inked i) ∧ (s = 0 ∨ ¬ inked (s - 1))

/-- The open run, as it is closed at column `x`. -/
def closed (x : Nat) : Option Nat → List (Nat × Nat)
  | none => []
  | some s => [(s, x)]

section Runs

variable {ink : Nat → Bool} {x width n : Nat} {start : Option Nat} {run : Nat × Nat}

theorem runsFrom_nil (start : Option Nat) (x : Nat) : runsFrom start x [] = closed x start := by
  cases start <;> rfl

theorem runsFrom_cons (start : Option Nat) (x : Nat) (inked : Bool) (rest : List Bool) :
    runsFrom start x (inked :: rest) =
      if inked then runsFrom (some (start.getD x)) (x + 1) rest
      else closed x start ++ runsFrom none (x + 1) rest := by
  cases start <;> cases inked <;> rfl

theorem tracks_start (inked : Nat → Prop) : Tracks inked 0 none := Or.inl rfl

theorem Tracks.blank {inked : Nat → Prop} (hx : ¬ inked x) : Tracks inked (x + 1) none :=
  Or.inr hx

theorem Tracks.inked {inked : Nat → Prop} (h : Tracks inked x start) (hx : inked x) :
    Tracks inked (x + 1) (some (start.getD x)) := by
  cases start with
  | none =>
      refine ⟨Nat.lt_succ_self x, fun i hi hi' => ?_, h⟩
      rwa [Nat.le_antisymm (Nat.le_of_lt_succ hi') hi]
  | some s =>
      obtain ⟨hsx, hinked, hleft⟩ := h
      refine ⟨Nat.lt_succ_of_lt hsx, fun i hi hi' => ?_, hleft⟩
      rcases Nat.lt_or_eq_of_le (Nat.le_of_lt_succ hi') with hlt | rfl
      · exact hinked i hi hlt
      · exact hx

/-- Where the ink ends, the run that ends there is the open one. -/
theorem mem_closed {inked : Nat → Prop} (h : Tracks inked x start)
    (hend : x = width ∨ ¬ inked x) (hwidth : x ≤ width) :
    run ∈ closed x start ↔
      start.getD x ≤ run.1 ∧ run.1 < x ∧ IsRun inked width run.1 run.2 := by
  cases start with
  | none => exact iff_of_false List.not_mem_nil fun ⟨hle, hlt, _⟩ => Nat.not_lt.2 hle hlt
  | some s =>
      obtain ⟨hsx, hinked, hleft⟩ := h
      refine List.mem_singleton.trans ⟨?_, fun ⟨hle, hlt, hrun⟩ => ?_⟩
      · rintro rfl
        exact ⟨Nat.le_refl s, hsx, hsx, hwidth, hinked, hleft, hend⟩
      · -- The columns from `s` on are inked: no run starts or ends among them, but at `s`.
        have hstart : ¬ s < run.1 := by
          intro hgt
          rcases hrun.left_end with hzero | hnot
          · omega
          · exact hnot (hinked (run.1 - 1) (by omega) (by omega))
        have hover : ¬ run.2 < x := by
          intro hgt
          rcases hrun.right_end with heq | hnot
          · omega
          · exact hnot (hinked run.2 (Nat.le_trans hle (Nat.le_of_lt hrun.lt)) hgt)
        have hunder : ¬ x < run.2 := by
          intro hgt
          have hright := hrun.le_width
          rcases hend with heq | hnot
          · omega
          · exact hnot (hrun.all_inked x (Nat.le_of_lt hlt) hgt)
        have hle' : s ≤ run.1 := hle
        exact Prod.ext (by dsimp only; omega) (by dsimp only; omega)

/-- **A pass over the columns finds the maximal runs**, from the open one on if there is one. -/
theorem mem_runsFrom (h : Tracks (ink · = true) x start) :
    run ∈ runsFrom start x ((List.range' x n).map ink) ↔
      start.getD x ≤ run.1 ∧ IsRun (ink · = true) (x + n) run.1 run.2 := by
  induction n generalizing x start with
  | zero =>
      rw [List.range'_zero, List.map_nil, runsFrom_nil,
        mem_closed h (Or.inl rfl) (Nat.le_refl x)]
      refine and_congr_right fun _ => and_iff_right_of_imp fun hrun => ?_
      exact Nat.lt_of_lt_of_le hrun.lt hrun.le_width
  | succ n ih =>
      rw [List.range'_succ, List.map_cons, runsFrom_cons, show x + (n + 1) = x + 1 + n by omega]
      split
      · next hx => exact ih (h.inked hx)
      · next hx =>
        have hnext : Tracks (ink · = true) (x + 1) none := .blank hx
        have hend : x = x + 1 + n ∨ ¬ ink x = true := Or.inr hx
        rw [List.mem_append, mem_closed h hend (by omega), ih hnext]
        have hne : IsRun (ink · = true) (x + 1 + n) run.1 run.2 → run.1 ≠ x := by
          intro hrun heq
          exact hx (hrun.all_inked x (Nat.le_of_eq heq) (heq ▸ hrun.lt))
        have hopen : start.getD x ≤ x := by
          cases start with
          | none => exact Nat.le_refl x
          | some s => exact Nat.le_of_lt h.1
        constructor
        · rintro (⟨hle, -, hrun⟩ | ⟨hle, hrun⟩)
          · exact ⟨hle, hrun⟩
          · exact ⟨Nat.le_trans hopen (Nat.le_of_succ_le hle), hrun⟩
        · rintro ⟨hle, hrun⟩
          rcases Nat.lt_or_gt_of_ne (hne hrun) with hlt | hgt
          · exact Or.inl ⟨hle, hlt, hrun⟩
          · exact Or.inr ⟨hgt, hrun⟩

/-- Between two runs there is a column without ink. -/
theorem pairwise_runsFrom (h : Tracks (ink · = true) x start) :
    (runsFrom start x ((List.range' x n).map ink)).Pairwise fun a b => a.2 < b.1 := by
  have single : ∀ x start, (closed x start).Pairwise fun a b => a.2 < b.1 := by
    intro x start
    cases start <;> simp [closed]
  induction n generalizing x start with
  | zero =>
      rw [List.range'_zero, List.map_nil, runsFrom_nil]
      exact single x start
  | succ n ih =>
      rw [List.range'_succ, List.map_cons, runsFrom_cons]
      split
      · next hx => exact ih (h.inked hx)
      · next hx =>
        have hnext : Tracks (ink · = true) (x + 1) none := .blank hx
        refine List.pairwise_append.2 ⟨single x start, ih hnext, fun a ha b hb => ?_⟩
        have hright : a.2 = x := by
          cases start with
          | none => exact absurd ha List.not_mem_nil
          | some s => exact congrArg Prod.snd (List.mem_singleton.1 ha)
        have hleft := ((mem_runsFrom hnext).1 hb).1
        exact hright ▸ hleft

end Runs

/-! ## Glyphs of a picture -/

/-- A column of a band holds a visible pixel. -/
def Inked (p : Picture) (c : Channel) (top height x : Nat) : Prop :=
  ∃ y < height, 0 < c.coverage (p.get x (top + y))

/-- A maximal run of inked columns in one of the bands of a picture. -/
def IsGlyph (p : Picture) (c : Channel) (height : Nat) (cell : Cell) : Prop :=
  cell.height = height ∧ (∃ band < p.height / height, cell.top = band * height) ∧
    IsRun (Inked p c cell.top height) p.width cell.left (cell.left + cell.width)

/-- A cell in a higher band, or further to the left with a gap in between. -/
def Cell.Before (a b : Cell) : Prop :=
  a.top < b.top ∨ a.top = b.top ∧ a.left + a.width < b.left

section Glyphs

variable {p : Picture} {c : Channel} {height band : Nat} {cell : Cell}

theorem isInked_iff {top x : Nat} : isInked p c top height x = true ↔ Inked p c top height x := by
  simp [isInked, Inked]

/-- A band is cut at its maximal runs. -/
theorem mem_bandCells : cell ∈ bandCells p c height band ↔
    cell.height = height ∧ cell.top = band * height ∧
      IsRun (Inked p c cell.top height) p.width cell.left (cell.left + cell.width) := by
  have hinked : ∀ top, (isInked p c top height · = true) = Inked p c top height :=
    fun top => funext fun x => propext isInked_iff
  unfold bandCells
  dsimp only
  rw [List.mem_map, List.range_eq_range']
  constructor
  · rintro ⟨run, hrun, rfl⟩
    obtain ⟨-, hrun⟩ := (mem_runsFrom (tracks_start _)).1 hrun
    rw [Nat.zero_add, hinked] at hrun
    refine ⟨rfl, rfl, ?_⟩
    rwa [Nat.add_sub_cancel' (Nat.le_of_lt hrun.lt)]
  · rintro ⟨rfl, htop, hrun⟩
    refine ⟨(cell.left, cell.left + cell.width),
      (mem_runsFrom (tracks_start _)).2 ⟨Nat.zero_le _, ?_⟩, ?_⟩
    · rwa [Nat.zero_add, hinked, ← htop]
    · rw [← htop, Nat.add_sub_cancel_left]

/-- **The cells of a picture are its maximal runs of inked columns.** -/
theorem mem_cells : cell ∈ cells p c height ↔ IsGlyph p c height cell := by
  simp only [cells, List.mem_flatMap, List.mem_range, mem_bandCells, IsGlyph]
  constructor
  · rintro ⟨band, hband, hheight, htop, hrun⟩
    exact ⟨hheight, ⟨band, hband, htop⟩, hrun⟩
  · rintro ⟨hheight, ⟨band, hband, htop⟩, hrun⟩
    exact ⟨band, hband, hheight, htop, hrun⟩

theorem pairwise_bandCells : (bandCells p c height band).Pairwise Cell.Before := by
  unfold bandCells
  dsimp only
  rw [List.range_eq_range', List.pairwise_map]
  refine (pairwise_runsFrom (tracks_start _)).imp_of_mem fun {a b} ha _ hab => ?_
  have hle := Nat.le_of_lt ((mem_runsFrom (tracks_start _)).1 ha).2.lt
  refine Or.inr ⟨rfl, ?_⟩
  rwa [Nat.add_sub_cancel' hle]

/-- **They stand in the order of reading**, band by band and from left to right. -/
theorem pairwise_cells (hheight : 0 < height) : (cells p c height).Pairwise Cell.Before := by
  refine List.pairwise_flatMap.2 ⟨fun band _ => pairwise_bandCells, ?_⟩
  refine List.pairwise_lt_range.imp fun {upper lower} hlt a ha b hb => Or.inl ?_
  rw [(mem_bandCells.1 ha).2.1, (mem_bandCells.1 hb).2.1]
  exact Nat.mul_lt_mul_of_pos_right hlt hheight

end Glyphs

end EmbeddedBuffers.Font
