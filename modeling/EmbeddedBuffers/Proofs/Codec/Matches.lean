import EmbeddedBuffers.Codec.MatchFinder

/-!
# What a match finder finds

Whatever the chains hold, a match that comes out of them was compared byte by byte, so it
can be wrong in its place only. The one thing that a search relies on is that no head
points to the position that is asked about or beyond it; from there every chain goes down.
Main statement: `sound_longest`.
-/

namespace EmbeddedBuffers.Codec

/-- A match repeats earlier bytes: it starts in front of `pos`, no further back than the
window reaches, and is no longer than `limit`. Having found nothing is sound as well. -/
def Match.Sound (data : Array UInt8) (pos window limit : Nat) (m : Match) : Prop :=
  m.length = 0 ∨
    (1 ≤ m.distance ∧ m.distance ≤ window ∧ m.distance ≤ pos ∧ m.length ≤ limit ∧
      ∀ i < m.length, data.getD (pos - m.distance + i) 0 = data.getD (pos + i) 0)

namespace MatchFinder

/-! ## Heads -/

/-- A link leads to no position, or to one below a bound. -/
def LeadsBelow (bound : Nat) (link : UInt32) : Prop := link = nil ∨ link.toNat < bound

/-- The word of a position is no greater than the position. -/
theorem leadsBelow_ofNat {pos bound : Nat} (hpos : pos < bound) :
    LeadsBelow bound (UInt32.ofNat pos) := by
  right
  rw [UInt32.toNat_ofNat']
  exact Nat.lt_of_le_of_lt (Nat.mod_le _ _) hpos

theorem LeadsBelow.mono {link : UInt32} {a b : Nat} (h : LeadsBelow a link) (hab : a ≤ b) :
    LeadsBelow b link :=
  h.imp id fun hlt => Nat.lt_of_lt_of_le hlt hab

/-- From every candidate the chain goes down, or it ends. -/
theorem next_cases (f : MatchFinder) (candidate : UInt32) :
    f.next candidate = nil ∨ f.next candidate < candidate := by
  unfold next
  dsimp only
  split
  · next hlt => exact .inr hlt
  · exact .inl rfl

theorem leadsBelow_next {f : MatchFinder} {candidate : UInt32} {bound : Nat}
    (h : candidate.toNat < bound) : LeadsBelow bound (f.next candidate) :=
  (f.next_cases candidate).imp id fun hlt => Nat.lt_trans (UInt32.lt_iff_toNat_lt.1 hlt) h

/-- Every position at the head of a chain is below a bound. -/
def Below (f : MatchFinder) (bound : Nat) : Prop := ∀ h, LeadsBelow bound (f.heads.getD h nil)

theorem below_empty (size window minMatch bound : Nat) :
    (empty size window minMatch).Below bound := by
  intro h
  left
  unfold empty Array.getD
  split <;> simp

theorem Below.mono {f : MatchFinder} {a b : Nat} (hf : f.Below a) (hab : a ≤ b) : f.Below b :=
  fun h => (hf h).mono hab

/-- Entering the position at the bound moves the bound by one. -/
theorem Below.insert {f : MatchFinder} {pos : Nat} (hf : f.Below pos) (data : Array UInt8) :
    (f.insert data pos).Below (pos + 1) := by
  unfold MatchFinder.insert
  split
  · exact hf.mono (Nat.le_succ pos)
  · next h _ =>
    intro k
    have hk := hf k
    simp only [Array.getD_eq_getD_getElem?, Array.getElem?_setIfInBounds] at hk ⊢
    split
    · split
      · exact leadsBelow_ofNat (Nat.lt_succ_self pos)
      · exact .inl rfl
    · exact hk.mono (Nat.le_succ pos)

theorem Below.insertMany {f : MatchFinder} {pos : Nat} (hf : f.Below pos) (data : Array UInt8)
    (count : Nat) : (f.insertMany data pos count).Below (pos + count) := by
  induction count generalizing f pos with
  | zero => exact hf
  | succ n ih =>
      have hn := ih (hf.insert data)
      rwa [Nat.add_right_comm, Nat.add_assoc] at hn

/-! ## Candidates -/

theorem commonLength_le (data : Array UInt8) (a b limit : Nat) :
    commonLength data a b limit ≤ limit := by
  induction limit generalizing a b with
  | zero => exact Nat.le_refl 0
  | succ n ih =>
      unfold commonLength
      split
      · exact Nat.succ_le_succ (ih (a + 1) (b + 1))
      · exact Nat.zero_le _

theorem getD_eq_of_lt_commonLength {data : Array UInt8} {a b limit i : Nat}
    (h : i < commonLength data a b limit) : data.getD (a + i) 0 = data.getD (b + i) 0 := by
  induction limit generalizing a b i with
  | zero => simp [commonLength] at h
  | succ n ih =>
      unfold commonLength at h
      split at h
      · next heq =>
        cases i with
        | zero => simpa using heq
        | succ i =>
            have hi := ih (Nat.lt_of_succ_lt_succ h)
            rwa [Nat.add_right_comm, Nat.add_assoc, Nat.add_right_comm b, Nat.add_assoc] at hi
      · simp at h

/-- A candidate inside the window gives a sound match or none. -/
theorem sound_of_improve? {data : Array UInt8} {pos window limit candidate : Nat}
    {best m : Match} (hc : candidate < pos) (hw : pos - candidate ≤ window)
    (h : improve? data pos limit candidate best = some m) : m.Sound data pos window limit := by
  unfold improve? at h
  dsimp only at h
  split at h
  · split at h
    · simp only [Option.some.injEq] at h
      subst h
      refine Or.inr ⟨Nat.sub_pos_of_lt hc, hw, Nat.sub_le _ _,
        commonLength_le data candidate pos limit, ?_⟩
      intro i hi
      show data.getD (pos - (pos - candidate) + i) 0 = _
      rw [Nat.sub_sub_self (Nat.le_of_lt hc)]
      exact getD_eq_of_lt_commonLength hi
    · simp at h
  · simp at h

/-! ## Searches -/

/-- A walk keeps what it has found sound, since every link it follows goes down. -/
theorem sound_walk {f : MatchFinder} {data : Array UInt8} {pos window limit chain : Nat}
    {link : UInt32} {best : Match} (hlink : LeadsBelow pos link)
    (hbest : best.Sound data pos window limit) :
    (f.walk data pos window limit chain link best).Sound data pos window limit := by
  -- A link that is followed leads to a candidate inside the window.
  have hbelow : ∀ {link : UInt32}, LeadsBelow pos link →
      ¬(link = nil ∨ window < pos - link.toNat) → link.toNat < pos ∧ pos - link.toNat ≤ window :=
    fun hlink hnear =>
      ⟨hlink.resolve_left fun heq => hnear (.inl heq), Nat.le_of_not_lt fun h => hnear (.inr h)⟩
  fun_induction walk f data pos window limit chain link best with
  | case1 => exact hbest
  | case2 => exact hbest
  | case3 link best chain hnear himp ih =>
      exact ih (leadsBelow_next (hbelow hlink hnear).1) hbest
  | case4 link best chain hnear better himp hlen =>
      exact sound_of_improve? (hbelow hlink hnear).1 (hbelow hlink hnear).2 himp
  | case5 link best chain hnear better himp hlen hgood ih =>
      exact ih (leadsBelow_next (hbelow hlink hnear).1)
        (sound_of_improve? (hbelow hlink hnear).1 (hbelow hlink hnear).2 himp)
  | case6 link best chain hnear better himp hlen hgood ih =>
      exact ih (leadsBelow_next (hbelow hlink hnear).1)
        (sound_of_improve? (hbelow hlink hnear).1 (hbelow hlink hnear).2 himp)

/-- **The longest match is a match.** Only positions in front of the one that is asked
about may have been entered. -/
theorem sound_longest {f : MatchFinder} {pos : Nat} (hf : f.Below pos) (data : Array UInt8)
    (window maxMatch : Nat) :
    (f.longest data pos window maxMatch).Sound data pos window
      (min maxMatch (data.size - pos)) := by
  unfold longest
  split
  · exact Or.inl rfl
  · exact sound_walk (hf _) (Or.inl rfl)

end MatchFinder

end EmbeddedBuffers.Codec
