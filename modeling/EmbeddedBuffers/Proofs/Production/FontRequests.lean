import EmbeddedBuffers.Proofs.Production.Reading
import EmbeddedBuffers.Proofs.Results

/-!
# What is asked of a font

The numbers that both kinds of cut fonts ask for come from arguments of 32 bits, and those that
would make no sense are refused before a picture is looked at. Main statements:
`FontRequest.admitted` and `FontRequest.bounded`.
-/

namespace EmbeddedBuffers

theorem Declaration.numberArgument_lt {d : Declaration} {index n : Nat} {what : String}
    (h : d.numberArgument index what = .ok n) : n < 2 ^ 32 := by
  unfold numberArgument at h
  obtain ⟨text, -, h⟩ := exists_of_bind_eq_ok h
  split at h
  · split at h
    · next hlt =>
      cases h
      exact hlt
    · cases h
  · cases h

namespace Production

variable {d : Declaration} {r : FontRequest} {height bits color : Nat}

/-- A request that is read holds the numbers of its arguments, and they make sense. -/
theorem FontRequest.exists_arguments (h : FontRequest.read d height bits color = .ok r) :
    d.numberArgument 0 "the first character code" = .ok r.first ∧
      d.numberArgument 1 "the glyph count" = .ok r.count ∧
      d.numberArgument height "the glyph height" = .ok r.height ∧
      r.bits ∈ [1, 2, 4, 8] ∧ 0 < r.height := by
  unfold FontRequest.read at h
  obtain ⟨first, hfirst, h⟩ := exists_of_bind_eq_ok h
  obtain ⟨count, hcount, h⟩ := exists_of_bind_eq_ok h
  obtain ⟨height, hheight, h⟩ := exists_of_bind_eq_ok h
  obtain ⟨bits, -, h⟩ := exists_of_bind_eq_ok h
  by_cases hbits : bits ∈ [1, 2, 4, 8]
  · rw [if_neg (not_not_intro hbits)] at h
    by_cases hzero : height = 0
    · rw [hzero] at h
      cases h
    · dsimp only at h
      rw [if_neg hzero] at h
      obtain ⟨color, -, h⟩ := exists_of_bind_eq_ok h
      cases hchannel : Font.Channel.ofName? color with
      | none =>
          rw [hchannel] at h
          cases h
      | some channel =>
          rw [hchannel] at h
          cases h
          exact ⟨hfirst, hcount, hheight, hbits, Nat.pos_of_ne_zero hzero⟩
  · rw [if_pos hbits] at h
    cases h

/-- What is asked for is in bounds. -/
theorem FontRequest.admitted (h : FontRequest.read d height bits color = .ok r) :
    r.bits ∈ [1, 2, 4, 8] ∧ 0 < r.height :=
  (exists_arguments h).2.2.2

/-- A depth is a part of a byte that fills it a whole number of times. -/
theorem FontRequest.bits_dvd (h : FontRequest.read d height bits color = .ok r) : r.bits ∣ 8 := by
  have hdvd : ∀ n ∈ [1, 2, 4, 8], n ∣ 8 := by decide
  exact hdvd _ (admitted h).1

theorem FontRequest.bounded (h : FontRequest.read d height bits color = .ok r) :
    r.first < 2 ^ 32 ∧ r.count < 2 ^ 32 ∧ r.height < 2 ^ 32 := by
  obtain ⟨hfirst, hcount, hheight, -⟩ := exists_arguments h
  exact ⟨d.numberArgument_lt hfirst, d.numberArgument_lt hcount, d.numberArgument_lt hheight⟩

/-- Whatever is told, the computation goes on. -/
theorem tellMissing_bind {α : Type} (path : String) (found wanted : Nat) (f : Unit → Noted α) :
    ∃ notices, (tellMissing d path found wanted >>= f).outcome = (f ()).run.run notices := by
  unfold tellMissing
  split
  · exact ⟨_, rfl⟩
  · exact ⟨_, rfl⟩

end Production

end EmbeddedBuffers
