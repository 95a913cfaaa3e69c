import EmbeddedBuffers.Proofs.Results
import EmbeddedBuffers.Svf.Command

/-!
# Commands of a text

What a statement that is accepted can be, and what the commands of an accepted text have in common:
every number is one that its field in the command stream holds, so that nothing of it is lost when
it is written. Main statements: `ofTokens_cases` and `bounded_of_commands`.
-/

namespace EmbeddedBuffers

theorem Text.lt_of_unsigned? {radix bound n : Nat} {s : List Char}
    (h : unsigned? radix bound s = some n) : n < bound :=
  of_decide_eq_true (Option.filter_eq_some_iff.1 h).2

namespace Svf

/-- The numbers of a command are numbers that its fields hold. -/
def Command.Bounded : Command → Prop
  | .frequency hertz => hertz < 2 ^ 32
  | .runTest _ cycles time => cycles < 2 ^ 16 ∧ time < 2 ^ 32
  | .scan _ bits _ => bits < 2 ^ 32
  | _ => True

theorem lt_of_field32 {what : String} {n : Number} {v : Nat} (h : field32 what n = .ok v) :
    v < 2 ^ 32 := by
  unfold field32 at h
  split at h
  · next hlt =>
    cases h
    exact hlt
  · cases h

theorem exists_of_readFrequency {args : List Token} {c : Command}
    (h : Command.readFrequency args = .ok c) : ∃ hertz, c = .frequency hertz ∧ hertz < 2 ^ 32 := by
  unfold Command.readFrequency at h
  obtain ⟨text, -, h⟩ := exists_of_bind_eq_ok h
  obtain ⟨value, -, h⟩ := exists_of_bind_eq_ok h
  obtain ⟨unit, -, h⟩ := exists_of_bind_eq_ok h
  split at h
  · cases h
  · obtain ⟨hertz, hhertz, h⟩ := exists_of_bind_eq_ok h
    cases h
    exact ⟨hertz, rfl, lt_of_field32 hhertz⟩

theorem exists_of_readRunTest {s : TapState} {args : List Token} {c : Command}
    (h : Command.readRunTest s args = .ok c) :
    ∃ cycles time, c = .runTest s cycles time ∧ cycles < 2 ^ 16 ∧ time < 2 ^ 32 := by
  unfold Command.readRunTest at h
  obtain ⟨count, -, h⟩ := exists_of_bind_eq_ok h
  obtain ⟨unit, -, h⟩ := exists_of_bind_eq_ok h
  dsimp only at h
  split at h
  · obtain ⟨-, h, -⟩ := exists_of_bind_eq_ok h
    cases h
  cases hcount : Text.unsigned? 10 (2 ^ 16) count.toList with
  | none =>
      rw [hcount] at h
      cases h
  | some cycles =>
      rw [hcount] at h
      dsimp only at h
      have hcycles := Text.lt_of_unsigned? hcount
      split at h
      · cases h
        exact ⟨cycles, 0, rfl, hcycles, by decide⟩
      · obtain ⟨text, -, h⟩ := exists_of_bind_eq_ok h
        obtain ⟨seconds, -, h⟩ := exists_of_bind_eq_ok h
        obtain ⟨unit', -, h⟩ := exists_of_bind_eq_ok h
        split at h
        · obtain ⟨-, h, -⟩ := exists_of_bind_eq_ok h
          cases h
        cases htime : seconds.timesTenMillion? with
        | none =>
            rw [htime] at h
            cases h
        | some time =>
            rw [htime] at h
            obtain ⟨units, hunits, h⟩ := exists_of_bind_eq_ok h
            cases h
            exact ⟨cycles, units, rfl, hcycles, lt_of_field32 hunits⟩

theorem bounded_of_readScan {kind : ScanKind} {args : List Token} {c : Command}
    (h : Command.readScan kind args = .ok c) : c.Bounded := by
  unfold Command.readScan at h
  obtain ⟨length, -, h⟩ := exists_of_bind_eq_ok h
  cases hlength : Text.unsigned? 10 (2 ^ 32) length.toList with
  | none =>
      rw [hlength] at h
      cases h
  | some bits =>
      rw [hlength] at h
      obtain ⟨data, -, h⟩ := exists_of_bind_eq_ok h
      cases h
      exact Text.lt_of_unsigned? hlength

/-- The word of a scan. -/
def ScanKind.word : ScanKind → String
  | .hdr => "HDR"
  | .hir => "HIR"
  | .tdr => "TDR"
  | .tir => "TIR"
  | .sir => "SIR"
  | .sdr => "SDR"

theorem ScanKind.eq_word {w : String} {k : ScanKind} (h : ofWord? w = some k) : w = k.word := by
  unfold ofWord? at h
  split at h <;> cases h <;> rfl

theorem word_eq_ok {what w : String} {tokens : List Token} :
    word what tokens = .ok w ↔ ∃ rest, tokens = .word w :: rest := by
  constructor
  · intro h
    unfold word at h
    split at h <;> cases h
    exact ⟨_, rfl⟩
  · rintro ⟨rest, rfl⟩
    rfl

/-- **What an accepted statement is**: a state, a frequency, a run test, or a scan, whose word is in
front of what is read as its data. -/
theorem ofTokens_cases {tokens : List Token} {c : Command} (h : Command.ofTokens tokens = .ok c) :
    (∃ s, c = .state s ∨ c = .endDr s ∨ c = .endIr s) ∨
    (∃ hertz, c = .frequency hertz ∧ hertz < 2 ^ 32) ∨
    (∃ s cycles time, c = .runTest s cycles time ∧ cycles < 2 ^ 16 ∧ time < 2 ^ 32) ∨
    ∃ kind args, tokens = .word (ScanKind.word kind) :: args ∧
      Command.readScan kind args = .ok c := by
  have hstate : ∀ {make : TapState → Command} {args : List Token},
      (do return make (← tapState args) : Except CommandFault Command) = .ok c →
        ∃ s, c = make s := by
    intro make args h
    obtain ⟨s, -, h⟩ := exists_of_bind_eq_ok h
    cases h
    exact ⟨s, rfl⟩
  unfold Command.ofTokens at h
  obtain ⟨command, hcommand, h⟩ := exists_of_bind_eq_ok h
  obtain ⟨args, rfl⟩ := word_eq_ok.1 hcommand
  dsimp only at h
  split at h
  · split at h
    · cases h
    · obtain ⟨s, hc⟩ := hstate h
      exact Or.inl ⟨s, Or.inl hc⟩
  · split at h
    · cases h
    · obtain ⟨s, hc⟩ := hstate h
      exact Or.inl ⟨s, Or.inr (Or.inl hc)⟩
  · split at h
    · cases h
    · obtain ⟨s, hc⟩ := hstate h
      exact Or.inl ⟨s, Or.inr (Or.inr hc)⟩
  · exact Or.inr (Or.inl (exists_of_readFrequency h))
  · refine Or.inr (Or.inr (Or.inl ?_))
    split at h
    · split at h
      · exact ⟨_, exists_of_readRunTest h⟩
      · exact ⟨_, exists_of_readRunTest h⟩
    · exact ⟨_, exists_of_readRunTest h⟩
  · split at h
    · next kind hkind =>
      exact Or.inr (Or.inr (Or.inr ⟨kind, args, by rw [ScanKind.eq_word hkind], h⟩))
    · cases h

theorem bounded_of_ofTokens {tokens : List Token} {c : Command}
    (h : Command.ofTokens tokens = .ok c) : c.Bounded := by
  rcases ofTokens_cases h with ⟨s, rfl | rfl | rfl⟩ | ⟨hertz, rfl, hhertz⟩ |
    ⟨s, cycles, time, rfl, hbounds⟩ | ⟨kind, args, -, hscan⟩
  · trivial
  · trivial
  · trivial
  · exact hhertz
  · exact hbounds
  · exact bounded_of_readScan hscan

/-- **Every number of an accepted text fits its field.** -/
theorem bounded_of_commands {text : List Char} {cs : List Command} (h : commands text = .ok cs) :
    ∀ c ∈ cs, c.Bounded := by
  unfold commands at h
  obtain ⟨found, -, h⟩ := exists_of_bind_eq_ok h
  intro c hc
  obtain ⟨s, -, hs⟩ := exists_of_mem_mapM h c hc
  exact bounded_of_ofTokens (mapError_eq_ok.1 hs)

end Svf

end EmbeddedBuffers
