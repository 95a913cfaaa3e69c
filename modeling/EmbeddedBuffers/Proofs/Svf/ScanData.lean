import EmbeddedBuffers.Proofs.Codec.ElementBytes
import EmbeddedBuffers.Proofs.Svf.Commands
import EmbeddedBuffers.Proofs.Text.Integers

/-!
# The data of a scan

The groups of a scan are read as bytes if they hold hexadecimal digits, and a plus sign is taken
where a byte starts. A scan has each kind of data once at most, in any order. Main statement:
`scan_accepted`.
-/

namespace EmbeddedBuffers.Svf

open Text (IsDigit Numeral digit? digitsFrom?)

/-! ## Hexadecimal data -/

/-- Every character is a hexadecimal digit, or a plus sign where a byte starts: an odd number of
characters is behind it. -/
def HexData (s : List Char) : Prop :=
  ∀ c rest, c :: rest <:+ s → (∃ d, IsDigit 16 c d) ∨ c = '+' ∧ rest.length % 2 = 1

/-- A plus sign stands for nothing, which is a zero. -/
def zeroed (c : Char) : Char := if c = '+' then '0' else c

/-- Two characters of hexadecimal data are one byte. -/
inductive Pairs : List Char → List UInt8 → Prop
  | nil : Pairs [] []
  | cons {a b : Char} {d e : Nat} {s : List Char} {bytes : List UInt8}
      (ha : IsDigit 16 (zeroed a) d) (hb : IsDigit 16 b e) (h : Pairs s bytes) :
      Pairs (a :: b :: s) (UInt8.ofNat (d * 16 + e) :: bytes)

theorem not_isDigit_plus {d : Nat} : ¬ IsDigit 16 '+' d := by
  rintro ⟨hd, h⟩
  have hall : ∀ d < 16, '+' ≠ d.digitChar ∧ '+' ≠ d.digitChar.toUpper := by decide
  rcases h with h | h
  · exact (hall d hd).1 h
  · exact (hall d hd).2 h

theorem zeroed_of_isDigit {c : Char} {d : Nat} (h : IsDigit 16 c d) : zeroed c = c := by
  refine if_neg ?_
  rintro rfl
  exact not_isDigit_plus h

theorem digit?_eq_some {c : Char} {d : Nat} : digit? 16 c = some d ↔ IsDigit 16 c d :=
  ⟨Text.isDigit_of_digit? (Nat.le_refl 16), Text.digit?_of_isDigit (Nat.le_refl 16)⟩

theorem isDigit_zero : IsDigit 16 '0' 0 := ⟨by decide, Or.inl rfl⟩

variable {a b c : Char} {n d acc : Nat} {s rest : List Char} {bytes : List UInt8}

theorem digitsFrom?_cons : digitsFrom? 16 acc (c :: s) = some n ↔
    ∃ d, IsDigit 16 c d ∧ digitsFrom? 16 (acc * 16 + d) s = some n := by
  simp only [← digit?_eq_some, digitsFrom?]
  cases digit? 16 c <;> simp

/-- A leading zero says nothing. -/
theorem numeral_zero_cons : Numeral 16 ('0' :: s) n ↔ digitsFrom? 16 0 s = some n := by
  rw [← Text.digits?_eq_some (Nat.le_refl 16)]
  rfl

/-- **A pair of characters is a byte if it is two digits, or a plus sign and a digit.** -/
theorem unsigned?_pair : Text.unsigned? 16 256 [a, b] = some n ↔
    ∃ d e, IsDigit 16 (zeroed a) d ∧ IsDigit 16 b e ∧ n = d * 16 + e := by
  have hzeroed : Text.unsigned? 16 256 [a, b] = some n ↔
      digitsFrom? 16 0 [zeroed a, b] = some n ∧ n < 256 := by
    by_cases ha : a = '+'
    · rw [ha, Text.unsigned?_plus]
      rfl
    · rw [Text.unsigned?_eq_some (by simpa using ha), zeroed, if_neg ha]
      rfl
  rw [hzeroed]
  constructor
  · rintro ⟨h, -⟩
    obtain ⟨d, hd, h⟩ := digitsFrom?_cons.1 h
    obtain ⟨e, he, h⟩ := digitsFrom?_cons.1 h
    rw [Nat.zero_mul, Nat.zero_add] at h
    exact ⟨d, e, hd, he, (Option.some.inj h).symm⟩
  · rintro ⟨d, e, hd, he, rfl⟩
    refine ⟨digitsFrom?_cons.2 ⟨d, hd, digitsFrom?_cons.2 ⟨e, he, ?_⟩⟩, ?_⟩
    · rw [Nat.zero_mul, Nat.zero_add, digitsFrom?]
    · have := hd.1
      have := he.1
      omega

theorem hexPairs?_eq_some : hexPairs? s = some bytes ↔ Pairs s bytes := by
  constructor
  · intro h
    fun_induction hexPairs? s generalizing bytes with
    | case1 =>
        cases h
        exact .nil
    | case2 => cases h
    | case3 a b rest n bytes' hrest hbyte ih =>
        cases h
        obtain ⟨d, e, hd, he, rfl⟩ := unsigned?_pair.1 hbyte
        exact .cons hd he (ih hrest)
    | case4 => cases h
  · intro h
    induction h with
    | nil => rfl
    | cons ha hb h ih => rw [hexPairs?, unsigned?_pair.2 ⟨_, _, ha, hb, rfl⟩, ih]

theorem Pairs.length_eq (h : Pairs s bytes) : s.length = 2 * bytes.length := by
  induction h with
  | nil => rfl
  | cons ha hb h ih =>
      simp only [List.length_cons]
      omega

/-- The bytes of pairs are the number that their digits denote. -/
theorem Pairs.digitsFrom?_eq (h : Pairs s bytes) (acc : Nat) : digitsFrom? 16 acc (s.map zeroed) =
    some (acc * 256 ^ bytes.length + Elements.number bytes) := by
  induction h generalizing acc with
  | nil => simp [digitsFrom?, Elements.number]
  | @cons a b d e s bytes ha hb h ih =>
      rw [List.map_cons, List.map_cons, zeroed_of_isDigit hb]
      refine digitsFrom?_cons.2 ⟨d, ha, digitsFrom?_cons.2 ⟨e, hb, ?_⟩⟩
      have hbyte : (UInt8.ofNat (d * 16 + e)).toNat = d * 16 + e := by
        have := ha.1
        have := hb.1
        rw [UInt8.toNat_ofNat']
        omega
      have hshift : (acc * 16 + d) * 16 + e = acc * 256 + (d * 16 + e) := by omega
      rw [ih, Elements.number_cons, hbyte, List.length_cons, Nat.pow_succ', hshift, Nat.add_mul,
        Nat.mul_assoc, Nat.add_assoc]

theorem hexData_cons : HexData (c :: s) ↔
    ((∃ d, IsDigit 16 c d) ∨ c = '+' ∧ s.length % 2 = 1) ∧ HexData s := by
  constructor
  · intro h
    refine ⟨h c s (List.suffix_refl _), fun b rest hrest => ?_⟩
    exact h b rest (hrest.trans (List.suffix_cons c s))
  · rintro ⟨hc, hs⟩ b rest hrest
    rcases List.suffix_cons_iff.1 hrest with heq | hrest
    · cases heq
      exact hc
    · exact hs b rest hrest

theorem Pairs.hexData (h : Pairs s bytes) : HexData s := by
  induction h with
  | nil =>
      intro c rest hrest
      cases List.suffix_nil.1 hrest
  | @cons a b d e s bytes ha hb h ih =>
      refine hexData_cons.2 ⟨?_, hexData_cons.2 ⟨Or.inl ⟨e, hb⟩, ih⟩⟩
      unfold zeroed at ha
      split at ha
      · next hplus =>
        refine Or.inr ⟨hplus, ?_⟩
        rw [List.length_cons, h.length_eq]
        omega
      · exact Or.inl ⟨d, ha⟩

/-- Hexadecimal data of an even length are pairs. -/
theorem exists_pairs : ∀ {s : List Char}, HexData s → s.length % 2 = 0 → ∃ bytes, Pairs s bytes
  | [], _, _ => ⟨[], .nil⟩
  | [_], _, heven => by cases heven
  | a :: b :: s, hs, heven => by
      obtain ⟨ha, hbs⟩ := hexData_cons.1 hs
      obtain ⟨hb, hs⟩ := hexData_cons.1 hbs
      have heven' : s.length % 2 = 0 := by
        simp only [List.length_cons] at heven
        omega
      obtain ⟨bytes, hpairs⟩ := exists_pairs hs heven'
      obtain ⟨e, he⟩ := hb.resolve_right fun hplus => absurd hplus.2 (by omega)
      have hfirst : ∃ d, IsDigit 16 (zeroed a) d := by
        rcases ha with ⟨d, hd⟩ | ⟨rfl, -⟩
        · exact ⟨d, by rwa [zeroed_of_isDigit hd]⟩
        · exact ⟨0, isDigit_zero⟩
      obtain ⟨d, hd⟩ := hfirst
      exact ⟨_, .cons hd he hpairs⟩

/-- The pairs that hexadecimal data are, by their number. -/
theorem pairs_iff : Pairs s bytes ↔ HexData s ∧ s.length = 2 * bytes.length ∧
    digitsFrom? 16 0 (s.map zeroed) = some (Elements.number bytes) := by
  constructor
  · intro h
    refine ⟨h.hexData, h.length_eq, ?_⟩
    rw [h.digitsFrom?_eq, Nat.zero_mul, Nat.zero_add]
  · rintro ⟨hs, hlength, hnumber⟩
    obtain ⟨bytes', h⟩ := exists_pairs hs (by omega)
    have hsame : bytes'.length = bytes.length := by
      have := h.length_eq
      omega
    rw [h.digitsFrom?_eq, Nat.zero_mul, Nat.zero_add, Option.some.injEq] at hnumber
    have hbytes := Elements.toBytes_number bytes'
    rw [hsame, hnumber, Elements.toBytes_number] at hbytes
    exact hbytes ▸ h

/-- An odd number of characters gets a leading zero. -/
def padded (s : List Char) : List Char := if s.length % 2 = 1 then '0' :: s else s

theorem length_padded (s : List Char) : (padded s).length = 2 * ((s.length + 1) / 2) := by
  unfold padded
  split
  · rw [List.length_cons]
    omega
  · omega

theorem hexData_padded : HexData (padded s) ↔ HexData s := by
  unfold padded
  split
  · exact hexData_cons.trans (and_iff_right (Or.inl ⟨0, isDigit_zero⟩))
  · rfl

theorem digitsFrom?_padded (s : List Char) :
    digitsFrom? 16 0 ((padded s).map zeroed) = digitsFrom? 16 0 (s.map zeroed) := by
  unfold padded
  split <;> rfl

theorem hexBytes_iff_pairs {text : String} :
    hexBytes text = .ok bytes ↔ Pairs (padded text.toList) bytes := by
  rw [← hexPairs?_eq_some, hexBytes, ← padded]
  split
  · next heq => rw [heq, Except.ok.injEq, Option.some.injEq]
  · next heq => simp [heq]

/-- **The texts that are read as bytes** are hexadecimal data. -/
theorem exists_hexBytes_iff {text : String} :
    (∃ bytes, hexBytes text = .ok bytes) ↔ HexData text.toList := by
  simp only [hexBytes_iff_pairs, ← hexData_padded (s := text.toList)]
  refine ⟨fun ⟨bytes, h⟩ => h.hexData, fun h => exists_pairs h ?_⟩
  rw [length_padded]
  omega

/-- **The bytes of a text** are the number that its digits denote, in half as many bytes. -/
theorem hexBytes_eq_ok {text : String} : hexBytes text = .ok bytes ↔
    HexData text.toList ∧ bytes.length = (text.toList.length + 1) / 2 ∧
      Numeral 16 ('0' :: text.toList.map zeroed) (Elements.number bytes) := by
  rw [hexBytes_iff_pairs, pairs_iff, hexData_padded, digitsFrom?_padded, length_padded,
    numeral_zero_cons]
  refine and_congr_right fun _ => and_congr_left fun _ => ?_
  omega

/-- What is not hexadecimal data is refused. -/
theorem hexBytes_eq_error {text : String} {f : CommandFault} (h : hexBytes text = .error f) :
    f = .invalidHex text := by
  unfold hexBytes at h
  dsimp only at h
  split at h
  · cases h
  · cases h
    rfl

/-- Without a plus sign hexadecimal data are digits. -/
theorem hexData_iff (hplus : '+' ∉ s) : HexData s ↔ ∀ c ∈ s, ∃ d, IsDigit 16 c d := by
  induction s with
  | nil => exact iff_of_true (fun c rest h => nomatch List.suffix_nil.1 h) (List.forall_mem_nil _)
  | cons c s ih =>
      rw [List.mem_cons, not_or] at hplus
      obtain ⟨hc, hs⟩ := hplus
      rw [hexData_cons, List.forall_mem_cons, ih hs]
      refine and_congr_left fun _ => ⟨fun h => ?_, Or.inl⟩
      exact h.resolve_right fun h => hc h.1.symm

theorem map_zeroed (hplus : '+' ∉ s) : s.map zeroed = s := by
  rw [List.map_congr_left, List.map_id]
  intro c hc
  exact if_neg fun h : c = '+' => hplus (h ▸ hc)

/-! ## Data that are given -/

/-- The word of a kind of data. -/
def DataKind.word : DataKind → String
  | .mask => "MASK"
  | .tdo => "TDO"
  | .tdi => "TDI"

theorem DataKind.ofWord?_word (k : DataKind) : ofWord? k.word = some k := by
  cases k <;> rfl

theorem DataKind.eq_word {w : String} {k : DataKind} (h : ofWord? w = some k) : w = k.word := by
  unfold ofWord? at h
  split at h <;> cases h <;> rfl

/-- The tokens of a kind of data and its group. -/
def argument (p : DataKind × String) : List Token := [.word p.1.word, .group p.2]

theorem flatMap_argument_injective :
    Function.Injective fun given : List (DataKind × String) => given.flatMap argument := by
  intro given given' h
  induction given generalizing given' with
  | nil =>
      cases given' with
      | nil => rfl
      | cons => cases h
  | cons p given ih =>
      cases given' with
      | nil => cases h
      | cons q given' =>
          obtain ⟨k, text⟩ := p
          obtain ⟨l, text'⟩ := q
          simp only [List.flatMap_cons, argument, List.cons_append, List.nil_append,
            List.cons.injEq, Token.word.injEq, Token.group.injEq] at h
          obtain ⟨hword, rfl, h⟩ := h
          have hkind := DataKind.ofWord?_word k
          rw [hword, DataKind.ofWord?_word, Option.some.injEq] at hkind
          rw [hkind, ih h]

/-- Some data are what groups give to other data: each kind once, every group as its bytes. -/
structure Adds (given : List (DataKind × String)) (d d' : ScanData) : Prop where
  once : (given.map Prod.fst).Nodup
  fresh : ∀ k ∈ given.map Prod.fst, d.get? k = none
  hex : ∀ p ∈ given, HexData p.2.toList
  get?_eq : ∀ k bytes, d'.get? k = some bytes ↔
    d.get? k = some bytes ∨ ∃ text, (k, text) ∈ given ∧ hexBytes text = .ok bytes

variable {d₀ d₁ : ScanData} {k : DataKind} {text : String} {given given' : List (DataKind × String)}

theorem ScanData.eq_of_get? (h : ∀ k, d₀.get? k = d₁.get? k) : d₀ = d₁ := by
  cases d₀
  cases d₁
  rw [ScanData.mk.injEq]
  exact ⟨h .mask, h .tdo, h .tdi⟩

theorem ScanData.get?_set (d : ScanData) (k l : DataKind) (bytes : List UInt8) :
    (d.set k bytes).get? l = if k = l then some bytes else d.get? l := by
  cases k <;> cases l <;> rfl

theorem adds_nil : Adds [] d₀ d₁ ↔ d₁ = d₀ := by
  constructor
  · intro h
    refine ScanData.eq_of_get? fun k => Option.ext fun bytes => ?_
    simpa using h.get?_eq k bytes
  · rintro rfl
    exact ⟨List.nodup_nil, by simp, by simp, by simp⟩

/-- Groups are added one by one. -/
theorem adds_cons : Adds ((k, text) :: given) d₀ d₁ ↔
    d₀.get? k = none ∧ ∃ bytes, hexBytes text = .ok bytes ∧ Adds given (d₀.set k bytes) d₁ := by
  -- What the first group gives stands beside what the others give.
  have hgives : ∀ {bytes}, hexBytes text = .ok bytes → ∀ l b,
      (∃ t, (l, t) ∈ (k, text) :: given ∧ hexBytes t = .ok b) ↔
        (k = l ∧ bytes = b) ∨ ∃ t, (l, t) ∈ given ∧ hexBytes t = .ok b := by
    intro bytes hbytes l b
    constructor
    · rintro ⟨t, ht, htb⟩
      rcases List.mem_cons.1 ht with heq | ht
      · cases heq
        rw [hbytes] at htb
        exact Or.inl ⟨rfl, Except.ok.inj htb⟩
      · exact Or.inr ⟨t, ht, htb⟩
    · rintro (⟨rfl, rfl⟩ | ⟨t, ht, htb⟩)
      · exact ⟨text, List.mem_cons_self, hbytes⟩
      · exact ⟨t, List.mem_cons_of_mem _ ht, htb⟩
  have hset : ∀ {bytes}, d₀.get? k = none → ∀ l b, (d₀.set k bytes).get? l = some b ↔
      (k = l ∧ bytes = b) ∨ d₀.get? l = some b := by
    intro bytes hnone l b
    rw [ScanData.get?_set]
    by_cases hkl : k = l
    · subst hkl
      simp [hnone]
    · simp [hkl]
  constructor
  · intro h
    obtain ⟨hk, honce⟩ := List.nodup_cons.1 h.once
    have hnone : d₀.get? k = none := h.fresh k List.mem_cons_self
    obtain ⟨bytes, hbytes⟩ := exists_hexBytes_iff.2 (h.hex (k, text) List.mem_cons_self)
    refine ⟨hnone, bytes, hbytes, honce, fun l hl => ?_,
      fun p hp => h.hex p (List.mem_cons_of_mem _ hp), fun l b => ?_⟩
    · rw [ScanData.get?_set, if_neg fun hkl : k = l => hk (hkl ▸ hl)]
      exact h.fresh l (List.mem_cons_of_mem _ hl)
    · rw [h.get?_eq, hgives hbytes, hset hnone, or_left_comm, or_assoc]
  · rintro ⟨hnone, bytes, hbytes, h⟩
    have hk : k ∉ given.map Prod.fst := by
      intro hk
      have hfresh := h.fresh k hk
      rw [ScanData.get?_set, if_pos rfl] at hfresh
      cases hfresh
    refine ⟨List.nodup_cons.2 ⟨hk, h.once⟩, fun l hl => ?_, fun p hp => ?_, fun l b => ?_⟩
    · rcases List.mem_cons.1 hl with rfl | hl
      · exact hnone
      · have hfresh := h.fresh l hl
        rwa [ScanData.get?_set, if_neg fun hkl : k = l => hk (hkl ▸ hl)] at hfresh
    · rcases List.mem_cons.1 hp with rfl | hp
      · exact exists_hexBytes_iff.1 ⟨bytes, hbytes⟩
      · exact h.hex p hp
    · rw [h.get?_eq, hgives hbytes, hset hnone, or_left_comm, or_assoc]

/-- **Data are read from groups with their names, each name once.** -/
theorem read_eq_ok {tokens : List Token} : d₀.read tokens = .ok d₁ ↔
    ∃ given : List (DataKind × String), tokens = given.flatMap argument ∧ Adds given d₀ d₁ := by
  constructor
  · intro h
    fun_induction ScanData.read d₀ tokens with
    | case1 d =>
        cases h
        exact ⟨[], rfl, adds_nil.2 rfl⟩
    | case5 d name kind hkind text rest hnone bytes hbytes ih =>
        obtain ⟨given, hrest, hadds⟩ := ih h
        refine ⟨(kind, text) :: given, ?_, adds_cons.2 ⟨?_, bytes, hbytes, hadds⟩⟩
        · rw [List.flatMap_cons, argument, DataKind.eq_word hkind, hrest]
          rfl
        · exact Option.not_isSome_iff_eq_none.1 hnone
    | _ => cases h
  · rintro ⟨given, rfl, h⟩
    induction given generalizing d₀ with
    | nil => rw [adds_nil.1 h]; rfl
    | cons p given ih =>
        obtain ⟨k, text⟩ := p
        obtain ⟨hnone, bytes, hbytes, h⟩ := adds_cons.1 h
        rw [List.flatMap_cons, argument, List.cons_append, List.cons_append, List.nil_append,
          ScanData.read, DataKind.ofWord?_word]
        dsimp only
        rw [hnone, hbytes]
        exact ih h

/-! ## Scans -/

theorem ofTokens_word (kind : ScanKind) (args : List Token) :
    Command.ofTokens (.word kind.word :: args) = Command.readScan kind args := by
  cases kind <;> rfl

variable {kind : ScanKind} {bits : Nat} {data : ScanData} {tokens args : List Token} {c : Command}

theorem readScan_eq_ok : Command.readScan kind args = .ok c ↔
    ∃ count given bits data, args = .word count :: given.flatMap argument ∧
      Text.unsigned? 10 (2 ^ 32) count.toList = some bits ∧ Adds given {} data ∧
      c = .scan kind bits data := by
  constructor
  · intro h
    unfold Command.readScan at h
    obtain ⟨count, hcount, h⟩ := exists_of_bind_eq_ok h
    obtain ⟨rest, rfl⟩ := word_eq_ok.1 hcount
    cases hbits : Text.unsigned? 10 (2 ^ 32) count.toList with
    | none =>
        rw [hbits] at h
        cases h
    | some bits =>
        rw [hbits] at h
        obtain ⟨data, hdata, h⟩ := exists_of_bind_eq_ok h
        cases h
        obtain ⟨given, hrest, hadds⟩ := read_eq_ok.1 hdata
        exact ⟨count, given, bits, data, congrArg _ hrest, hbits, hadds, rfl⟩
  · rintro ⟨count, given, bits, data, rfl, hbits, hadds, rfl⟩
    have hread : ScanData.read {} (given.flatMap argument) = .ok data :=
      read_eq_ok.2 ⟨given, rfl, hadds⟩
    unfold Command.readScan
    refine bind_eq_ok.2 ⟨count, rfl, ?_⟩
    rw [hbits]
    exact bind_eq_ok.2 ⟨data, hread, rfl⟩

/-- **A scan is read from its word, a number of bits and groups with their names.** -/
theorem ofTokens_eq_scan : Command.ofTokens tokens = .ok (.scan kind bits data) ↔
    ∃ count given, tokens = .word kind.word :: .word count :: given.flatMap argument ∧
      Text.unsigned? 10 (2 ^ 32) count.toList = some bits ∧ Adds given {} data := by
  constructor
  · intro h
    rcases ofTokens_cases h with ⟨s, hc | hc | hc⟩ | ⟨hertz, hc, -⟩ | ⟨s, cycles, time, hc, -⟩ |
      ⟨kind', args, rfl, hscan⟩
    case inr.inr.inr =>
      obtain ⟨count, given, bits', data', rfl, hbits, hadds, hc⟩ := readScan_eq_ok.1 hscan
      cases hc
      exact ⟨count, given, rfl, hbits, hadds⟩
    all_goals cases hc
  · rintro ⟨count, given, rfl, hbits, hadds⟩
    rw [ofTokens_word]
    exact readScan_eq_ok.2 ⟨count, given, bits, data, rfl, hbits, hadds, rfl⟩

theorem adds_empty : Adds given {} d₁ ↔ (given.map Prod.fst).Nodup ∧
    (∀ p ∈ given, HexData p.2.toList) ∧ ∀ k bytes, d₁.get? k = some bytes ↔
      ∃ text, (k, text) ∈ given ∧ hexBytes text = .ok bytes := by
  have hnone : ∀ k, ScanData.get? {} k = none := by
    intro k
    cases k <;> rfl
  constructor
  · intro h
    refine ⟨h.once, h.hex, fun k bytes => ?_⟩
    rw [h.get?_eq, hnone]
    simp
  · rintro ⟨honce, hhex, hget⟩
    refine ⟨honce, fun k _ => hnone k, hhex, fun k bytes => ?_⟩
    rw [hget, hnone]
    simp

/-- The order of the groups does not show in the data. -/
theorem Adds.perm (h : Adds given d₀ d₁) (hperm : given.Perm given') : Adds given' d₀ d₁ where
  once := (hperm.map Prod.fst).nodup_iff.1 h.once
  fresh k hk := h.fresh k ((hperm.map Prod.fst).mem_iff.2 hk)
  hex p hp := h.hex p (hperm.mem_iff.2 hp)
  get?_eq k bytes := by
    rw [h.get?_eq]
    simp only [hperm.mem_iff]

/-- **Scans that are accepted.** A group is read as bytes exactly if every character of it is a
hexadecimal digit or a plus sign where a byte starts; the bytes are the number that its digits
denote, the high byte first, in half as many bytes as it has characters, rounded up. So it is read
exactly if it holds digits alone, unless it is such data with a plus sign. A scan is its word, a
number of bits and such groups with their names, each name once, and the order of the groups does
not show in it. -/
theorem scan_accepted (text : String) (kind : ScanKind) (given given' : List (DataKind × String)) :
    ((∃ bytes, hexBytes text = .ok bytes) ↔ HexData text.toList) ∧
    (∀ bytes, hexBytes text = .ok bytes ↔ HexData text.toList ∧
      bytes.length = (text.toList.length + 1) / 2 ∧
      Numeral 16 ('0' :: text.toList.map zeroed) (Elements.number bytes)) ∧
    (((∃ bytes, hexBytes text = .ok bytes) ↔ ∀ c ∈ text.toList, ∃ d, IsDigit 16 c d) ↔
      ¬ (HexData text.toList ∧ '+' ∈ text.toList)) ∧
    ('+' ∉ text.toList → ∀ bytes, hexBytes text = .ok bytes →
      bytes.length = (text.toList.length + 1) / 2 ∧
      Numeral 16 ('0' :: text.toList) (Elements.number bytes)) ∧
    (∀ f, hexBytes text = .error f → f = .invalidHex text) ∧
    (∀ tokens bits data, Command.ofTokens tokens = .ok (.scan kind bits data) ↔
      ∃ count, ∃ given : List (DataKind × String),
        tokens = .word kind.word :: .word count :: given.flatMap argument ∧
        Text.unsigned? 10 (2 ^ 32) count.toList = some bits ∧ (given.map Prod.fst).Nodup ∧
        (∀ p ∈ given, HexData p.2.toList) ∧ ∀ k bytes, data.get? k = some bytes ↔
          ∃ text, (k, text) ∈ given ∧ hexBytes text = .ok bytes) ∧
    (given.Perm given' → ∀ count c,
      Command.ofTokens (.word kind.word :: .word count :: given.flatMap argument) = .ok c →
      Command.ofTokens (.word kind.word :: .word count :: given'.flatMap argument) = .ok c) := by
  refine ⟨exists_hexBytes_iff, fun _ => hexBytes_eq_ok, ?_, fun hplus bytes hbytes => ?_,
    fun _ => hexBytes_eq_error, fun tokens bits data => ?_, fun hperm count c h => ?_⟩
  · rw [exists_hexBytes_iff]
    by_cases hplus : '+' ∈ text.toList
    · have hdigits : ¬ ∀ c ∈ text.toList, ∃ d, IsDigit 16 c d := by
        intro h
        obtain ⟨d, hd⟩ := h '+' hplus
        exact not_isDigit_plus hd
      rw [iff_false_right hdigits, and_iff_left hplus]
    · exact iff_of_true (hexData_iff hplus) fun h => hplus h.2
  · obtain ⟨-, hlength, hnumber⟩ := hexBytes_eq_ok.1 hbytes
    rw [map_zeroed hplus] at hnumber
    exact ⟨hlength, hnumber⟩
  · rw [ofTokens_eq_scan]
    simp only [adds_empty]
  · rw [ofTokens_word] at h ⊢
    obtain ⟨count', given₀, bits, data, hargs, hbits, hadds, rfl⟩ := readScan_eq_ok.1 h
    obtain ⟨hcount, hgiven⟩ := List.cons.inj hargs
    cases hcount
    cases flatMap_argument_injective hgiven
    exact readScan_eq_ok.2 ⟨count, given', bits, data, rfl, hbits, hadds.perm hperm, rfl⟩

/-- A plus sign that starts a byte counts as a zero, in whatever order the groups come. -/
theorem scan_accepted_plus :
    let mask : DataKind × String := (.mask, "ABC")
    let tdi : DataKind × String := (.tdi, "+5")
    let c : Command := .scan .sdr 12 { mask := some [0x0A, 0xBC], tdi := some [5] }
    Command.ofTokens (.word "SDR" :: .word "12" :: [mask, tdi].flatMap argument) = .ok c ∧
      Command.ofTokens (.word "SDR" :: .word "12" :: [tdi, mask].flatMap argument) = .ok c ∧
      HexData "+5".toList ∧ ¬ HexData "5+".toList ∧
      Numeral 16 ('0' :: "ABC".toList) (Elements.number [0x0A, 0xBC]) := by
  intro mask tdi c
  have hmask : Command.ofTokens (.word "SDR" :: .word "12" :: [mask, tdi].flatMap argument) =
      .ok c := by decide +kernel
  obtain ⟨-, -, -, hnumber, -, -, horder⟩ := scan_accepted "ABC" .sdr [mask, tdi] [tdi, mask]
  refine ⟨hmask, horder (List.Perm.swap _ _ []) "12" c hmask, ?_, ?_, ?_⟩
  · exact exists_hexBytes_iff.1 ⟨[5], by decide +kernel⟩
  · rw [← exists_hexBytes_iff]
    rintro ⟨bytes, hbytes⟩
    have herror : hexBytes "5+" = .error (.invalidHex "5+") := by decide +kernel
    rw [herror] at hbytes
    cases hbytes
  · exact (hnumber (by decide) _ (by decide +kernel)).2

end EmbeddedBuffers.Svf
