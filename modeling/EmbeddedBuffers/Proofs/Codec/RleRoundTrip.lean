import EmbeddedBuffers.Proofs.Codec.Decoding
import EmbeddedBuffers.Proofs.Codec.RleLostSentinel

/-!
# When run lengths lose nothing

The sentinel is a value that an element can hold, with one exception: where elements of two
bytes go through all their values, the least absent value is one more than they hold. The
stream then has zero for its sentinel, and zeros that are not counted as a run are lost.
Main statement: `encode_rle_ok_iff`, by way of `Rle.decodeFrom_stream_iff`.
-/

namespace EmbeddedBuffers.Codec.Rle

/-- Every value of two bytes occurs among the elements, and somewhere zeros stand in a run
too short to be counted. -/
structure Exhausts (p : Rle) (data : List UInt8) : Prop where
  width_eq : p.width = 2
  all : ∀ v < 2 ^ 16, v ∈ Elements.ofBytes p.width data
  short : ∃ run ∈ runs (Elements.ofBytes p.width data), run.1 = 0 ∧ run.2 < minRun

variable {p : Rle} {data : List UInt8}

/-! ## The sentinel that a stream keeps -/

/-- The least absent value is one more than an element holds where all values occur. -/
theorem sentinelOf_eq_of_all (hp : p.Admissible) (hw : p.width = 2)
    (hall : ∀ v < 2 ^ 16, v ∈ Elements.ofBytes p.width data) :
    p.sentinelOf data = 2 ^ p.bits := by
  obtain ⟨habsent, -, hbelow⟩ := leastAbsent_spec (Elements.ofBytes p.width data)
  have hbits : p.bits = 16 := by rw [bits, hw]
  have hlt := hp.lt_of_mem_ofBytes data
  rw [hbits] at hlt ⊢
  have heq : p.sentinelOf data = leastAbsent (Elements.ofBytes p.width data) := by
    unfold sentinelOf sentinel
    rw [if_neg (by omega)]
  rw [heq]
  generalize leastAbsent (Elements.ofBytes p.width data) = s at habsent hbelow
  -- Smaller, it would occur; greater, the number in question would.
  have hge : ¬ s < 2 ^ 16 := fun hs => habsent (hall s hs)
  have hle : ¬ 2 ^ 16 < s := fun hs => Nat.lt_irrefl _ (hlt _ (hbelow _ hs))
  omega

theorem Admissible.length_ofBytes_lt (hp : p.Admissible) (hsize : data.length < 2 ^ 32) :
    (Elements.ofBytes p.width data).length < 2 ^ 32 := by
  rw [Elements.length_ofBytes hp.width_pos]
  rcases hp with hw | hw | hw | hw <;> rw [hw] <;> omega

/-- A sentinel that no element can hold stands for values that are exhausted. -/
theorem all_of_sentinelOf_ge (hp : p.Admissible) (hsize : data.length < 2 ^ 32)
    (hs : 2 ^ p.bits ≤ p.sentinelOf data) :
    p.width = 2 ∧ ∀ v < 2 ^ 16, v ∈ Elements.ofBytes p.width data := by
  have hlen := hp.length_ofBytes_lt hsize
  obtain ⟨-, hle, hbelow⟩ := leastAbsent_spec (Elements.ofBytes p.width data)
  unfold sentinelOf sentinel at hs
  rcases hp with hw | hw | hw | hw
  · rw [if_pos hw, bits, hw] at hs
    exact absurd (rarestByte_lt _) (Nat.not_lt.2 hs)
  · rw [if_neg (by omega), bits, hw] at hs
    rw [hw] at hbelow ⊢
    exact ⟨rfl, fun v hv => hbelow v (Nat.lt_of_lt_of_le hv hs)⟩
  · rw [if_neg (by omega), bits] at hs
    have hpow : 2 ^ 32 ≤ 2 ^ (p.width * 8) := Nat.pow_le_pow_right (by decide) (by omega)
    omega
  · rw [if_neg (by omega), bits] at hs
    have hpow : 2 ^ 32 ≤ 2 ^ (p.width * 8) := Nat.pow_le_pow_right (by decide) (by omega)
    omega

/-- Unless the values are exhausted, the sentinel of the decoder tells its tokens apart. -/
theorem readable_of_not_exhausts (hp : p.Admissible) (hsize : data.length < 2 ^ 32)
    (h : ¬ p.Exhausts data) :
    ∀ t ∈ p.tokensOf data, t.Readable p (p.sentinelOf data % 2 ^ p.bits) := by
  refine readable_tokens (hp.lt_of_mem_ofBytes data) ?_
  intro run hrun heq
  by_cases hs : p.sentinelOf data < 2 ^ p.bits
  · rw [Nat.mod_eq_of_lt hs] at heq
    exact Or.inr heq
  · left
    obtain ⟨hw, hall⟩ := all_of_sentinelOf_ge hp hsize (Nat.not_lt.1 hs)
    by_contra hshort
    have hzero : run.1 = 0 := by
      rw [heq, sentinelOf_eq_of_all hp hw hall, Nat.mod_self]
    exact h ⟨hw, hall, run, hrun, hzero, Nat.not_le.1 hshort⟩

/-! ## What decodes -/

theorem length_le_length_flatMap_bits (hp : p.Admissible) (sentinel : Nat) (ts : List Token) :
    ts.length ≤ (ts.flatMap (Token.bits p sentinel)).length := by
  have hpos := hp.bits_pos
  induction ts with
  | nil => exact Nat.zero_le _
  | cons t ts ih =>
      rw [List.flatMap_cons, List.length_append, List.length_cons, Token.length_bits]
      have hcost : 1 ≤ t.cost p := by
        cases t <;> simp only [Token.cost] <;> omega
      omega

/-- The bits of tokens, for the encoder and for the decoder. -/
theorem flatMap_bits_mod (p : Rle) (sentinel : Nat) (ts : List Token) :
    ts.flatMap (Token.bits p sentinel) = ts.flatMap (Token.bits p (sentinel % 2 ^ p.bits)) := by
  congr 1
  funext t
  exact (Token.bits_mod p sentinel t).symm

theorem take_flatMap_toBytes_ofBytes (hp : p.Admissible) (data : List UInt8) :
    ((Elements.ofBytes p.width data).flatMap (Elements.toBytes p.width)).take data.length =
      data := by
  obtain ⟨pad, -, heq⟩ := Elements.flatMap_toBytes_ofBytes hp.width_pos data
  rw [heq, List.take_left]

/-- Tokens that the decoder tells apart give the data back, and exactly their bits are used up. -/
theorem decodeFrom_stream_of_readable (hp : p.Admissible) (hsize : data.length < 2 ^ 32)
    (hread : ∀ t ∈ p.tokensOf data, t.Readable p (p.sentinelOf data % 2 ^ p.bits))
    (position : Nat) (rest : List Bool) :
    ∃ place, decodeFrom ⟨position, p.stream data ++ rest⟩ = .ok (p, data, ⟨place, rest⟩) := by
  obtain ⟨start, hdecode⟩ := decodeFrom_stream hp hsize position rest
  have hmod : p.sentinelOf data % 2 ^ p.bits < 2 ^ p.bits := Nat.mod_lt _ (Nat.two_pow_pos _)
  have hexpand : (p.tokensOf data).flatMap Token.expand = Elements.ofBytes p.width data :=
    expand_tokens p _ _
  have htotal := hp.length_ofBytes_lt hsize
  have hcount := length_le_length_flatMap_bits hp (p.sentinelOf data) (p.tokensOf data)
  rw [hdecode]
  rw [flatMap_bits_mod] at hcount ⊢
  rw [readTokens_flatMap hp hmod hread htotal (by rw [hexpand]; simp)
    (by rw [List.length_append]; omega), hexpand, readTokens_of_full (by simp)]
  have hdata := take_flatMap_toBytes_ofBytes hp data
  simp only [Except.map, Array.empty_append, hdata]
  exact ⟨_, rfl⟩

/-! ## What does not -/

/-- Elements whose bytes are those of the data pass for the elements of the data. -/
theorem passes_of_take {width pad : Nat} {xs ys : List Nat} {bytes : List UInt8}
    (hx : ∀ x ∈ xs, x < 256 ^ width) (hy : ∀ y ∈ ys, y < 256 ^ width)
    (hlen : xs.length = ys.length) (hpad : pad ≤ width)
    (hys : ys.flatMap (Elements.toBytes width) = bytes ++ List.replicate pad 0)
    (hxs : (xs.flatMap (Elements.toBytes width)).take bytes.length = bytes) : Passes xs ys := by
  induction xs generalizing ys bytes with
  | nil =>
      rw [List.eq_nil_of_length_eq_zero hlen.symm]
      exact .nil
  | cons x xs ih =>
      cases ys with
      | nil => simp at hlen
      | cons y ys =>
          rw [List.forall_mem_cons] at hx hy
          rw [List.length_cons, List.length_cons, Nat.add_right_cancel_iff] at hlen
          have hbytes := congrArg List.length hys
          rw [Elements.length_flatMap_toBytes, List.length_append, List.length_replicate,
            List.length_cons, Nat.succ_mul] at hbytes
          rw [List.flatMap_cons] at hys hxs
          rw [List.take_append, Elements.length_toBytes] at hxs
          by_cases hw : width ≤ bytes.length
          · -- The first element is there as a whole.
            rw [List.take_of_length_le (by rwa [Elements.length_toBytes])] at hxs
            rw [← hxs, List.append_assoc] at hys
            obtain ⟨hhead, htail⟩ := List.append_inj hys (by simp)
            rw [Elements.toBytes_inj hy.1 hx.1 hhead]
            have hl := congrArg List.length hxs
            rw [List.length_append, Elements.length_toBytes] at hl
            refine .cons x (ih hx.2 hy.2 hlen htail ?_)
            rw [show (List.take (bytes.length - width) _).length = bytes.length - width by omega]
          · -- Only the last element can be cut short.
            have hnil : ys = [] := by
              by_contra hne
              have hmany := Nat.le_mul_of_pos_left width (List.length_pos_iff.2 hne)
              omega
            subst hnil
            rw [List.eq_nil_of_length_eq_zero hlen] at hxs ⊢
            simp only [List.flatMap_nil, List.append_nil, List.take_nil] at hys hxs
            by_cases hx0 : x = 0
            · subst hx0
              rw [Elements.toBytes_zero, List.take_replicate] at hxs
              have hzero : Elements.toBytes width y = Elements.toBytes width 0 := by
                rw [hys, ← hxs, List.replicate_append_replicate, Elements.toBytes_zero]
                congr 1
                simp only [List.length_nil, Nat.zero_mul] at hbytes
                omega
              rw [Elements.toBytes_inj hy.1 hx.1 hzero]
              exact .cons 0 .nil
            · exact .last y hx0

/-- Up to the first run of zeros that is too short, the decoder reads what was written. -/
theorem Exhausts.exists_split (hp : p.Admissible) (h : p.Exhausts data) :
    ∃ before run after, runs (Elements.ofBytes p.width data) = before ++ run :: after ∧
      run.1 = 0 ∧ run.2 < minRun ∧
      ∀ t ∈ before.flatMap (p.tokensOfRun (p.sentinelOf data)), t.Readable p 0 := by
  obtain ⟨found, hfound, hzero⟩ := h.short
  have hexists : (runs (Elements.ofBytes p.width data)).find?
      (fun r => r.1 = 0 ∧ r.2 < minRun) ≠ none := by
    intro hnone
    have hall := List.find?_eq_none.1 hnone found hfound
    simp [hzero] at hall
  obtain ⟨run, hrun⟩ := Option.ne_none_iff_exists'.1 hexists
  obtain ⟨hshort, before, after, heq, hbefore⟩ := List.find?_eq_some_iff_append.1 hrun
  simp only [decide_eq_true_eq] at hshort
  refine ⟨before, run, after, heq, hshort.1, hshort.2, ?_⟩
  intro t ht
  obtain ⟨r, hr, ht⟩ := List.mem_flatMap.1 ht
  have hmem : r ∈ runs (Elements.ofBytes p.width data) := heq ▸ List.mem_append_left _ hr
  refine readable_tokensOfRun (hp.lt_of_mem_ofBytes data _ (mem_of_mem_runs hmem)) ?_ t ht
  intro hr0
  left
  have hlong := hbefore r hr
  simp only [Bool.not_eq_true', decide_eq_false_iff_not, not_and] at hlong
  exact Nat.not_lt.1 (hlong hr0)

/-- Exhausted values do not read back. -/
theorem decodeFrom_stream_of_exhausts (hp : p.Admissible) (hsize : data.length < 2 ^ 32)
    (h : p.Exhausts data) (position : Nat) {rest : List Bool} (hrest : rest.length < p.bits)
    (q : Rle) (r : BitReader) :
    decodeFrom ⟨position, p.stream data ++ rest⟩ ≠ .ok (q, data, r) := by
  intro hok
  obtain ⟨start, hdecode⟩ := decodeFrom_stream hp hsize position rest
  have htotal := hp.length_ofBytes_lt hsize
  have hlt := hp.lt_of_mem_ofBytes data
  have hsentinel := sentinelOf_eq_of_all hp h.width_eq h.all
  have hcount := length_le_length_flatMap_bits hp (p.sentinelOf data) (p.tokensOf data)
  have hall : ∀ t ∈ p.tokensOf data, t.Readable p (p.sentinelOf data) :=
    readable_tokens hlt fun _ _ heq => Or.inr heq
  obtain ⟨before, run, after, hruns, hzero, hshort, hread⟩ := h.exists_split hp
  have hmax := maximal_runs (Elements.ofBytes p.width data)
  have hvalues := expand_runs (Elements.ofBytes p.width data)
  have hknown : ∀ r ∈ runs (Elements.ofBytes p.width data), r.1 ≠ p.sentinelOf data :=
    fun r hr => Nat.ne_of_lt (hsentinel ▸ hlt _ (mem_of_mem_runs hr))
  have htokens : p.tokensOf data = before.flatMap (p.tokensOfRun (p.sentinelOf data)) ++
      (run :: after).flatMap (p.tokensOfRun (p.sentinelOf data)) := by
    rw [← List.flatMap_append, ← hruns]
    rfl
  rw [hruns] at hmax hvalues hknown
  have hsplit : expandRuns (before ++ run :: after) =
      expandRuns before ++ expandRuns (run :: after) := List.flatMap_append
  rw [hsplit] at hvalues
  have hlenv := congrArg List.length hvalues
  rw [List.length_append] at hlenv
  -- The decoder, whose sentinel is zero, gets through the tokens before the short run.
  rw [flatMap_bits_mod, htokens, hsentinel, Nat.mod_self] at hdecode
  rw [flatMap_bits_mod, htokens, hsentinel, Nat.mod_self] at hcount
  rw [htokens] at hall
  rw [hsentinel] at hall hread hknown
  rw [List.flatMap_append, List.append_assoc, readTokens_flatMap hp (Nat.two_pow_pos _) hread
    htotal (by rw [expand_flatMap_tokensOfRun]; simp; omega) (by simp at hcount ⊢; omega),
    expand_flatMap_tokensOfRun] at hdecode
  rw [hdecode] at hok
  generalize hresult : readTokens p 0 _ _ _ _ _ = result at hok
  cases result with
  | error f => cases hok
  | ok found =>
      obtain ⟨out, ahead⟩ := found
      simp only [Except.map, Except.ok.injEq, Prod.mk.injEq] at hok
      obtain ⟨us, hdec, hus, hahead, rfl, hfull⟩ := exists_decoded_of_readTokens hp htotal
        (fun t ht => hall t (List.mem_append_right _ ht)) hrest (by simp; omega) hresult
      simp only [List.append_toArray] at hok hfull
      have hbound : ∀ v ∈ expandRuns before ++ expandAll us, v < 256 ^ p.width := by
        intro v hv
        rw [← two_pow_bits]
        rcases List.mem_append.1 hv with hv | hv
        · exact hlt v (hvalues ▸ List.mem_append_left _ hv)
        · exact lt_of_mem_expand hus v hv
      obtain ⟨pad, hpad, hbytes⟩ := Elements.flatMap_toBytes_ofBytes hp.width_pos data
      have hpass := passes_of_take hbound (two_pow_bits p ▸ hlt) hfull (Nat.le_of_lt hpad) hbytes
        hok.2.1
      rw [← hvalues] at hpass
      obtain ⟨vs, hvs, hpass⟩ := hpass.of_append hmax.of_append.expand_ne_nil
      rw [← List.append_cancel_left hvs] at hpass
      refine not_passes_of_ahead hp.minRun_le_maxCount hmax.of_append
        (fun r hr => hknown r (List.mem_append_right _ hr)) (List.cons_ne_nil _ _) hdec (Or.inr ?_)
        (d := 0) hahead hpass
      rintro r hr
      obtain rfl := Option.some.inj hr
      exact ⟨hzero, hshort⟩

/-- A stream that nothing but the rest of its last byte follows reads back as its data unless
the values are exhausted. -/
theorem decodeFrom_stream_iff (hp : p.Admissible) (hsize : data.length < 2 ^ 32)
    (position : Nat) {rest : List Bool} (hrest : rest.length < 8) :
    (∃ r, decodeFrom ⟨position, p.stream data ++ rest⟩ = .ok (p, data, r)) ↔
      ¬ p.Exhausts data := by
  constructor
  · rintro ⟨r, hok⟩ h
    have hbits : 8 ≤ p.bits := Nat.le_mul_of_pos_left 8 hp.width_pos
    exact decodeFrom_stream_of_exhausts hp hsize h position (by omega) p r hok
  · intro h
    have hread := readable_of_not_exhausts hp hsize h
    obtain ⟨place, hok⟩ := decodeFrom_stream_of_readable hp hsize hread position rest
    exact ⟨_, hok⟩

end Rle

/-! ## Containers -/

theorem defect?_eq_none_iff {s : Scheme} {data bytes : List UInt8} :
    defect? s data bytes = none ↔ decodeContainer bytes = .ok (s, data) := by
  unfold defect?
  cases decodeContainer bytes with
  | error f => simp
  | ok found =>
      obtain ⟨held, decoded⟩ := found
      simp [and_comm]

/-- A container of run lengths is decoded as the stream in it. -/
theorem decodeContainer_rle (p : Rle) (data : List UInt8) :
    ∃ rest : List Bool, rest.length < 8 ∧
      decodeContainer ((Scheme.rle p).encodeInto
          (BitWriter.empty.write (formatVersion * 16 + (Scheme.rle p).id) 8) data).finish =
        (Rle.decodeFrom ⟨8, p.stream data ++ rest⟩).map fun (q, found, _) => (.rle q, found) := by
  have htag := BitWriter.wellFormed_write BitWriter.wellFormed_empty 18 8
  obtain ⟨hw, hbits⟩ := Rle.bits_encodeInto p htag data
  rw [BitWriter.bits_write BitWriter.wellFormed_empty] at hbits
  refine ⟨List.replicate (p.encodeInto (BitWriter.empty.write 18 8) data).padding false, ?_, ?_⟩
  · rw [List.length_replicate]
    exact BitWriter.padding_lt _
  · refine decodeContainer_of_bits (by decide : 2 < 16) ?_
    show bytesBits (p.encodeInto (BitWriter.empty.write 18 8) data).finish = _
    rw [BitWriter.bytesBits_finish hw, hbits, show BitWriter.empty.bits = [] from rfl,
      List.nil_append, List.append_assoc]

theorem request_rle {p : Rle} (hp : p.Admissible) {width : Option Nat} {stride : Nat}
    (hwidth : width.getD stride = p.width) (name : String) (data : List UInt8) (threads : Nat) :
    (Request.rle width).scheme name data stride threads = .ok (.rle p) := by
  rw [Request.scheme, hwidth, Rle.ofWidth_of_admissible hp]
  rfl

/-- **Where run lengths lose data.** For elements of every width, the stream of some data
reads back as the data, and encoding the data succeeds, with one exception: elements of two
bytes that go through all their values, with a run of zeros somewhere that is too short to be
counted. Then the check of the container fails. -/
theorem encode_rle_ok_iff {p : Rle} (hp : p.Admissible) {data : List UInt8}
    (hsize : data.length < 2 ^ 32) {width : Option Nat} {stride : Nat}
    (hwidth : width.getD stride = p.width) (name : String) (threads : Nat) :
    ((∃ r, Rle.decodeFrom (.ofBytes (p.encodeInto .empty data).finish) = .ok (p, data, r)) ↔
        ¬ p.Exhausts data) ∧
      ((∃ e, encode name data stride threads (.rle width) = .ok e) ↔ ¬ p.Exhausts data) ∧
      (p.Exhausts data →
        ∃ d, encode name data stride threads (.rle width) = .error (.defective d)) := by
  have hfits : (Scheme.rle p).fitsWord = true := by
    show (decide (0 < p.width) && decide (p.width ≤ 8)) = true
    rcases hp with h | h | h | h <;> rw [h] <;> rfl
  obtain ⟨rest, hrest, hdecode⟩ := decodeContainer_rle p data
  have hiff := Rle.decodeFrom_stream_iff hp hsize 8 hrest
  generalize hbytes : ((Scheme.rle p).encodeInto _ data).finish = bytes at hdecode
  have hcontainer : container (.rle p) data = .ok bytes := by
    rw [container, if_neg (Nat.not_le.2 hsize), hbytes]
  have hencode : encode name data stride threads (.rle width) =
      encodeWith name data stride (.rle p) := by
    rw [encode, request_rle hp hwidth]
  have hkept : defect? (.rle p) data bytes = none → encode name data stride threads (.rle width) =
      .ok ⟨.rle p, bytes, data.length, stride⟩ := by
    intro h
    rw [hencode, encodeWith, hfits, hcontainer]
    dsimp only
    rw [h]
    exact if_neg (by decide)
  have hlost : ∀ message, defect? (.rle p) data bytes = some message →
      encode name data stride threads (.rle width) =
        .error (.defective ⟨name, .rle p, data.length, bytes.length, message⟩) := by
    intro message h
    rw [hencode, encodeWith, hfits, hcontainer]
    dsimp only
    rw [h]
    exact if_neg (by decide)
  have hok : defect? (.rle p) data bytes = none ↔ ¬ p.Exhausts data := by
    rw [defect?_eq_none_iff, hdecode, ← hiff]
    constructor
    · intro h
      cases hfound : Rle.decodeFrom ⟨8, p.stream data ++ rest⟩ with
      | error f =>
          rw [hfound] at h
          cases h
      | ok found =>
          obtain ⟨q, decoded, r⟩ := found
          rw [hfound] at h
          cases h
          exact ⟨r, rfl⟩
    · rintro ⟨r, h⟩
      rw [h]
      rfl
  refine ⟨?_, ?_, ?_⟩
  · obtain ⟨hw, hbits⟩ := Rle.bits_encodeInto p BitWriter.wellFormed_empty data
    rw [BitReader.ofBytes, BitWriter.bytesBits_finish hw, hbits,
      show BitWriter.empty.bits = [] from rfl, List.nil_append]
    refine Rle.decodeFrom_stream_iff hp hsize 0 ?_
    rw [List.length_replicate]
    exact BitWriter.padding_lt _
  · rw [← hok]
    cases hdefect : defect? (.rle p) data bytes with
    | none => exact iff_of_true ⟨_, hkept hdefect⟩ rfl
    | some message =>
        rw [hlost message hdefect]
        exact iff_of_false (fun h => by cases h.choose_spec) (fun h => by cases h)
  · intro h
    cases hdefect : defect? (.rle p) data bytes with
    | none => exact absurd h (hok.1 hdefect)
    | some message => exact ⟨_, hlost message hdefect⟩

/-- All values of two bytes, once each: the first input that cannot be encoded. -/
theorem encode_rle_counting :
    let data := (List.range (2 ^ 16)).flatMap (Elements.toBytes 2)
    (⟨2⟩ : Rle).Admissible ∧ data.length < 2 ^ 32 ∧
      ∃ d, encode "all" data 2 1 (.rle none) = .error (.defective d) := by
  intro data
  have hp : (⟨2⟩ : Rle).Admissible := Or.inr (Or.inl rfl)
  have hsize : data.length < 2 ^ 32 := by
    rw [Elements.length_flatMap_toBytes, List.length_range]
    decide
  have hvalues : Elements.ofBytes 2 data = List.range (2 ^ 16) :=
    Elements.ofBytes_flatMap_toBytes (by decide) fun v hv => List.mem_range.1 hv
  have hexhausts : (⟨2⟩ : Rle).Exhausts data := by
    refine ⟨rfl, ?_, ?_⟩
    · intro v hv
      rw [hvalues]
      exact List.mem_range.2 hv
    · show ∃ run ∈ Rle.runs (Elements.ofBytes 2 data), _
      rw [hvalues]
      obtain ⟨run, hrun, hzero⟩ := Rle.exists_run_of_mem (List.mem_range.2 (Nat.two_pow_pos 16))
      have hcount := Rle.length_run_le_count hrun
      rw [hzero, List.Nodup.count List.nodup_range, if_pos (List.mem_range.2 (by decide))] at hcount
      exact ⟨run, hrun, hzero, Nat.lt_of_le_of_lt hcount (by decide)⟩
  exact ⟨hp, hsize, (encode_rle_ok_iff hp hsize rfl "all" 1).2.2 hexhausts⟩

end EmbeddedBuffers.Codec
