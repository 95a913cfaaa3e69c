import EmbeddedBuffers.Proofs.Codec.Appended
import EmbeddedBuffers.Proofs.Codec.StoredBytes
import EmbeddedBuffers.Proofs.Header.Constants
import EmbeddedBuffers.Proofs.Results

/-!
# Compressed buffers in a header

The array of a compressed buffer, read by a compiler and laid out with the high byte of every
element first, is the container again, unless an element is lost on the way. Then stored bytes come
out as other bytes, and what the elements of type `bool` were is not decoded at all. Main statement:
`decodeContainer_array`.
-/

namespace EmbeddedBuffers.Header

open Codec

/-! ## Arrays -/

/-- The bytes of an initialised array, the high byte of every element first. -/
def arrayBytes? (t : ElementType) (vs : List Value) : Option (List UInt8) :=
  (vs.mapM (Value.element? t)).map fun elements => elements.flatMap (Elements.toBytes t.width)

variable {t : ElementType}

theorem mapM_element? (ht : t.isFloat = false) {elements : List Nat}
    (h : ∀ n ∈ elements, n < 256 ^ t.width) :
    (elements.map (Value.of t)).mapM (Value.element? t) = some (elements.map (reread t)) :=
  mapM_map_eq_pure fun n hn => element?_of ht (h n hn)

theorem arrayBytes?_values (ht : t.isFloat = false) (bytes : List UInt8) :
    arrayBytes? t (values t bytes) = some ((Elements.ofBytes t.width bytes).flatMap
      fun n => Elements.toBytes t.width (reread t n)) := by
  unfold arrayBytes? values
  rw [mapM_element? ht fun n => Elements.lt_of_mem_ofBytes t.width_pos, Option.map_some,
    List.flatMap_map]

/-- A lost element has another high byte than before. -/
theorem reread_eq_of_head? {n : Nat} (hn : n < 256 ^ t.width)
    (h : (Elements.toBytes t.width (reread t n)).head? = (Elements.toBytes t.width n).head?) :
    reread t n = n := by
  cases t with
  | bool =>
      have hn : n < 256 := hn
      have hbyte : UInt8.ofNat (min n 1 >>> 0) = UInt8.ofNat (n >>> 0) := Option.some.inj h
      have hvalue := congrArg UInt8.toNat hbyte
      rw [UInt8.toNat_ofNat', UInt8.toNat_ofNat', Nat.shiftRight_zero, Nat.shiftRight_zero] at hvalue
      show min n 1 = n
      omega
  | i64 =>
      have hn : n < 2 ^ 64 := hn
      by_cases hlost : LosesSign n
      · have hread : reread .i64 n = n - (2 ^ 64 - 2 ^ 32) := if_pos hlost
        have hbyte : UInt8.ofNat (reread .i64 n >>> 56) = UInt8.ofNat (n >>> 56) := Option.some.inj h
        have hvalue := congrArg UInt8.toNat hbyte
        unfold LosesSign at hlost
        rw [hread, UInt8.toNat_ofNat', UInt8.toNat_ofNat', Nat.shiftRight_eq_div_pow,
          Nat.shiftRight_eq_div_pow] at hvalue
        omega
      · exact if_neg hlost
  | _ => rfl

/-- Elements that agree in all their bytes but fewer than an element has are not lost. -/
theorem reread_eq_of_append {elements : List Nat} (h : ∀ n ∈ elements, n < 256 ^ t.width)
    {bytes more pad : List UInt8} (hpad : pad.length < t.width)
    (hread : (elements.flatMap fun n => Elements.toBytes t.width (reread t n)) = bytes ++ more)
    (hbytes : elements.flatMap (Elements.toBytes t.width) = bytes ++ pad) :
    ∀ n ∈ elements, reread t n = n := by
  induction elements generalizing bytes with
  | nil => exact fun n hn => absurd hn List.not_mem_nil
  | cons n elements ih =>
      obtain ⟨hn, helements⟩ := List.forall_mem_cons.1 h
      rw [List.flatMap_cons] at hread hbytes
      have htotal := congrArg List.length hbytes
      rw [List.length_append, List.length_append, Elements.length_toBytes,
        Elements.length_flatMap_toBytes] at htotal
      have hpos : bytes ≠ [] := by
        rintro rfl
        rw [List.length_nil] at htotal
        omega
      have hhead : reread t n = n := by
        refine reread_eq_of_head? hn ?_
        have hne : ∀ v, Elements.toBytes t.width v ≠ [] := by
          intro v hnil
          have hwidth := Elements.length_toBytes t.width v
          rw [hnil, List.length_nil] at hwidth
          exact absurd hwidth (Nat.ne_of_lt t.width_pos)
        have hread' := congrArg List.head? hread
        have hbytes' := congrArg List.head? hbytes
        rw [List.head?_append_of_ne_nil _ (hne _), List.head?_append_of_ne_nil _ hpos] at hread' hbytes'
        rw [hread', hbytes']
      refine List.forall_mem_cons.2 ⟨hhead, ?_⟩
      by_cases hlast : elements = []
      · rw [hlast]
        exact fun n hn => absurd hn List.not_mem_nil
      · have hcount : t.width ≤ elements.length * t.width :=
          Nat.le_mul_of_pos_left _ (List.length_pos_iff.2 hlast)
        obtain ⟨bytes', rfl⟩ : ∃ bytes', bytes = Elements.toBytes t.width n ++ bytes' := by
          refine List.prefix_of_prefix_length_le ⟨_, hbytes⟩ (List.prefix_append bytes pad) ?_ |>.elim
            fun bytes' heq => ⟨bytes', heq.symm⟩
          rw [Elements.length_toBytes]
          omega
        rw [hhead, List.append_assoc, List.append_cancel_left_eq] at hread
        rw [List.append_assoc, List.append_cancel_left_eq] at hbytes
        exact ih helements hread hbytes

/-- Where no element is lost, the array holds the bytes that were written, and zeros. -/
theorem array_eq_of_kept {bytes : List UInt8}
    (h : ∀ n ∈ Elements.ofBytes t.width bytes, ¬ Lost t n) :
    ∃ pad < t.width, ((Elements.ofBytes t.width bytes).flatMap
      fun n => Elements.toBytes t.width (reread t n)) = bytes ++ List.replicate pad 0 := by
  obtain ⟨pad, hpad, hbytes⟩ := Elements.flatMap_toBytes_ofBytes t.width_pos bytes
  refine ⟨pad, hpad, ?_⟩
  rw [← hbytes]
  exact List.flatMap_congr fun n hn => by rw [reread_eq_iff.2 (h n hn)]

/-- Where the array starts with the bytes that were written, no element is lost. -/
theorem kept_of_array_eq {bytes more : List UInt8}
    (h : ((Elements.ofBytes t.width bytes).flatMap
      fun n => Elements.toBytes t.width (reread t n)) = bytes ++ more) :
    ∀ n ∈ Elements.ofBytes t.width bytes, ¬ Lost t n := by
  obtain ⟨pad, hpad, hbytes⟩ := Elements.flatMap_toBytes_ofBytes t.width_pos bytes
  intro n hn
  refine reread_eq_iff.1 (reread_eq_of_append (fun n => Elements.lt_of_mem_ofBytes t.width_pos)
    ?_ h hbytes n hn)
  rwa [List.length_replicate]

/-! ## Containers -/

/-- Read as elements of type `bool`, a container is not one any more. -/
theorem decodeContainer_bool {bytes data : List UInt8} {s : Scheme}
    (h : decodeContainer bytes = .ok (s, data)) :
    decodeContainer ((Elements.ofBytes 1 bytes).flatMap
      fun n => Elements.toBytes 1 (reread .bool n)) = .error (.unknownVersion 0) := by
  -- The version is in the high half of the first byte, which becomes one.
  cases bytes with
  | nil => cases h
  | cons b bytes =>
      have hversion : b.toNat / 16 = formatVersion := by
        unfold decodeContainer at h
        rw [BitReader.read_byte] at h
        dsimp only at h
        split at h
        · cases h
        · next hversion => exact Decidable.not_not.1 hversion
      obtain ⟨pad, hpad, hbytes⟩ := Elements.flatMap_toBytes_ofBytes Nat.one_pos (b :: bytes)
      have hlt : ∀ n ∈ Elements.ofBytes 1 (b :: bytes), n < 256 ^ 1 :=
        fun n => Elements.lt_of_mem_ofBytes Nat.one_pos
      cases helements : Elements.ofBytes 1 (b :: bytes) with
      | nil =>
          rw [helements] at hbytes
          cases hbytes
      | cons n elements =>
          rw [helements] at hbytes hlt
          have hb : UInt8.ofNat (n >>> 0) = b := List.head_eq_of_cons_eq hbytes
          have hn : n < 256 := hlt n List.mem_cons_self
          have hvalue : n = b.toNat := by
            rw [← hb, UInt8.toNat_ofNat', Nat.shiftRight_zero, Nat.mod_eq_of_lt hn]
          have hone : reread .bool n = 1 := by
            unfold formatVersion at hversion
            exact Nat.min_eq_right (by omega)
          rw [List.flatMap_cons, hone]
          show decodeContainer (1 :: _) = _
          unfold decodeContainer
          rw [BitReader.read_byte]
          rfl

/-- **The array of a compressed buffer holds its container**, and is decoded, if no element is lost
when a compiler reads it. With a lost element it holds other bytes. If the buffer was stored, these
do not decode to it, and with elements of type `bool` they do not decode at all. -/
theorem decodeContainer_array (ht : t.isFloat = false) {name : String} {data : List UInt8}
    {threads : Nat} {r : Request} {e : Encoded}
    (h : encode name data t.width threads r = .ok e) :
    ∃ back, arrayBytes? t (values t e.bytes) = some back ∧
      ((∃ pad < t.width, back = e.bytes ++ List.replicate pad 0) ↔
        ∀ n ∈ Elements.ofBytes t.width e.bytes, ¬ Lost t n) ∧
      ((∀ n ∈ Elements.ofBytes t.width e.bytes, ¬ Lost t n) →
        decodeContainer back = .ok (e.scheme, data)) ∧
      (e.scheme = .stored → decodeContainer back = .ok (e.scheme, data) →
        ∀ n ∈ Elements.ofBytes t.width e.bytes, ¬ Lost t n) ∧
      (t = .bool → decodeContainer back = .error (.unknownVersion 0)) := by
  obtain ⟨-, hcontainer, hdecode⟩ := container_of_encode h
  refine ⟨_, arrayBytes?_values ht e.bytes, ⟨?_, array_eq_of_kept⟩, ?_, ?_, ?_⟩
  · rintro ⟨pad, -, hback⟩
    exact kept_of_array_eq hback
  · intro hkept
    obtain ⟨pad, -, hback⟩ := array_eq_of_kept hkept
    rw [hback]
    exact decodeContainer_append hdecode _
  · intro hstored hback
    rw [hstored] at hcontainer hdecode hback
    obtain ⟨more, hmore⟩ := prefix_of_decode_stored hcontainer hdecode hback
    exact kept_of_array_eq hmore
  · rintro rfl
    exact decodeContainer_bool hdecode

/-- One byte in run lengths, which no compiler gives back from an array of type `bool`. -/
theorem decodeContainer_array_bool :
    ElementType.isFloat .bool = false ∧ ∃ e back,
      encode "flags" [65] (ElementType.width .bool) 1 (.rle none) = .ok e ∧
      arrayBytes? .bool (values .bool e.bytes) = some back ∧
      decodeContainer back = .error (.unknownVersion 0) := by
  have hfaithful : (Scheme.rle ⟨1⟩).Faithful [65] :=
    ⟨Or.inl rfl, fun hexhausts => absurd hexhausts.1 (by decide)⟩
  obtain ⟨bytes, hbytes⟩ := @exists_container (.rle ⟨1⟩) [65] (by decide)
  have hencode : encode "flags" [65] (ElementType.width .bool) 1 (.rle none) =
      .ok ⟨.rle ⟨1⟩, bytes, 1, 1⟩ := encodeWith_eq_ok hfaithful hbytes "flags" 1
  obtain ⟨back, hback, -, -, -, hbool⟩ := decodeContainer_array rfl hencode
  exact ⟨rfl, _, back, hencode, hback, hbool rfl⟩

/-- A negative `int64_t` in a stored buffer comes out without its sign. -/
example : decodeContainer [16, 0, 0, 0, 11, 1, 2, 3, 0, 0, 0, 0, 97, 90, 23, 195] =
    .ok (.stored, [1, 2, 3, 0, 0, 0, 0, 97, 90, 23, 195]) := by decide +kernel

end EmbeddedBuffers.Header
