import EmbeddedBuffers.Elements

/-!
# Elements and their bytes

Cutting data into numbers and writing the numbers out again gives the data back, with zeros
where the last number was not full. Main statements: `flatMap_toBytes_ofBytes` and
`length_ofBytes`.
-/

namespace EmbeddedBuffers.Elements

/-- The number that some bytes denote, the high byte first. -/
def number (bytes : List UInt8) : Nat := bytes.foldl (fun n b => n * 256 + b.toNat) 0

theorem number_concat (bytes : List UInt8) (b : UInt8) :
    number (bytes ++ [b]) = number bytes * 256 + b.toNat := by
  simp [number]

/-- The number in front of some bytes weighs what their count shifts it by. -/
theorem foldl_eq_add_number (bytes : List UInt8) (high : Nat) :
    bytes.foldl (fun n b => n * 256 + b.toNat) high =
      high * 256 ^ bytes.length + number bytes := by
  induction bytes generalizing high with
  | nil => simp [number]
  | cons b bytes ih =>
      have hcons : number (b :: bytes) = b.toNat * 256 ^ bytes.length + number bytes := by
        show bytes.foldl _ (0 * 256 + b.toNat) = _
        rw [ih, Nat.zero_mul, Nat.zero_add]
      rw [List.foldl_cons, ih, hcons, List.length_cons, Nat.pow_succ, Nat.add_mul, Nat.mul_assoc,
        Nat.mul_comm 256, Nat.add_assoc]

theorem number_cons (b : UInt8) (bytes : List UInt8) :
    number (b :: bytes) = b.toNat * 256 ^ bytes.length + number bytes := by
  rw [← foldl_eq_add_number, number, List.foldl_cons, Nat.zero_mul, Nat.zero_add]

theorem number_lt (bytes : List UInt8) : number bytes < 256 ^ bytes.length := by
  induction bytes with
  | nil => decide
  | cons b bytes ih =>
      have hb : (b.toNat + 1) * 256 ^ bytes.length ≤ 256 * 256 ^ bytes.length :=
        Nat.mul_le_mul_right _ b.toNat_lt
      rw [number_cons, List.length_cons, Nat.pow_succ, Nat.mul_comm _ 256]
      rw [Nat.add_mul] at hb
      omega

@[simp] theorem length_toBytes (width value : Nat) : (toBytes width value).length = width := by
  induction width with
  | zero => rfl
  | succ n ih => simp [toBytes, ih]

theorem toBytes_zero (width : Nat) : toBytes width 0 = List.replicate width 0 := by
  induction width with
  | zero => rfl
  | succ n ih => rw [toBytes, ih, List.replicate_succ, Nat.zero_shiftRight]; rfl

/-- The last bytes of a number do not depend on what stands before them. -/
theorem toBytes_add_mul (width high value : Nat) :
    toBytes width (high * 256 ^ width + value) = toBytes width value := by
  induction width generalizing high with
  | zero => rfl
  | succ n ih =>
      have hsplit : high * 256 ^ (n + 1) = high * 256 * 256 ^ n := by
        rw [Nat.pow_succ, Nat.mul_comm (256 ^ n), Nat.mul_assoc]
      have hpow : 2 ^ (8 * n) = 256 ^ n := Nat.pow_mul 2 8 n
      have hbyte : UInt8.ofNat ((high * 256 * 256 ^ n + value) >>> (8 * n)) =
          UInt8.ofNat (value >>> (8 * n)) := by
        rw [Nat.shiftRight_eq_div_pow, Nat.shiftRight_eq_div_pow, hpow, Nat.add_comm,
          Nat.add_mul_div_right _ _ (Nat.pow_pos (by decide))]
        apply UInt8.toNat_inj.1
        simp
      rw [toBytes, toBytes, hsplit, ih, hbyte]

theorem toBytes_number (bytes : List UInt8) : toBytes bytes.length (number bytes) = bytes := by
  induction bytes with
  | nil => rfl
  | cons b bytes ih =>
      have hpow : 2 ^ (8 * bytes.length) = 256 ^ bytes.length := Nat.pow_mul 2 8 bytes.length
      rw [List.length_cons, toBytes, number_cons, toBytes_add_mul, ih,
        Nat.shiftRight_eq_div_pow, hpow, Nat.add_comm,
        Nat.add_mul_div_right _ _ (Nat.pow_pos (by decide)), Nat.div_eq_of_lt (number_lt bytes)]
      simp

/-- Written out and read again, a number loses what its bytes do not hold. -/
theorem number_toBytes (width value : Nat) :
    number (toBytes width value) = value % 256 ^ width := by
  induction width with
  | zero => simp [toBytes, number, Nat.mod_one]
  | succ n ih =>
      have hpow : 2 ^ (8 * n) = 256 ^ n := Nat.pow_mul 2 8 n
      rw [toBytes, number_cons, length_toBytes, ih, UInt8.toNat_ofNat', Nat.shiftRight_eq_div_pow,
        hpow, show 256 ^ (n + 1) = 256 ^ n * 256 from Nat.pow_succ _ _, Nat.mod_mul, Nat.add_comm,
        Nat.mul_comm]

theorem toBytes_inj {width v w : Nat} (hv : v < 256 ^ width) (hw : w < 256 ^ width)
    (h : toBytes width v = toBytes width w) : v = w := by
  have hnum := congrArg number h
  rwa [number_toBytes, number_toBytes, Nat.mod_eq_of_lt hv, Nat.mod_eq_of_lt hw] at hnum

/-! ## Two's complement -/

/-- The bytes of a number in two's complement, the high one first. -/
def twosComplement (width : Nat) (z : Int) : List UInt8 :=
  toBytes width (z % 2 ^ (8 * width)).toNat

theorem toBytes_mod (width value : Nat) :
    toBytes width (value % 256 ^ width) = toBytes width value := by
  have hbytes := toBytes_add_mul width (value / 256 ^ width) (value % 256 ^ width)
  rw [Nat.div_add_mod'] at hbytes
  exact hbytes.symm

/-- The bytes of a number are those at the end of its word. -/
theorem toBytes_word {width : Nat} (h : width ≤ 8) (z : Int) :
    toBytes width (z % 2 ^ 64).toNat = twosComplement width z := by
  have hpow : (2 : Int) ^ (8 * width) = ((256 ^ width : Nat) : Int) := by
    rw [← Nat.pow_mul 2 8 width, Int.natCast_pow]
    rfl
  have hdvd : ((256 ^ width : Nat) : Int) ∣ 2 ^ 64 :=
    Int.natCast_dvd_natCast.2 (Nat.pow_dvd_pow 256 h : 256 ^ width ∣ 256 ^ 8)
  have hmod : (z % 2 ^ (8 * width)).toNat = (z % 2 ^ 64).toNat % 256 ^ width := by
    rw [hpow, ← Int.emod_emod_of_dvd z hdvd]
    obtain ⟨n, hn⟩ := Int.eq_ofNat_of_zero_le
      (Int.emod_nonneg z (show (2 : Int) ^ 64 ≠ 0 by decide))
    rw [hn, ← Int.natCast_emod, Int.toNat_natCast, Int.toNat_natCast]
  rw [twosComplement, hmod, toBytes_mod]

/-- A signed word has the bytes of the number that it was made of. -/
theorem twosComplement_bmod {width : Nat} (h : width ≤ 8) (z : Int) :
    twosComplement width (z.bmod (2 ^ 64)) = twosComplement width z := by
  have hword : z.bmod (2 ^ 64) % 2 ^ 64 = z % 2 ^ 64 := Int.bmod_emod
  rw [← toBytes_word h, ← toBytes_word h, hword]

/-! ## Numbers of some data -/

theorem valueFrom_nil (bytes : List UInt8) (missing : Nat) :
    valueFrom (number bytes) missing [] = number (bytes ++ List.replicate missing 0) := by
  induction missing generalizing bytes with
  | zero => simp [valueFrom]
  | succ n ih =>
      have hzero : number bytes * 256 = number (bytes ++ [0]) := by
        rw [number_concat, UInt8.toNat_zero, Nat.add_zero]
      rw [valueFrom, hzero, ih, List.append_assoc, List.replicate_succ, List.singleton_append]

/-- Some numbers are the bytes, zeros filling up the last one. -/
structure Packs (width : Nat) (bytes : List UInt8) (values : List Nat) : Prop where
  bytes_eq : ∃ pad < width, values.flatMap (toBytes width) = bytes ++ List.replicate pad 0
  lt : ∀ v ∈ values, v < 256 ^ width

theorem Packs.cons {width : Nat} {piece bytes : List UInt8} {values : List Nat}
    (h : Packs width bytes values) (hp : piece.length = width) :
    Packs width (piece ++ bytes) (number piece :: values) := by
  obtain ⟨⟨pad, hpad, heq⟩, hlt⟩ := h
  constructor
  · refine ⟨pad, hpad, ?_⟩
    rw [List.flatMap_cons, heq, ← hp, toBytes_number, List.append_assoc]
  · intro v hv
    rcases List.mem_cons.1 hv with rfl | hv
    · exact hp ▸ number_lt piece
    · exact hlt v hv

/-- What a cut adds are the numbers of the bytes read of the open one and of the rest. -/
theorem packs_cut {width : Nat} (data bytes : List UInt8) {missing : Nat} (out : Array Nat)
    (hwidth : bytes.length + missing = width) (hmissing : 1 ≤ missing) :
    ∃ values, (cut width (number bytes) missing data out).toList = out.toList ++ values ∧
      Packs width (bytes ++ data) values := by
  induction data generalizing bytes missing out with
  | nil =>
      unfold cut
      split
      · next heq =>
        have hnil : bytes = [] := List.eq_nil_of_length_eq_zero (by omega)
        subst hnil
        exact ⟨[], by simp, ⟨⟨0, by omega, rfl⟩, by simp⟩⟩
      · next hne =>
        have hlen : (bytes ++ List.replicate missing 0).length = width := by simpa using hwidth
        refine ⟨[valueFrom (number bytes) missing []], by simp, ⟨⟨missing, by omega, ?_⟩, ?_⟩⟩
        · rw [valueFrom_nil, List.flatMap_singleton, List.append_nil]
          exact hlen ▸ toBytes_number _
        · intro v hv
          rw [List.mem_singleton.1 hv, valueFrom_nil]
          exact hlen ▸ number_lt _
  | cons b rest ih =>
      unfold cut
      dsimp only
      rw [← number_concat]
      split
      · next hone =>
        have hlen : (bytes ++ [b]).length = width := by
          rw [List.length_append, List.length_singleton]
          omega
        obtain ⟨values, hcut, hpacks⟩ := @ih [] width
          (out.push (number (bytes ++ [b]))) (by simp) (by omega)
        refine ⟨number (bytes ++ [b]) :: values, ?_, ?_⟩
        · rw [show (0 : Nat) = number [] from rfl, hcut]
          simp
        · have h := hpacks.cons hlen
          rwa [List.nil_append, List.append_assoc, List.singleton_append] at h
      · next hmore =>
        obtain ⟨values, hcut, hpacks⟩ := @ih (bytes ++ [b]) (missing - 1) out
          (by rw [List.length_append, List.length_singleton]; omega) (by omega)
        rw [List.append_assoc, List.singleton_append] at hpacks
        exact ⟨values, hcut, hpacks⟩

theorem packs_ofBytes {width : Nat} (hw : 0 < width) (data : List UInt8) :
    Packs width data (ofBytes width data) := by
  obtain ⟨values, hcut, hpacks⟩ := packs_cut data [] #[] (Nat.zero_add width) hw
  rw [ofBytes, show (0 : Nat) = number [] from rfl, hcut]
  simpa using hpacks

/-- The elements written out are the data and zeros for less than an element. -/
theorem flatMap_toBytes_ofBytes {width : Nat} (hw : 0 < width) (data : List UInt8) :
    ∃ pad < width,
      (ofBytes width data).flatMap (toBytes width) = data ++ List.replicate pad 0 :=
  (packs_ofBytes hw data).bytes_eq

theorem lt_of_mem_ofBytes {width : Nat} (hw : 0 < width) {data : List UInt8} {v : Nat}
    (hv : v ∈ ofBytes width data) : v < 256 ^ width :=
  (packs_ofBytes hw data).lt v hv

theorem length_flatMap_toBytes (width : Nat) (values : List Nat) :
    (values.flatMap (toBytes width)).length = values.length * width := by
  induction values with
  | nil => simp
  | cons v values ih =>
      rw [List.flatMap_cons, List.length_append, length_toBytes, ih, List.length_cons,
        Nat.succ_mul, Nat.add_comm]

/-- There are as many elements as it takes to hold the data. -/
theorem length_ofBytes {width : Nat} (hw : 0 < width) (data : List UInt8) :
    (ofBytes width data).length = (data.length + width - 1) / width := by
  obtain ⟨pad, hpad, heq⟩ := flatMap_toBytes_ofBytes hw data
  have hlen := congrArg List.length heq
  rw [length_flatMap_toBytes, List.length_append, List.length_replicate] at hlen
  symm
  apply Nat.div_eq_of_lt_le
  · omega
  · rw [Nat.succ_mul]
    omega

/-- Equally many numbers with the same bytes are the same. -/
theorem flatMap_toBytes_inj {width : Nat} {xs ys : List Nat} (hx : ∀ x ∈ xs, x < 256 ^ width)
    (hy : ∀ y ∈ ys, y < 256 ^ width) (hlen : xs.length = ys.length)
    (h : xs.flatMap (toBytes width) = ys.flatMap (toBytes width)) : xs = ys := by
  induction xs generalizing ys with
  | nil => exact (List.eq_nil_of_length_eq_zero hlen.symm).symm
  | cons x xs ih =>
      cases ys with
      | nil => cases hlen
      | cons y ys =>
          rw [List.forall_mem_cons] at hx hy
          rw [List.flatMap_cons, List.flatMap_cons] at h
          obtain ⟨hhead, htail⟩ := List.append_inj h (by rw [length_toBytes, length_toBytes])
          rw [toBytes_inj hx.1 hy.1 hhead, ih hx.2 hy.2 (Nat.succ.inj hlen) htail]

/-- Numbers written out are cut into the same numbers. -/
theorem ofBytes_flatMap_toBytes {width : Nat} (hw : 0 < width) {values : List Nat}
    (hv : ∀ v ∈ values, v < 256 ^ width) :
    ofBytes width (values.flatMap (toBytes width)) = values := by
  have hlen := length_ofBytes hw (values.flatMap (toBytes width))
  rw [length_flatMap_toBytes, Nat.add_sub_assoc hw, Nat.mul_comm,
    Nat.mul_add_div hw, Nat.div_eq_of_lt (by omega), Nat.add_zero] at hlen
  obtain ⟨pad, -, heq⟩ := flatMap_toBytes_ofBytes hw (values.flatMap (toBytes width))
  have hpad := congrArg List.length heq
  rw [List.length_append, length_flatMap_toBytes, length_flatMap_toBytes, hlen,
    List.length_replicate] at hpad
  rw [show pad = 0 by omega, List.replicate_zero, List.append_nil] at heq
  exact flatMap_toBytes_inj (fun v => lt_of_mem_ofBytes hw) hv hlen heq

end EmbeddedBuffers.Elements
