import EmbeddedBuffers.Proofs.Codec.Guarded

/-!
# Untrusted containers

The decoders as a machine runs them that checks every step. What is copied is looked up in what is
decoded already, nothing is appended past the declared length, and a loop over tokens has no more
turns than bits are ahead, and one. No input whatsoever breaches any of this, for a token takes a
bit at least, and its distance and its length are compared with what is there and what is missing
before anything is done. Main statement: `decodeContainer_untrusted`.
-/

namespace EmbeddedBuffers.Codec

namespace Guarded

/-! ## Stored bytes -/

/-- The `count` bytes from a place between two bytes on. -/
def slice (data : Array UInt8) (place count : Nat) : Guarded (List UInt8) :=
  let start := place / 8
  let stop := start + count
  if data.size < stop then throw (.missingBytes count)
  else do
    require (start ≤ stop ∧ stop ≤ data.size) (.outside stop data.size)
    return (data.extract start stop).toList

theorem refines_slice {data : Array UInt8} {place : Nat} (haligned : place % 8 = 0)
    (hplace : place ≤ 8 * data.size) (count : Nat) :
    Refines Eq (slice data place count) ((readerAt data place).readBytes count).1 := by
  have hremaining := remaining_readerAt data place
  rw [BitReader.remaining] at hremaining
  -- The bits ahead are those of whole bytes, since the place is between two of them.
  have hahead : (readerAt data place).ahead =
      bytesBits ((data.toList.drop (place / 8)).take count) ++
        bytesBits ((data.toList.drop (place / 8)).drop count) := by
    rw [← bytesBits_append, List.take_append_drop]
    exact drop_bytesBits_of_aligned haligned (by rwa [Array.length_toList])
  unfold slice BitReader.readBytes
  rw [if_pos (show (readerAt data place).position % 8 = 0 from haligned)]
  dsimp only
  split
  · next hshort =>
    rw [BitReader.splitAt?_eq_none (by rw [hremaining]; omega)]
    exact .fault _
  · next hlong =>
    have hlength : (bytesBits ((data.toList.drop (place / 8)).take count)).length = 8 * count := by
      rw [length_bytesBits, List.length_take_of_le]
      rw [List.length_drop, Array.length_toList]
      omega
    have hs := BitReader.splitAt?_append (bytesBits ((data.toList.drop (place / 8)).take count))
      (bytesBits ((data.toList.drop (place / 8)).drop count))
    rw [hlength, ← hahead] at hs
    rw [hs, require_bind ⟨Nat.le_add_right _ _, Nat.not_lt.1 hlong⟩]
    dsimp only
    rw [BitReader.toBytes_bytesBits]
    refine .value ?_
    rw [Array.toList_extract, List.extract_eq_take_drop, Nat.add_sub_cancel_left]

/-! ## LZSS -/

/-- Memory set aside for `n` bytes. -/
def reserve (n : Nat) : Guarded Unit := require (n < 2 ^ 63) .overflow

/-- Repeats `length` bytes from `start` on at the end of what is decoded. -/
def copy (declared start : Nat) : (length : Nat) → Array UInt8 → Guarded (Array UInt8)
  | 0, out => pure out
  | length + 1, out => do
    let b ← fetch out start
    let out ← append declared out b
    copy declared (start + 1) length out

def lzssToken (p : Lzss) (data : Array UInt8) (declared : Nat) (out : Array UInt8)
    (place : Nat) : Guarded (Array UInt8 × Nat) := do
  let (mark, place) ← read data place 1
  if mark = 0 then
    let (b, place) ← read data place 8
    let out ← append declared out (UInt8.ofNat b)
    return (out, place)
  else
    let (distance, place) ← read data place p.windowBits
    let (length, place) ← read data place p.lengthBits
    let distance ← word 64 (distance + 1)
    let length ← word 64 (length + p.minMatch)
    if out.size < distance then throw (.tooFarBack distance out.size)
    else
      let size ← word 64 (out.size + length)
      if declared < size then throw (.referenceOverrun declared)
      else
        let start ← difference out.size distance
        let out ← copy declared start length out
        return (out, place)

def lzssTokens (p : Lzss) (data : Array UInt8) (declared : Nat) :
    (turns : Nat) → Array UInt8 → Nat → Guarded (Array UInt8)
  | turns, out, place =>
    if out.size < declared then
      match turns with
      | 0 => breach .endless
      | turns + 1 => do
        let (out, place) ← lzssToken p data declared out place
        lzssTokens p data declared turns out place
    else pure out

/-- A stream from a place on. -/
def lzss (data : Array UInt8) (place : Nat) : Guarded (Lzss × List UInt8) := do
  let (windowBits, place) ← read data place 5
  let (lengthBits, place) ← read data place 5
  let (shortest, place) ← read data place 3
  let minMatch ← word 32 (shortest + 1)
  let (declared, place) ← read data place 32
  let p ← ExceptT.mk (.ok (Lzss.ofBits windowBits lengthBits))
  let p := { p with minMatch }
  let remaining := 8 * data.size - place
  reserve (min declared (8 * remaining))
  let out ← lzssTokens p data declared (remaining + 1) #[] place
  return (p, out.toList)

theorem copy_eq {declared start length : Nat} {out : Array UInt8} (hstart : start < out.size)
    (hfit : out.size + length ≤ declared) :
    copy declared start length out = pure (Lzss.copyBack out start length) := by
  induction length generalizing out start with
  | zero => rfl
  | succ n ih =>
      have hbyte : out[start] = out.getD start 0 := by simp [Array.getD, hstart]
      rw [copy, fetch_bind hstart, append_eq (by omega), Lzss.copyBack, ← hbyte]
      exact ih (by rw [Array.size_push]; omega) (by rw [Array.size_push]; omega)

variable {data : Array UInt8} {place : Nat}

theorem lzss_readToken_eq (p : Lzss) (declared : Nat) (out : Array UInt8) (r : BitReader) :
    Lzss.readToken p declared out r = (r.read 1 >>= fun (mark, r) =>
      if mark = 0 then r.read 8 >>= fun (b, r) => .ok (out.push (UInt8.ofNat b), r)
      else r.read p.windowBits >>= fun (distance, r) => r.read p.lengthBits >>= fun (length, r) =>
        if out.size < distance + 1 then .error (.tooFarBack (distance + 1) out.size)
        else if declared < out.size + (length + p.minMatch) then .error (.referenceOverrun declared)
        else .ok (Lzss.copyBack out (out.size - (distance + 1)) (length + p.minMatch), r)) := by
  unfold Lzss.readToken
  cases r.read 1 with
  | error f => rfl
  | ok found =>
      obtain ⟨mark, r₁⟩ := found
      cases mark with
      | zero => rfl
      | succ mark => rfl

/-- A token breaches nothing: before anything is copied, its distance is found to reach no further
back than what is decoded, and its length no further than what is declared. -/
theorem refines_lzssToken {p : Lzss} (hp : p.Admissible) {declared : Nat}
    (hdeclared : declared < 2 ^ 32) {out : Array UInt8} (hless : out.size < declared)
    (hplace : place ≤ 8 * data.size) :
    Refines (Reads data) (lzssToken p data declared out place)
      (Lzss.readToken p declared out (readerAt data place)) := by
  obtain ⟨⟨-, hw⟩, ⟨-, hl⟩, -, hs⟩ := hp
  rw [lzss_readToken_eq]
  refine (refines_read hplace (by decide)).bind ?_
  rintro _ _ ⟨mark, hplace⟩ -
  dsimp only
  split
  · refine (refines_read hplace (by decide)).bind ?_
    rintro _ _ ⟨b, hplace⟩ -
    dsimp only
    rw [append_eq hless]
    exact .value (.mk _ hplace)
  · refine (refines_read hplace (by omega)).bind ?_
    rintro _ _ ⟨distance, hplace⟩ hdistance
    refine (refines_read hplace (by omega)).bind ?_
    rintro _ _ ⟨length, hplace⟩ hlength
    obtain ⟨-, hdistance, -⟩ := BitReader.eq_field_of_read (by omega) hdistance
    obtain ⟨-, hlength, -⟩ := BitReader.eq_field_of_read (by omega) hlength
    -- Fields of so few bits cannot exceed a word with what is added to them.
    have hdw : 2 ^ p.windowBits ≤ 2 ^ 24 := Nat.pow_le_pow_right (by decide) hw
    have hdl : 2 ^ p.lengthBits ≤ 2 ^ 16 := Nat.pow_le_pow_right (by decide) hl
    dsimp only
    rw [word_bind (by omega), word_bind (by omega)]
    split
    · exact .fault _
    · next hnear =>
      rw [word_bind (by omega)]
      split
      · exact .fault _
      · next hfit =>
        rw [difference_bind (by omega), copy_eq (by omega) (by omega)]
        exact .value (.mk _ hplace)

theorem lzss_readTokens_of_less {p : Lzss} {declared : Nat} {out : Array UInt8}
    (h : out.size < declared) (r : BitReader) : Lzss.readTokens p declared out r =
      (Lzss.readToken p declared out r >>= fun (out, r) => Lzss.readTokens p declared out r) := by
  rw [Lzss.readTokens, if_pos h]
  split
  · next f hf =>
    rw [hf]
    rfl
  · next out' r' hok =>
    rw [hok]
    rfl

/-- The loop over tokens ends before its turns do, since every token takes a bit. -/
theorem refines_lzssTokens {p : Lzss} (hp : p.Admissible) {declared : Nat}
    (hdeclared : declared < 2 ^ 32) {turns : Nat} {out : Array UInt8}
    (hplace : place ≤ 8 * data.size) (hturns : 8 * data.size - place < turns) :
    Refines (fun out (found : Array UInt8 × BitReader) => out = found.1)
      (lzssTokens p data declared turns out place)
      (Lzss.readTokens p declared out (readerAt data place)) := by
  induction turns generalizing out place with
  | zero => omega
  | succ turns ih =>
      unfold lzssTokens
      split
      · next hless =>
        rw [lzss_readTokens_of_less hless]
        refine (refines_lzssToken hp hdeclared hless hplace).bind ?_
        rintro _ _ ⟨out', hplace'⟩ htoken
        have hbit := Lzss.remaining_readToken htoken
        rw [remaining_readerAt, remaining_readerAt] at hbit
        exact ih hplace' (by omega)
      · next hfull =>
        rw [Lzss.readTokens, if_neg hfull]
        exact .value rfl

theorem refines_lzss (hplace : place ≤ 8 * data.size) :
    Refines (fun found (all : Lzss × List UInt8 × BitReader) => found = (all.1, all.2.1))
      (lzss data place) (Lzss.decodeFrom (readerAt data place)) := by
  unfold lzss Lzss.decodeFrom
  refine (refines_read hplace (by decide)).bind ?_
  rintro _ _ ⟨windowBits, hplace⟩ -
  refine (refines_read hplace (by decide)).bind ?_
  rintro _ _ ⟨lengthBits, hplace⟩ -
  refine (refines_read hplace (by decide)).bind ?_
  rintro _ _ ⟨shortest, hplace⟩ hshortest
  obtain ⟨-, hshortest, -⟩ := BitReader.eq_field_of_read (by decide) hshortest
  dsimp only
  rw [word_bind (by omega)]
  refine (refines_read hplace (by decide)).bind ?_
  rintro _ _ ⟨declared, hplace⟩ hdeclared
  obtain ⟨-, hdeclared, -⟩ := BitReader.eq_field_of_read (by decide) hdeclared
  refine (refines_lift _).bind ?_
  rintro p _ rfl hp
  obtain ⟨hw, hl, rfl, rfl⟩ := Lzss.ofBits_eq_ok hp
  have hs : 1 ≤ shortest + 1 ∧ shortest + 1 ≤ 8 := by omega
  have hadmissible : Lzss.Admissible { p with minMatch := shortest + 1 } := ⟨hw, hl, hs⟩
  dsimp only
  rw [reserve, require_bind (by omega)]
  refine (refines_lzssTokens hadmissible hdeclared hplace (Nat.lt_succ_self _)).bind ?_
  rintro _ ⟨out, r⟩ rfl -
  exact .value rfl

/-! ## Run lengths -/

/-- Appends `count` copies of an element. -/
def fill (total value : Nat) : (count : Nat) → Array Nat → Guarded (Array Nat)
  | 0, out => pure out
  | count + 1, out => do
    let out ← append total out value
    fill total value count out

def rleToken (p : Rle) (data : Array UInt8) (sentinel declared total : Nat) (out : Array Nat)
    (place : Nat) : Guarded (Array Nat × Nat) := do
  let (value, place) ← read data place p.bits
  if value ≠ sentinel then
    let out ← append total out value
    return (out, place)
  else
    let (value, place) ← read data place p.bits
    let (short, place) ← read data place p.bits
    let count := min (short + 1) (2 ^ 64 - 1)
    let room ← difference total out.size
    if room < count then throw (.runOverrun count declared)
    else
      let out ← fill total value count out
      return (out, place)

def rleTokens (p : Rle) (data : Array UInt8) (sentinel declared total : Nat) :
    (turns : Nat) → Array Nat → Nat → Guarded (Array Nat)
  | turns, out, place =>
    if out.size < total then
      match turns with
      | 0 => breach .endless
      | turns + 1 => do
        let (out, place) ← rleToken p data sentinel declared total out place
        rleTokens p data sentinel declared total turns out place
    else pure out

/-- The bytes of elements, the last ones of the eight that a word has. -/
def elementBytes (width : Nat) : List Nat → Guarded (List UInt8)
  | [] => pure []
  | value :: values => do
    let skipped ← difference 8 width
    let rest ← elementBytes width values
    return (Elements.toBytes 8 value).drop skipped ++ rest

/-- A stream from a place on. -/
def rle (data : Array UInt8) (place : Nat) : Guarded (Rle × List UInt8) := do
  let (short, place) ← read data place 4
  let width ← word 64 (short + 1)
  let p ← ExceptT.mk (.ok (Rle.ofWidth width))
  let (declared, place) ← read data place 32
  let (sentinel, place) ← read data place p.bits
  let total := (declared + p.width - 1) / p.width
  let remaining := 8 * data.size - place
  reserve (8 * min total remaining)
  let out ← rleTokens p data sentinel declared total (remaining + 1) #[] place
  let size ← word 64 (out.size * p.width)
  reserve size
  let bytes ← elementBytes p.width out.toList
  return (p, bytes.take declared)

theorem fill_eq {total value count : Nat} {out : Array Nat} (hfit : out.size + count ≤ total) :
    fill total value count out = pure (Rle.pushMany out value count) := by
  induction count generalizing out with
  | zero => rfl
  | succ n ih =>
      rw [fill, append_eq (by omega), Rle.pushMany]
      exact ih (by rw [Array.size_push]; omega)

theorem drop_toBytes (width skipped value : Nat) :
    (Elements.toBytes (skipped + width) value).drop skipped = Elements.toBytes width value := by
  induction skipped with
  | zero => rw [Nat.zero_add, List.drop_zero]
  | succ n ih => rw [Nat.succ_add, Elements.toBytes, List.drop_succ_cons, ih]

theorem elementBytes_eq {width : Nat} (h : width ≤ 8) (values : List Nat) :
    elementBytes width values = pure (values.flatMap (Elements.toBytes width)) := by
  induction values with
  | nil => rfl
  | cons value values ih =>
      have hlast := drop_toBytes width (8 - width) value
      rw [Nat.sub_add_cancel h] at hlast
      rw [elementBytes, difference_bind h, ih, hlast]
      rfl

theorem rle_readToken_eq (p : Rle) (sentinel declared total : Nat) (out : Array Nat)
    (r : BitReader) :
    Rle.readToken p sentinel declared total out r = (r.read p.bits >>= fun (value, r) =>
      if value ≠ sentinel then .ok (out.push value, r)
      else r.read p.bits >>= fun (value, r) => r.read p.bits >>= fun (short, r) =>
        if total - out.size < min (short + 1) (2 ^ 64 - 1) then
          .error (.runOverrun (min (short + 1) (2 ^ 64 - 1)) declared)
        else .ok (Rle.pushMany out value (min (short + 1) (2 ^ 64 - 1)), r)) := rfl

/-- A token breaches nothing: a run is compared with what is missing before it is written out. -/
theorem refines_rleToken {p : Rle} (hp : p.Admissible) {sentinel declared total : Nat}
    {out : Array Nat} (hless : out.size < total) (hplace : place ≤ 8 * data.size) :
    Refines (Reads data) (rleToken p data sentinel declared total out place)
      (Rle.readToken p sentinel declared total out (readerAt data place)) := by
  have hbits := hp.bits_le
  rw [rle_readToken_eq]
  refine (refines_read hplace hbits).bind ?_
  rintro _ _ ⟨value, hplace⟩ -
  dsimp only
  split
  · rw [append_eq hless]
    exact .value (.mk _ hplace)
  · refine (refines_read hplace hbits).bind ?_
    rintro _ _ ⟨value, hplace⟩ -
    refine (refines_read hplace hbits).bind ?_
    rintro _ _ ⟨short, hplace⟩ -
    dsimp only
    generalize min (short + 1) (2 ^ 64 - 1) = count
    rw [difference_bind (Nat.le_of_lt hless)]
    split
    · exact .fault _
    · next hfit =>
      rw [fill_eq (by omega)]
      exact .value (.mk _ hplace)

theorem remaining_rle_readToken {p : Rle} (hp : p.Admissible) {sentinel declared total : Nat}
    {out out' : Array Nat} {r r' : BitReader}
    (h : Rle.readToken p sentinel declared total out r = .ok (out', r')) :
    r'.remaining < r.remaining := by
  have hbits := hp.bits_pos
  rw [rle_readToken_eq] at h
  obtain ⟨value, r₁, h₁, h⟩ := BitReader.read_ok_bind h
  have e₁ := BitReader.remaining_read h₁
  dsimp only at h
  split at h
  · cases h
    omega
  · obtain ⟨value, r₂, h₂, h⟩ := BitReader.read_ok_bind h
    obtain ⟨short, r₃, h₃, h⟩ := BitReader.read_ok_bind h
    have e₂ := BitReader.remaining_read h₂
    have e₃ : r₃.remaining + p.bits = r₂.remaining := BitReader.remaining_read h₃
    dsimp only at h
    split at h
    · cases h
    · cases h
      omega

/-- The loop over tokens ends before its turns do, and before the bits do that are counted without
guard. -/
theorem refines_rleTokens {p : Rle} (hp : p.Admissible) {sentinel declared total : Nat}
    (htotal : total < 2 ^ 32) {turns left : Nat} {out : Array Nat} (hsize : out.size ≤ total)
    (hplace : place ≤ 8 * data.size) (hturns : 8 * data.size - place < turns)
    (hleft : 8 * data.size - place ≤ left) :
    Refines (fun out (found : Array Nat × BitReader) => out = found.1 ∧ out.size ≤ total)
      (rleTokens p data sentinel declared total turns out place)
      (Rle.readTokens p sentinel declared total left out (readerAt data place)) := by
  -- Both loops count, one its turns and the other the bits left, and neither count runs out first.
  have hbits := hp.bits_pos
  induction turns generalizing left out place with
  | zero => omega
  | succ turns ih =>
      unfold rleTokens
      split
      · next hless =>
        have htoken : Refines (Reads data) (rleToken p data sentinel declared total out place)
            (Rle.readToken p sentinel declared total out (readerAt data place)) :=
          refines_rleToken hp hless hplace
        cases left with
        | zero =>
            -- No bit is ahead, and the first read of a token says so.
            have hnone : (readerAt data place).read p.bits =
                .error (.missingBits p.bits place (readerAt data place).remaining) := by
              have hahead : (readerAt data place).ahead.length < p.bits := by
                rw [← BitReader.remaining, remaining_readerAt]
                omega
              rw [BitReader.read, BitReader.splitAt?_eq_none hahead]
              rfl
            rw [rle_readToken_eq, hnone] at htoken
            rw [Rle.readTokens, if_pos hless]
            exact htoken.bind (l := fun found => Rle.readTokens p sentinel declared total 0 found.1
              found.2) fun _ _ _ h => by cases h
        | succ left =>
            have hstep : Rle.readTokens p sentinel declared total (left + 1) out
                (readerAt data place) = (Rle.readToken p sentinel declared total out
                  (readerAt data place) >>= fun found =>
                    Rle.readTokens p sentinel declared total left found.1 found.2) := by
              rw [Rle.readTokens, if_pos hless]
              cases Rle.readToken p sentinel declared total out (readerAt data place) <;> rfl
            rw [hstep]
            refine htoken.bind ?_
            rintro _ _ ⟨out', hplace'⟩ hread
            have hbit := remaining_rle_readToken hp hread
            rw [remaining_readerAt, remaining_readerAt] at hbit
            obtain ⟨-, -, -, -, hsize'⟩ := Rle.exists_token_of_readToken hp htotal hless hread
            exact ih hsize' hplace' (by omega) (by omega)
      · next hfull =>
        rw [Rle.readTokens_of_full (Nat.not_lt.1 hfull)]
        exact .value ⟨rfl, hsize⟩

theorem refines_rle (hplace : place ≤ 8 * data.size) :
    Refines (fun found (all : Rle × List UInt8 × BitReader) => found = (all.1, all.2.1))
      (rle data place) (Rle.decodeFrom (readerAt data place)) := by
  unfold rle Rle.decodeFrom
  refine (refines_read hplace (by decide)).bind ?_
  rintro _ _ ⟨short, hplace⟩ hshort
  obtain ⟨-, hshort, -⟩ := BitReader.eq_field_of_read (by decide) hshort
  dsimp only
  rw [word_bind (by omega)]
  refine (refines_lift _).bind ?_
  rintro p _ rfl hp
  obtain ⟨hadmissible, -⟩ := Rle.ofWidth_eq_ok hp
  refine (refines_read hplace (by decide)).bind ?_
  rintro _ _ ⟨declared, hplace⟩ hdeclared
  obtain ⟨-, hdeclared, -⟩ := BitReader.eq_field_of_read (by decide) hdeclared
  refine (refines_read hplace hadmissible.bits_le).bind ?_
  rintro _ _ ⟨sentinel, hplace⟩ -
  obtain ⟨htotal, -⟩ := hadmissible.total_lt hdeclared
  have hwidth : p.width ≤ 8 := by
    rcases hadmissible with h | h | h | h <;> omega
  dsimp only
  rw [reserve, require_bind (by omega), remaining_readerAt]
  refine (refines_rleTokens hadmissible htotal (Nat.zero_le _) hplace (Nat.lt_succ_self _)
    (Nat.le_refl _)).bind ?_
  rintro out ⟨_, r⟩ ⟨rfl, hsize⟩ -
  have hbytes : out.size * p.width ≤ 2 ^ 32 * 8 := Nat.mul_le_mul (by omega) hwidth
  dsimp only
  rw [word_bind (by omega), reserve, require_bind (by omega), elementBytes_eq hwidth]
  exact .value rfl

/-! ## Containers -/

/-- A container, decoded under guard. -/
def container (bytes : List UInt8) : Guarded (Scheme × List UInt8) := do
  let data := bytes.toArray
  let (tag, place) ← (read data 0 8).adapt fun _ => .emptyContainer
  if tag / 16 ≠ formatVersion then throw (.unknownVersion (tag / 16))
  else
    match tag % 16 with
    | 0 => do
      let (size, place) ← read data place 32
      let held ← slice data place size
      return (.stored, held)
    | 1 => do
      let (p, held) ← lzss data place
      return (.lzss p, held)
    | 2 => do
      let (p, held) ← rle data place
      return (.rle p, held)
    | id => throw (.unknownScheme id)

theorem refines_container (bytes : List UInt8) :
    Refines Eq (container bytes) (decodeContainer bytes) := by
  have htag : Refines (Reads bytes.toArray) (read bytes.toArray 0 8)
      ((readerAt bytes.toArray 0).read 8) := refines_read (Nat.zero_le _) (by decide)
  rw [decodeContainer_eq]
  refine (htag.adapt _).bind ?_
  rintro _ _ ⟨tag, hplace⟩ hread
  -- The stream starts between two bytes.
  obtain ⟨-, -, hstart⟩ := BitReader.eq_field_of_read (by decide) (mapError_eq_ok.1 hread)
  dsimp only
  split
  · exact .fault _
  · generalize tag % 16 = id
    match id with
    | 0 =>
        refine (refines_read hplace (by decide)).bind ?_
        rintro _ _ ⟨size, hplace⟩ hread
        obtain ⟨-, -, hbehind⟩ := BitReader.eq_field_of_read (by decide) hread
        refine (refines_slice ?_ hplace size).bind ?_
        · show (readerAt bytes.toArray _).position % 8 = 0
          rw [hbehind, hstart]
          show (0 + 8 + 32) % 8 = 0
          decide
        · rintro held _ rfl -
          exact .value rfl
    | 1 =>
        refine (refines_lzss hplace).bind ?_
        rintro _ ⟨p, held, r⟩ rfl -
        exact .value rfl
    | 2 =>
        refine (refines_rle hplace).bind ?_
        rintro _ ⟨p, held, r⟩ rfl -
        exact .value rfl
    | id + 3 => exact .fault _

end Guarded

/-- Where the length stands among the bits of a container. -/
def Scheme.lengthPlace : Scheme → Nat
  | .stored => 8
  | .lzss _ => 8 + (5 + 5 + 3)
  | .rle _ => 8 + 4

/-- The length that a container of a scheme declares in 32 bits. -/
def Scheme.declaredLength (s : Scheme) (bytes : List UInt8) : Nat :=
  bitsValue (((bytesBits bytes).drop s.lengthPlace).take 32)

theorem declaredLength_of_head {s : Scheme} {bytes : List UInt8} {length : Nat}
    (h : length < 2 ^ 32) {rest : List Bool} (hbits : bytesBits bytes = s.head length ++ rest) :
    s.declaredLength bytes = length := by
  -- In every scheme the length comes behind a front of fixed size.
  have hfield : ∀ front after : List Bool, bytesBits bytes = front ++ (field 32 length ++ after) →
      front.length = s.lengthPlace → s.declaredLength bytes = length := by
    intro front after heq hfront
    rw [Scheme.declaredLength, heq, List.drop_left' hfront, List.take_left' (length_field _ _),
      bitsValue_field_of_lt h]
  cases s with
  | stored =>
      refine hfield (field 8 16) rest ?_ (length_field _ _)
      rw [hbits, Scheme.head, List.append_assoc]
      rfl
  | lzss p =>
      refine hfield (field 8 17 ++ (field 5 p.windowBits ++ field 5 p.lengthBits ++
        field 3 (p.minMatch - 1))) rest ?_ ?_
      · rw [hbits, Scheme.head]
        simp only [Lzss.header, List.append_assoc]
        rfl
      · simp only [List.length_append, length_field]
        rfl
  | rle p =>
      refine hfield (field 8 18 ++ field 4 (p.width - 1)) rest ?_ ?_
      · rw [hbits, Scheme.head]
        simp only [List.append_assoc]
        rfl
      · simp only [List.length_append, length_field]
        rfl

/-- **Decoding is total on untrusted input.** For any bytes whatsoever, the run that checks every
step breaches nothing, and it ends as the decoder does: with an error, or with parameters that
their scheme may have and with data of exactly the length that is declared. -/
theorem decodeContainer_untrusted (bytes : List UInt8) :
    (Guarded.container bytes).run = .ok (decodeContainer bytes) ∧
      ((∃ f, decodeContainer bytes = .error f) ∨
        ∃ s data, decodeContainer bytes = .ok (s, data) ∧ s.Admissible ∧
          data.length = s.declaredLength bytes ∧ data.length < 2 ^ 32) := by
  refine ⟨Guarded.run_of_refines (Guarded.refines_container bytes), ?_⟩
  cases h : decodeContainer bytes with
  | error f => exact Or.inl ⟨f, rfl⟩
  | ok found =>
      obtain ⟨s, data⟩ := found
      obtain ⟨hadmissible, hlength, rest, hrest⟩ := accepted_of_decodeContainer h
      have hdeclared := declaredLength_of_head hlength hrest
      exact Or.inr ⟨s, data, rfl, hadmissible, hdeclared.symm, hlength⟩

end EmbeddedBuffers.Codec
