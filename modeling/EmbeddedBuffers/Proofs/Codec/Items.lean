import EmbeddedBuffers.Proofs.Codec.ByteStreams

/-!
# Items through a stream

Numbers, bits and bytes are put into a stream one after the other, at whatever place of a byte the
one before ends. A reader that is asked for items of the same widths gives them back: numbers
without the bits above their widths, bits and bytes as they are. Bytes may be put and asked for as
numbers of 8 bits, the stream is the same. Main statement: `takeAll_streamOf`, on lists of bits and
in memory.
-/

namespace EmbeddedBuffers.Codec

namespace Item

/-- What an item is asked back by. -/
def demand : Item → Demand
  | .number _ count => .number count
  | .bit _ => .bit
  | .bytes data => .bytes data.length

/-- An item with each of its bytes as a number of 8 bits. -/
def apart : Item → List Item
  | .bytes data => data.map fun b => .number b.toNat 8
  | i => [i]

@[simp] theorem length_bits (i : Item) : i.bits.length = i.width := by
  cases i with
  | number value count => exact length_field count value
  | bit b => rfl
  | bytes data => exact length_bytesBits data

theorem flatMap_bits_apart (i : Item) : i.apart.flatMap bits = i.bits := by
  cases i with
  | bytes data =>
      rw [apart, List.flatMap_map]
      rfl
  | _ => exact List.flatMap_singleton ..

theorem map_held_apart (i : Item) : i.apart.map held = i.held.apart := by
  cases i with
  | bytes data =>
      rw [apart, List.map_map]
      refine List.map_congr_left fun b _ => ?_
      rw [Function.comp_apply, held, Nat.mod_eq_of_lt b.toNat_lt]
  | _ => rfl

theorem narrow_of_mem_apart {i j : Item} (hi : i.Narrow) (h : j ∈ i.apart) : j.Narrow := by
  cases i with
  | bytes data =>
      obtain ⟨b, -, rfl⟩ := List.mem_map.1 h
      exact Nat.le_of_lt (show 8 < 64 by decide)
  | _ => rwa [List.mem_singleton.1 h]

theorem Narrow.demand {i : Item} (h : i.Narrow) : i.demand.Narrow := by cases i <;> exact h

end Item

variable {items : List Item}

theorem length_flatMap_bits (items : List Item) :
    (items.flatMap Item.bits).length = (items.map Item.width).sum := by
  rw [List.length_flatMap]
  simp only [Item.length_bits]

theorem flatMap_apart_bits (items : List Item) :
    (items.flatMap Item.apart).flatMap Item.bits = items.flatMap Item.bits := by
  simp only [List.flatMap_assoc, Item.flatMap_bits_apart]

theorem map_held_flatMap_apart (items : List Item) :
    (items.flatMap Item.apart).map Item.held = (items.map Item.held).flatMap Item.apart := by
  simp only [List.map_flatMap, List.flatMap_map, Item.map_held_apart]

theorem narrow_flatMap_apart (h : ∀ i ∈ items, i.Narrow) :
    ∀ i ∈ items.flatMap Item.apart, i.Narrow := by
  intro i hi
  obtain ⟨j, hj, hi⟩ := List.mem_flatMap.1 hi
  exact Item.narrow_of_mem_apart (h j hj) hi

theorem bytesBits_inj {a b : List UInt8} (h : bytesBits a = bytesBits b) : a = b := by
  rw [← BitReader.toBytes_bytesBits a, h, BitReader.toBytes_bytesBits]

/-! ## Writing -/

namespace BitWriter

/-- Puts an item into the stream. -/
def put (w : BitWriter) : Item → BitWriter
  | .number value count => w.write value count
  | .bit b => w.push b
  | .bytes data => w.writeBytes data

def putAll (w : BitWriter) (items : List Item) : BitWriter := items.foldl put w

theorem bits_put {w : BitWriter} (h : w.WellFormed) (i : Item) :
    (w.put i).WellFormed ∧ (w.put i).bits = w.bits ++ i.bits := by
  cases i with
  | number value count => exact ⟨wellFormed_write h value count, bits_write h value count⟩
  | bit b => exact ⟨wellFormed_push w b, bits_push h b⟩
  | bytes data => exact bits_writeBytes h data

theorem bits_putAll {w : BitWriter} (h : w.WellFormed) (items : List Item) :
    (w.putAll items).WellFormed ∧ (w.putAll items).bits = w.bits ++ items.flatMap Item.bits := by
  induction items generalizing w with
  | nil => exact ⟨h, (List.append_nil _).symm⟩
  | cons i items ih =>
      obtain ⟨hput, hbits⟩ := bits_put h i
      obtain ⟨hall, hrest⟩ := ih hput
      refine ⟨hall, ?_⟩
      rw [List.flatMap_cons, ← List.append_assoc, ← hbits]
      exact hrest

/-- A stream is settled by its bits: the whole bytes of them, and those left over. -/
theorem eq_of_bits {v w : BitWriter} (hv : v.WellFormed) (hw : w.WellFormed) (h : v.bits = w.bits) :
    v = w := by
  have hlength := congrArg List.length h
  rw [← bitLength_eq, ← bitLength_eq, bitLength, bitLength] at hlength
  unfold WellFormed at hv hw
  have hwhole : (bytesBits v.full.reverse).length = (bytesBits w.full.reverse).length := by
    simp only [length_bytesBits, List.length_reverse]
    omega
  obtain ⟨hfull, hpending⟩ := List.append_inj h hwhole
  cases v
  cases w
  rw [BitWriter.mk.injEq]
  exact ⟨List.reverse_inj.1 (bytesBits_inj hfull), hpending⟩

end BitWriter

/-- The bytes of a stream of items. -/
def streamOf (items : List Item) : List UInt8 := (BitWriter.empty.putAll items).finish

theorem bitLength_putAll (items : List Item) :
    (BitWriter.empty.putAll items).bitLength = (items.map Item.width).sum := by
  rw [BitWriter.bitLength_eq, (BitWriter.bits_putAll BitWriter.wellFormed_empty items).2,
    ← length_flatMap_bits]
  rfl

/-- Whether bytes are put in at once or as numbers of 8 bits, the stream is the same. -/
theorem putAll_apart (items : List Item) :
    BitWriter.empty.putAll (items.flatMap Item.apart) = BitWriter.empty.putAll items := by
  obtain ⟨hw, hbits⟩ := BitWriter.bits_putAll BitWriter.wellFormed_empty items
  obtain ⟨hapart, hsame⟩ :=
    BitWriter.bits_putAll BitWriter.wellFormed_empty (items.flatMap Item.apart)
  exact BitWriter.eq_of_bits hapart hw (by rw [hsame, hbits, flatMap_apart_bits])

/-- The bytes of a stream are the bits of its items, and zeros for less than a byte. -/
theorem bytesBits_streamOf (items : List Item) : ∃ padding < 8,
    bytesBits (streamOf items) = items.flatMap Item.bits ++ List.replicate padding false := by
  obtain ⟨hw, hbits⟩ := BitWriter.bits_putAll BitWriter.wellFormed_empty items
  refine ⟨(BitWriter.empty.putAll items).padding, BitWriter.padding_lt _, ?_⟩
  rw [streamOf, BitWriter.bytesBits_finish hw, hbits]
  rfl

theorem length_streamOf (items : List Item) :
    (streamOf items).length = ((items.map Item.width).sum + 7) / 8 := by
  have hw := (BitWriter.bits_putAll BitWriter.wellFormed_empty items).1
  rw [streamOf, BitWriter.length_finish hw, ← BitWriter.bitLength_eq, bitLength_putAll]

/-! ## Reading -/

namespace BitReader

/-- Meets demands one after the other, up to the first one that fails. -/
def takeAll (r : BitReader) : List Demand → Except Fault (List Item) × BitReader
  | [] => (.ok [], r)
  | d :: ds =>
    match r.take d with
    | (.error f, r) => (.error f, r)
    | (.ok i, r) =>
      let (rest, r) := r.takeAll ds
      (rest.map (i :: ·), r)

variable {r : BitReader}

/-- An item at the front is taken as its bits hold it. -/
theorem take_demand {i : Item} (hi : i.Narrow) {rest : List Bool} (h : r.ahead = i.bits ++ rest) :
    r.take i.demand = (.ok i.held, r.advance i.width) := by
  have hfront : r.ahead.take i.width = i.bits := by rw [h, ← i.length_bits, List.take_left]
  have henough : i.width ≤ r.remaining := by
    rw [remaining, h, List.length_append, i.length_bits]
    exact Nat.le_add_right _ _
  cases i with
  | number value count =>
      have hlt : value % 2 ^ count < 2 ^ 64 := Nat.lt_of_lt_of_le (Nat.mod_lt _ (Nat.two_pow_pos _))
        (Nat.pow_le_pow_right (by decide) hi)
      have henough : count ≤ r.remaining := henough
      have hfront : r.ahead.take count = field count value := hfront
      rw [Item.demand, take, read_of_le henough, hfront, bitsValue_field, Nat.mod_eq_of_lt hlt]
      rfl
  | bit b =>
      have hfront : r.ahead.take 1 = [b] := hfront
      rw [Item.demand, take, readBit_of_le henough, hfront]
      cases b <;> rfl
  | bytes data =>
      have henough : 8 * data.length ≤ r.remaining := henough
      have hfront : r.ahead.take (8 * data.length) = bytesBits data := hfront
      rw [Item.demand, take, readBytes_of_le henough, hfront, toBytes_bytesBits]
      rfl

theorem takeAll_demands (hnarrow : ∀ i ∈ items, i.Narrow) {rest : List Bool}
    (h : r.ahead = items.flatMap Item.bits ++ rest) :
    r.takeAll (items.map Item.demand) =
      (.ok (items.map Item.held), r.advance (items.map Item.width).sum) := by
  induction items generalizing r with
  | nil => rfl
  | cons i items ih =>
      rw [List.flatMap_cons, List.append_assoc] at h
      have hrest : (r.advance i.width).ahead = items.flatMap Item.bits ++ rest := by
        show r.ahead.drop i.width = _
        rw [h, ← i.length_bits, List.drop_left]
      rw [List.map_cons, takeAll, take_demand (hnarrow i List.mem_cons_self) h]
      dsimp only
      rw [ih (fun j hj => hnarrow j (List.mem_cons_of_mem i hj)) hrest, advance_advance]
      rfl

end BitReader

/-- From its stream the items come back, and what is left is less than a byte. -/
theorem takeAll_ofBytes (hnarrow : ∀ i ∈ items, i.Narrow) :
    ∃ r, (BitReader.ofBytes (streamOf items)).takeAll (items.map Item.demand) =
        (.ok (items.map Item.held), r) ∧
      (BitReader.ofBytes (streamOf items)).takeAll ((items.flatMap Item.apart).map Item.demand) =
        (.ok ((items.map Item.held).flatMap Item.apart), r) ∧ r.remaining < 8 := by
  obtain ⟨padding, hpadding, hbits⟩ := bytesBits_streamOf items
  refine ⟨_, BitReader.takeAll_demands hnarrow hbits, ?_, ?_⟩
  · rw [← map_held_flatMap_apart, ← length_flatMap_bits, ← flatMap_apart_bits, length_flatMap_bits]
    exact BitReader.takeAll_demands (narrow_flatMap_apart hnarrow)
      (by rw [flatMap_apart_bits]; exact hbits)
  · have hlength := congrArg List.length hbits
    rw [List.length_append, List.length_replicate, length_flatMap_bits] at hlength
    rw [BitReader.remaining_advance]
    show (bytesBits (streamOf items)).length - _ < 8
    omega

/-! ## In memory -/

namespace ByteWriter

def putAll (w : ByteWriter) (items : List Item) : ByteWriter := items.foldl put w

variable {v w : ByteWriter} {bits : List Bool}

theorem Holds.putAll (h : w.Holds bits) (hnarrow : ∀ i ∈ items, i.Narrow) :
    (w.putAll items).Holds (bits ++ items.flatMap Item.bits) := by
  induction items generalizing w bits with
  | nil => exact (List.append_nil bits).symm ▸ h
  | cons i items ih =>
      rw [List.flatMap_cons, ← List.append_assoc]
      exact ih (h.put (hnarrow i List.mem_cons_self)) fun j hj =>
        hnarrow j (List.mem_cons_of_mem i hj)

/-- Streams in memory that hold the same bits are the same. -/
theorem Holds.unique (h : v.Holds bits) (h' : w.Holds bits) : v = w := by
  have hused : v.used = w.used := Fin.ext (h.used_eq.trans h'.used_eq.symm)
  have hbits := h.bits_eq
  rw [free, hused, ← free, ← h'.bits_eq] at hbits
  cases v
  cases w
  rw [ByteWriter.mk.injEq]
  exact ⟨Array.toList_inj.1 (bytesBits_inj hbits), hused⟩

/-- The bytes that hold some bits are those of the finished stream of these bits. -/
theorem Holds.bytes_eq (h : w.Holds bits) {s : BitWriter} (hs : s.WellFormed)
    (hbits : s.bits = bits) : w.bytes.toList = s.finish := by
  have hpadding : s.padding = w.free % 8 := by
    have hlength := congrArg List.length hbits
    rw [← BitWriter.bitLength_eq, BitWriter.bitLength] at hlength
    unfold BitWriter.WellFormed at hs
    unfold BitWriter.padding free
    rw [h.used_eq]
    omega
  apply bytesBits_inj
  rw [h.bits_eq, BitWriter.bytesBits_finish hs, hbits, hpadding]

end ByteWriter

namespace ByteReader

/-- Meets demands one after the other, up to the first one that fails. -/
def takeAll (r : ByteReader) : List Demand → Except Fault (List Item) × ByteReader
  | [] => (.ok [], r)
  | d :: ds =>
    match r.take d with
    | (.error f, r) => (.error f, r)
    | (.ok i, r) =>
      let (rest, r) := r.takeAll ds
      (rest.map (i :: ·), r)

theorem agrees_takeAll {r : ByteReader} (hinside : r.Inside) {ds : List Demand}
    (hnarrow : ∀ d ∈ ds, d.Narrow) : Agrees (r.takeAll ds) (r.view.takeAll ds) := by
  induction ds generalizing r with
  | nil => exact ⟨rfl, rfl, hinside⟩
  | cons d ds ih =>
      obtain ⟨hvalue, hview, hrest⟩ := agrees_take hinside (hnarrow d List.mem_cons_self)
      unfold takeAll BitReader.takeAll
      revert hvalue hview hrest
      rcases r.take d with ⟨f | i, r'⟩ <;> rcases r.view.take d with ⟨f' | i', s⟩
      · rintro ⟨⟩ ⟨⟩ hrest
        exact ⟨rfl, rfl, hrest⟩
      · rintro ⟨⟩
      · rintro ⟨⟩
      · rintro ⟨⟩ ⟨⟩ hrest
        obtain ⟨hvalue, hview, hinside⟩ := ih hrest fun d hd =>
          hnarrow d (List.mem_cons_of_mem _ hd)
        exact ⟨congrArg (Except.map (i :: ·)) hvalue, hview, hinside⟩

end ByteReader

/-- The stream in memory has the bytes of the stream of items. -/
theorem bytes_putAll (hnarrow : ∀ i ∈ items, i.Narrow) :
    (ByteWriter.empty.putAll items).bytes.toList = streamOf items := by
  obtain ⟨hw, hbits⟩ := BitWriter.bits_putAll BitWriter.wellFormed_empty items
  exact (ByteWriter.holds_empty.putAll hnarrow).bytes_eq hw hbits

theorem bitLength_bytes_putAll (hnarrow : ∀ i ∈ items, i.Narrow) :
    (ByteWriter.empty.putAll items).bitLength = (items.map Item.width).sum := by
  rw [(ByteWriter.holds_empty.putAll hnarrow).bitLength_eq, List.nil_append, length_flatMap_bits]

/-- What the demands take from the bits, they take from the bytes in memory. -/
theorem takeAll_bytes {w : ByteWriter} {ds : List Demand} (hnarrow : ∀ d ∈ ds, d.Narrow)
    {taken : List Item} {s : BitReader}
    (h : (BitReader.ofBytes w.bytes.toList).takeAll ds = (.ok taken, s)) :
    ∃ r, (ByteReader.mk w.bytes 0).takeAll ds = (.ok taken, r) ∧ r.view = s := by
  have hagrees := ByteReader.agrees_takeAll (r := ⟨w.bytes, 0⟩) (Nat.zero_le _) hnarrow
  have hstart : (ByteReader.mk w.bytes 0).view = BitReader.ofBytes w.bytes.toList := rfl
  rw [hstart, h] at hagrees
  exact ⟨_, Prod.ext hagrees.value_eq rfl, hagrees.view_eq⟩

/-! ## There and back -/

/-- **Items come back from their stream.** Put into a stream one after the other, each makes it
longer by its width. The finished stream is their bits, filled up to whole bytes with zeros. Asked
for the same widths, a reader gives every item as its bits hold it, and less than a byte is left.
Bytes that go through as numbers of 8 bits make the same stream and come back as these numbers. The
stream in memory has the same bytes, and a reader of these gives the same. -/
theorem takeAll_streamOf {items : List Item} (hnarrow : ∀ i ∈ items, i.Narrow) :
    (∀ before, before <+: items →
      (BitWriter.empty.putAll before).bitLength = (before.map Item.width).sum ∧
      (ByteWriter.empty.putAll before).bitLength = (before.map Item.width).sum) ∧
    (streamOf items).length = ((BitWriter.empty.putAll items).bitLength + 7) / 8 ∧
    (∃ padding < 8, bytesBits (streamOf items) =
      items.flatMap Item.bits ++ List.replicate padding false) ∧
    (∃ r, (BitReader.ofBytes (streamOf items)).takeAll (items.map Item.demand) =
        (.ok (items.map Item.held), r) ∧
      (BitReader.ofBytes (streamOf items)).takeAll ((items.flatMap Item.apart).map Item.demand) =
        (.ok ((items.map Item.held).flatMap Item.apart), r) ∧ r.remaining < 8) ∧
    BitWriter.empty.putAll (items.flatMap Item.apart) = BitWriter.empty.putAll items ∧
    (ByteWriter.empty.putAll items).bytes.toList = streamOf items ∧
    ByteWriter.empty.putAll (items.flatMap Item.apart) = ByteWriter.empty.putAll items ∧
    (∃ r r', (ByteReader.mk (ByteWriter.empty.putAll items).bytes 0).takeAll
        (items.map Item.demand) = (.ok (items.map Item.held), r) ∧
      (ByteReader.mk (ByteWriter.empty.putAll items).bytes 0).takeAll
        ((items.flatMap Item.apart).map Item.demand) =
          (.ok ((items.map Item.held).flatMap Item.apart), r') ∧
      r.view = r'.view ∧ r.remaining < 8) := by
  have hdemands : ∀ {items : List Item}, (∀ i ∈ items, i.Narrow) →
      ∀ d ∈ items.map Item.demand, d.Narrow := by
    intro items hnarrow d hd
    obtain ⟨i, hi, rfl⟩ := List.mem_map.1 hd
    exact (hnarrow i hi).demand
  have hapart := narrow_flatMap_apart hnarrow
  have hbytes := bytes_putAll hnarrow
  obtain ⟨s, hwhole, hpieces, hleft⟩ := takeAll_ofBytes hnarrow
  refine ⟨fun before hbefore => ⟨bitLength_putAll before, ?_⟩, ?_, bytesBits_streamOf items,
    ⟨s, hwhole, hpieces, hleft⟩, putAll_apart items, hbytes, ?_, ?_⟩
  · exact bitLength_bytes_putAll fun i hi => hnarrow i (hbefore.subset hi)
  · rw [length_streamOf, bitLength_putAll]
  · have hholds := ByteWriter.holds_empty.putAll hapart
    rw [flatMap_apart_bits] at hholds
    exact hholds.unique (ByteWriter.holds_empty.putAll hnarrow)
  · obtain ⟨r, hr, hview⟩ := takeAll_bytes (hdemands hnarrow) (hbytes ▸ hwhole)
    obtain ⟨r', hr', hview'⟩ := takeAll_bytes (hdemands hapart) (hbytes ▸ hpieces)
    refine ⟨r, r', hr, hr', hview.trans hview'.symm, ?_⟩
    rw [← ByteReader.remaining_view, hview]
    exact hleft

/-- Two bytes that start in the middle of one, and a number that is wider than its field. -/
theorem takeAll_streamOf_unaligned :
    streamOf [.number 5 3, .bit true, .bytes [0xAB, 0xCD], .number 0x1FFFF 12, .bit false] =
      [0xBA, 0xBC, 0xDF, 0xFF, 0x00] ∧
    ∃ r, (BitReader.ofBytes [0xBA, 0xBC, 0xDF, 0xFF, 0x00]).takeAll
        [.number 3, .bit, .bytes 2, .number 12, .bit] =
      (.ok [.number 5 3, .bit true, .bytes [0xAB, 0xCD], .number 0xFFF 12, .bit false], r) ∧
      r.remaining < 8 := by
  have hstream : streamOf [.number 5 3, .bit true, .bytes [0xAB, 0xCD], .number 0x1FFFF 12,
      .bit false] = [0xBA, 0xBC, 0xDF, 0xFF, 0x00] := by decide +kernel
  have hnarrow : ∀ i ∈ [Item.number 5 3, .bit true, .bytes [0xAB, 0xCD], .number 0x1FFFF 12,
      .bit false], i.Narrow := by simp [Item.Narrow]
  obtain ⟨-, -, -, ⟨r, hwhole, -, hleft⟩, -⟩ := takeAll_streamOf hnarrow
  rw [hstream] at hwhole
  exact ⟨hstream, r, hwhole, hleft⟩

end EmbeddedBuffers.Codec
