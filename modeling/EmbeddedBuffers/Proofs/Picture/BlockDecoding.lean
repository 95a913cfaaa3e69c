import EmbeddedBuffers.Picture.Block
import EmbeddedBuffers.Proofs.Picture.Places
import Mathlib.Data.List.Basic

/-!
# Blocks as a decoder sees them

A decoder of block-compressed pictures knows the eight bytes of a block and nothing of how they
were made: it tells from the order of the two colours which entries there are to choose from. What
it shows of a picture is transparent where the picture is, or where there is no picture, and
elsewhere the nearest of the colours that the block offers. Main statements: `suits_shown_encode` and
`blocks_shown`.
-/

namespace EmbeddedBuffers.Block

/-! ## A decoder -/

/-- A number of some bits in eight: its high bits are repeated below it. -/
def widen (bits n : Nat) : Nat := n * 2 ^ (8 - bits) + n / 2 ^ (2 * bits - 8)

/-- The colour that a decoder reads in a number: five, six and five bits from the top. -/
def Color.ofWord (n : Nat) : Color :=
  ⟨widen 5 (n / 2 ^ 11 % 2 ^ 5), widen 6 (n / 2 ^ 5 % 2 ^ 6), widen 5 (n % 2 ^ 5)⟩

/-- The entries that two numbers offer. The greater one first stands for four colours, any other
order for three and a transparent entry. -/
def entries (first second : Nat) : List (Option Color) :=
  let a := Color.ofWord first
  let b := Color.ofWord second
  if second < first then
    [some a, some b, some (a.zip (fun x y => (2 * x + y) / 3) b),
      some (a.zip (fun x y => (x + 2 * y) / 3) b)]
  else [some a, some b, some (a.zip (fun x y => (x + y) / 2) b), none]

/-- The number that some bytes denote, the lowest first. -/
def number : List UInt8 → Nat
  | [] => 0
  | b :: bytes => b.toNat + 256 * number bytes

/-- The entries of a block. -/
def offered (block : List UInt8) : List (Option Color) :=
  entries (number (block.take 2)) (number ((block.drop 2).take 2))

/-- What a block shows at its pixel `i`, a colour or nothing. -/
def shown (block : List UInt8) (i : Nat) : Option Color :=
  (offered block).getD (number ((block.drop 4).take 4) / 4 ^ i % 4) none

/-- The block of a place in the data of a picture of some width, block rows from the top. -/
def blockAt (width : Nat) (data : List UInt8) (x y : Nat) : List UInt8 :=
  (data.drop (8 * (y / 4 * ((width + 3) / 4) + x / 4))).take 8

/-- What the data of a picture show at a place. -/
def seen (width : Nat) (data : List UInt8) (x y : Nat) : Option Color :=
  shown (blockAt width data x y) (4 * (y % 4) + x % 4)

/-- The squared distance of two colours. -/
def Color.squaredDistance (a b : Color) : Int :=
  ((a.red : Int) - b.red) ^ 2 + ((a.green : Int) - b.green) ^ 2 + ((a.blue : Int) - b.blue) ^ 2

/-- A colour on offer that is as near to another as any. -/
def IsNearest (offer : List (Option Color)) (c target : Color) : Prop :=
  some c ∈ offer ∧
    ∀ c', some c' ∈ offer → c.squaredDistance target ≤ c'.squaredDistance target

/-! ## Words -/

theorem shiftLeft_or {a b : Nat} {count : Nat} (h : b < 2 ^ count) :
    a <<< count ||| b = a * 2 ^ count + b := by
  rw [← Nat.shiftLeft_add_eq_or_of_lt h, Nat.shiftLeft_eq]

theorem rgb565_eq {red green blue : Nat} (hr : red < 256) (hg : green < 256) (hb : blue < 256) :
    rgb565 red green blue = red / 8 * 2 ^ 11 + green / 4 * 2 ^ 5 + blue / 8 := by
  have hred : ∀ n < 256, (n &&& 0xF8) <<< 8 = (n / 8) <<< 11 := by decide +kernel
  have hgreen : ∀ n < 256, (n &&& 0xFC) <<< 3 = (n / 4) <<< 5 := by decide +kernel
  have hlow : blue / 8 < 2 ^ 5 := by omega
  have hmiddle : green / 4 * 2 ^ 5 + blue / 8 < 2 ^ 11 := by omega
  rw [rgb565, hred red hr, hgreen green hg, Nat.or_assoc,
    show blue >>> 3 = blue / 8 from Nat.shiftRight_eq_div_pow blue 3, shiftLeft_or hlow,
    shiftLeft_or hmiddle, Nat.add_assoc]

theorem unpack_eq (n : Nat) : Color.unpack n = Color.ofWord n := by
  have hfive : ∀ n < 2 ^ 5, n <<< 3 ||| n >>> 2 = widen 5 n := by decide +kernel
  have hsix : ∀ n < 2 ^ 6, n <<< 2 ||| n >>> 4 = widen 6 n := by decide +kernel
  have hred : n >>> 11 &&& 0x1F = n / 2 ^ 11 % 2 ^ 5 := by
    rw [Nat.shiftRight_eq_div_pow]
    exact Nat.and_two_pow_sub_one_eq_mod _ 5
  have hgreen : n >>> 5 &&& 0x3F = n / 2 ^ 5 % 2 ^ 6 := by
    rw [Nat.shiftRight_eq_div_pow]
    exact Nat.and_two_pow_sub_one_eq_mod _ 6
  have hblue : n &&& 0x1F = n % 2 ^ 5 := Nat.and_two_pow_sub_one_eq_mod _ 5
  unfold Color.unpack Color.ofWord
  dsimp only
  rw [hred, hgreen, hblue, hfive _ (Nat.mod_lt _ (by decide)), hsix _ (Nat.mod_lt _ (by decide)),
    hfive _ (Nat.mod_lt _ (by decide))]

theorem length_lowFirst (count n : Nat) : (lowFirst count n).length = count := by
  induction count generalizing n with
  | zero => rfl
  | succ count ih => rw [lowFirst, List.length_cons, ih]

theorem number_lowFirst (count n : Nat) : number (lowFirst count n) = n % 256 ^ count := by
  induction count generalizing n with
  | zero => rw [Nat.pow_zero, Nat.mod_one]; rfl
  | succ count ih =>
      have hpow : 256 ^ (count + 1) = 256 * 256 ^ count := Nat.pow_succ'
      rw [lowFirst, number, ih, UInt8.toNat_ofNat', hpow, Nat.mod_mul]

/-! ## The order of the ends -/

/-- No part of a colour is greater than that of another. -/
def Color.Below (a b : Color) : Prop := a.red ≤ b.red ∧ a.green ≤ b.green ∧ a.blue ≤ b.blue

/-- The brightest colour. -/
def Color.white : Color := ⟨255, 255, 255⟩

theorem pack_le {a b : Color} (hab : a.Below b) (hb : b.Below .white) : a.pack ≤ b.pack := by
  obtain ⟨hr, hg, hbl⟩ := hab
  obtain ⟨hr', hg', hbl'⟩ := hb
  unfold Color.white at hr' hg' hbl'
  dsimp only at hr' hg' hbl'
  unfold Color.pack
  rw [rgb565_eq (by omega) (by omega) (by omega), rgb565_eq (by omega) (by omega) (by omega)]
  omega

theorem pack_lt {a : Color} (ha : a.Below .white) : a.pack < 2 ^ 16 :=
  Nat.lt_of_le_of_lt (pack_le ha ⟨Nat.le_refl _, Nat.le_refl _, Nat.le_refl _⟩) (by decide)

/-- The smallest parts of some colours are not above the greatest, and these are no brighter than
white. -/
theorem range_below {cs : List Color} (h : ∀ c ∈ cs, c.Below .white) :
    (range cs).1.Below (range cs).2 ∧ (range cs).2.Below .white := by
  have step : ∀ (cs : List Color) (low high : Color), low.Below high → high.Below .white →
      (∀ c ∈ cs, c.Below .white) →
      (cs.foldl (Color.zip min) low).Below (cs.foldl (Color.zip max) high) ∧
        (cs.foldl (Color.zip max) high).Below .white := by
    intro cs
    induction cs with
    | nil => exact fun low high hlow hhigh _ => ⟨hlow, hhigh⟩
    | cons c cs ih =>
        intro low high hlow hhigh hall
        obtain ⟨hc, hcs⟩ := List.forall_mem_cons.1 hall
        refine ih _ _ ?_ ?_ hcs
        · unfold Color.Below Color.zip at *
          dsimp only
          omega
        · unfold Color.Below Color.zip at *
          dsimp only
          omega
  cases cs with
  | nil => exact ⟨⟨Nat.le_refl _, Nat.le_refl _, Nat.le_refl _⟩, by unfold Color.Below; decide⟩
  | cons c cs =>
      obtain ⟨hc, hcs⟩ := List.forall_mem_cons.1 h
      exact step cs c c ⟨Nat.le_refl _, Nat.le_refl _, Nat.le_refl _⟩ hc hcs

/-! ## Choices -/

section Nearest

variable {c : Color}

/-- The best entry so far stands at its index, and none in front of `index` is nearer. -/
theorem exists_nearestFrom {seen rest : List Color} {best : Nat × Nat} {q : Color}
    (hq : seen[best.2]? = some q) (hdistance : q.distance c = best.1)
    (hleast : ∀ q' ∈ seen, best.1 ≤ q'.distance c) :
    ∃ q, (seen ++ rest)[nearestFrom c best seen.length rest]? = some q ∧
      ∀ q' ∈ seen ++ rest, q.distance c ≤ q'.distance c := by
  induction rest generalizing seen best q with
  | nil =>
      rw [List.append_nil]
      exact ⟨q, hq, fun q' hq' => hdistance ▸ hleast q' hq'⟩
  | cons p rest ih =>
      have hlength : (seen ++ [p]).length = seen.length + 1 := by simp
      have hsplit : seen ++ p :: rest = (seen ++ [p]) ++ rest := by simp
      rw [nearestFrom, hsplit]
      split
      · next hlt =>
        rw [← hlength]
        refine ih (q := p) List.getElem?_concat_length rfl fun q' hq' => ?_
        rcases List.mem_append.1 hq' with hq' | hq'
        · exact Nat.le_trans (Nat.le_of_lt hlt) (hleast q' hq')
        · exact List.mem_singleton.1 hq' ▸ Nat.le_refl _
      · next hge =>
        have hinside := (List.getElem?_eq_some_iff.1 hq).1
        rw [← hlength]
        refine ih (q := q) (by rw [List.getElem?_append_left hinside, hq]) hdistance
          fun q' hq' => ?_
        rcases List.mem_append.1 hq' with hq' | hq'
        · exact hleast q' hq'
        · exact List.mem_singleton.1 hq' ▸ Nat.not_lt.1 hge

/-- **The choice of a colour is the nearest entry.** -/
theorem exists_nearest (c : Color) {colors : List Color} (h : colors ≠ []) :
    ∃ q, colors[nearest c colors]? = some q ∧ ∀ q' ∈ colors, q.distance c ≤ q'.distance c := by
  cases colors with
  | nil => exact absurd rfl h
  | cons p colors =>
      have hfirst : [p][(p.distance c, 0).2]? = some p := rfl
      exact exists_nearestFrom hfirst rfl (by simp)

/-- Among equally near entries the first is chosen. -/
theorem nearestFrom_of_le {best : Nat × Nat} {index : Nat} {rest : List Color}
    (h : ∀ q ∈ rest, best.1 ≤ q.distance c) : nearestFrom c best index rest = best.2 := by
  induction rest generalizing index with
  | nil => rfl
  | cons p rest ih =>
      obtain ⟨hp, hrest⟩ := List.forall_mem_cons.1 h
      rw [nearestFrom, if_neg (Nat.not_lt.2 hp)]
      exact ih hrest

theorem nearest_replicate (c a : Color) (n : Nat) :
    nearest c (List.replicate (n + 1) a) = 0 :=
  nearestFrom_of_le fun _ hq => Nat.le_of_eq (by rw [List.eq_of_mem_replicate hq])

end Nearest

/-- The choice of a pixel. -/
def choiceOf (colors : List Color) : Option Color → Nat
  | some c => nearest c colors
  | none => transparentChoice

theorem choices_cons (colors : List Color) (c : Option Color) (cs : List (Option Color)) :
    choices colors (c :: cs) = choiceOf colors c + 4 * choices colors cs := by
  cases c <;> rfl

/-- Choices of two bits are read back one by one. -/
theorem choices_digit {colors : List Color} {cs : List (Option Color)}
    (h : ∀ c ∈ cs, choiceOf colors c < 4) :
    choices colors cs < 4 ^ cs.length ∧
      ∀ i (hi : i < cs.length), choices colors cs / 4 ^ i % 4 = choiceOf colors cs[i] := by
  induction cs with
  | nil => exact ⟨Nat.zero_lt_one, fun i hi => absurd hi (Nat.not_lt_zero i)⟩
  | cons c cs ih =>
      obtain ⟨hc, hcs⟩ := List.forall_mem_cons.1 h
      obtain ⟨hlt, hdigit⟩ := ih hcs
      rw [choices_cons]
      refine ⟨by rw [List.length_cons, Nat.pow_succ]; omega, fun i hi => ?_⟩
      cases i with
      | zero =>
          rw [Nat.pow_zero, Nat.div_one, Nat.add_mul_mod_self_left, Nat.mod_eq_of_lt hc]
          rfl
      | succ i =>
          have hpow : (4 : Nat) ^ (i + 1) = 4 * 4 ^ i := Nat.pow_succ'
          rw [hpow, ← Nat.div_div_eq_div_mul, Nat.add_mul_div_left _ _ (by decide),
            Nat.div_eq_of_lt hc, Nat.zero_add]
          exact hdigit i (Nat.lt_of_succ_lt_succ hi)

/-! ## Blocks -/

theorem squaredDistance_eq (a b : Color) : a.squaredDistance b = (a.distance b : Int) := by
  have hsquare : ∀ x y : Nat, (Color.square x y : Int) = ((x : Int) - y) ^ 2 := by
    intro x y
    unfold Color.square
    rcases Nat.le_total x y with h | h
    · rw [Nat.sub_eq_zero_of_le h, Nat.zero_add, Int.natCast_pow, Int.natCast_sub h]
      grind
    · rw [Nat.sub_eq_zero_of_le h, Nat.add_zero, Int.natCast_pow, Int.natCast_sub h]
  unfold Color.squaredDistance Color.distance
  rw [Int.natCast_add, Int.natCast_add, hsquare, hsquare, hsquare]

/-- What is shown of a pixel suits it: nothing of a transparent one, and of any other the nearest
colour on offer. -/
def Suits (offer : List (Option Color)) : (pixel seen : Option Color) → Prop
  | none, seen => seen = none
  | some c, seen => ∃ q, seen = some q ∧ IsNearest offer q c

/-- A nearest entry suits, whatever stands behind the colours that were chosen from, as long as it
is transparent. -/
theorem suits_nearest {colors : List Color} (h : colors ≠ []) {more : List (Option Color)}
    (hmore : ∀ o ∈ more, o = none) (c : Color) :
    Suits (colors.map some ++ more) (some c)
      ((colors.map some ++ more).getD (nearest c colors) none) := by
  obtain ⟨q, hq, hleast⟩ := exists_nearest c h
  have hinside := (List.getElem?_eq_some_iff.1 hq).1
  have hshown : (colors.map some ++ more).getD (nearest c colors) none = some q := by
    rw [List.getD_eq_getElem?_getD, List.getElem?_append_left (by simpa using hinside),
      List.getElem?_map, hq]
    rfl
  refine ⟨q, hshown, List.mem_append_left _ (List.mem_map_of_mem (List.mem_of_getElem? hq)), ?_⟩
  intro c' hc'
  rw [squaredDistance_eq, squaredDistance_eq]
  rcases List.mem_append.1 hc' with hc' | hc'
  · obtain ⟨q', hq', heq⟩ := List.mem_map.1 hc'
    exact Int.ofNat_le.2 (Option.some.inj heq ▸ hleast q' hq')
  · cases hmore _ hc'

theorem mix_self (a : Color) {i j : Nat} (h : 0 < i + j) : a.mix a i j = a := by
  unfold Color.mix Color.zip
  dsimp only
  rw [← Nat.mul_add, ← Nat.mul_add, ← Nat.mul_add, Nat.mul_div_cancel _ h, Nat.mul_div_cancel _ h,
    Nat.mul_div_cancel _ h]

theorem palette_self (a : Color) : palette false a a = List.replicate 4 a := by
  unfold palette
  rw [if_neg Bool.false_ne_true, mix_self a (by decide), mix_self a (by decide)]
  rfl

/-- Two ends of the same colour are no four-colour block, whatever they were meant for. -/
theorem entries_self (n : Nat) :
    entries n n = (List.replicate 3 (Color.ofWord n)).map some ++ [none] := by
  have hmiddle := mix_self (Color.ofWord n) (i := 1) (j := 1) (by decide)
  unfold Color.mix at hmiddle
  simp only [Nat.mul_one] at hmiddle
  unfold entries
  dsimp only
  rw [if_neg (Nat.lt_irrefl n), hmiddle]
  rfl

theorem entries_of_lt {first second : Nat} (h : second < first) : entries first second =
    (palette false (.unpack first) (.unpack second)).map some ++ [] := by
  unfold entries palette
  rw [if_pos h, unpack_eq, unpack_eq]
  simp [Color.mix, Nat.mul_comm]

theorem entries_of_le {first second : Nat} (h : first ≤ second) : entries first second =
    (palette true (.unpack first) (.unpack second)).map some ++ [none] := by
  unfold entries palette
  rw [if_neg (Nat.not_lt.2 h), unpack_eq, unpack_eq]
  simp [Color.mix]

/-- **What is chosen from a palette suits what a decoder has on offer.** The two agree, unless both
ends of an opaque block are the same colour: then there are three entries instead of four, but the
first one is chosen. -/
theorem suits_choiceOf {transparent : Bool} {first second : Nat}
    (horder : if transparent then first ≤ second else second ≤ first) {c : Option Color}
    (hc : c = none → transparent = true) :
    let colors := palette transparent (.unpack first) (.unpack second)
    choiceOf colors c < 4 ∧
      Suits (entries first second) c ((entries first second).getD (choiceOf colors c) none) := by
  cases transparent with
  | true =>
      rw [entries_of_le horder]
      have hne : palette true (.unpack first) (.unpack second) ≠ [] := List.cons_ne_nil _ _
      cases c with
      | none => exact ⟨(by decide : 3 < 4), rfl⟩
      | some c =>
          obtain ⟨q, hq, -⟩ := exists_nearest c hne
          have hinside : nearest c (palette true (.unpack first) (.unpack second)) < 3 :=
            (List.getElem?_eq_some_iff.1 hq).1
          exact ⟨Nat.lt_succ_of_lt hinside, suits_nearest hne (by simp) c⟩
  | false =>
      obtain ⟨c, rfl⟩ := Option.ne_none_iff_exists'.1 fun hnone => Bool.false_ne_true (hc hnone)
      rcases Nat.lt_or_eq_of_le horder with hlt | rfl
      · have hne : palette false (.unpack first) (.unpack second) ≠ [] := List.cons_ne_nil _ _
        obtain ⟨q, hq, -⟩ := exists_nearest c hne
        have hinside : nearest c (palette false (.unpack first) (.unpack second)) < 4 :=
          (List.getElem?_eq_some_iff.1 hq).1
        rw [entries_of_lt hlt]
        exact ⟨hinside, suits_nearest hne (by simp) c⟩
      · have hfirst : choiceOf (palette false (.unpack second) (.unpack second)) (some c) = 0 := by
          rw [palette_self]
          exact nearest_replicate c _ 3
        have hthree : List.replicate 3 (Color.ofWord second) ≠ [] := List.cons_ne_nil _ _
        have hnone : ∀ o ∈ [(none : Option Color)], o = none := by simp
        have hsuits := suits_nearest hthree hnone c
        rw [nearest_replicate c _ 2] at hsuits
        dsimp only
        rw [hfirst, entries_self]
        exact ⟨by decide, hsuits⟩

theorem length_encode (pixels : List (Option Pixel)) : (encode pixels).length = 8 := by
  unfold encode
  dsimp only
  rw [List.length_append, List.length_append, length_lowFirst, length_lowFirst, length_lowFirst]

theorem visible?_below {p : Option Pixel} {c : Color} (h : visible? p = some c) :
    c.Below .white := by
  unfold visible? at h
  split at h
  · next px =>
    split at h
    · cases h
      have hr := px.red.toNat_lt
      have hg := px.green.toNat_lt
      have hb := px.blue.toNat_lt
      unfold Color.Below Color.white
      dsimp only
      omega
    · cases h
  · cases h

/-- The fields of eight bytes. -/
theorem fields_of_lowFirst {first second indices : Nat} (hfirst : first < 2 ^ 16)
    (hsecond : second < 2 ^ 16) (hindices : indices < 4 ^ 16) :
    let block := lowFirst 2 first ++ lowFirst 2 second ++ lowFirst 4 indices
    offered block = entries first second ∧ number ((block.drop 4).take 4) = indices := by
  intro block
  have htake : block.take 2 = lowFirst 2 first := rfl
  have hdrop : (block.drop 2).take 2 = lowFirst 2 second := rfl
  have hrest : (block.drop 4).take 4 = lowFirst 4 indices := rfl
  unfold offered
  rw [htake, hdrop, hrest, number_lowFirst, number_lowFirst, number_lowFirst,
    Nat.mod_eq_of_lt (Nat.lt_of_lt_of_le hfirst (by decide)),
    Nat.mod_eq_of_lt (Nat.lt_of_lt_of_le hsecond (by decide)),
    Nat.mod_eq_of_lt (Nat.lt_of_lt_of_le hindices (by decide))]
  exact ⟨rfl, rfl⟩

/-- A block stands under the order of its ends that its transparent pixels call for. -/
theorem exists_encode (pixels : List (Option Pixel)) :
    ∃ transparent first second, encode pixels = lowFirst 2 first ++ lowFirst 2 second ++
        lowFirst 4 (choices (palette transparent (.unpack first) (.unpack second))
          (pixels.map visible?)) ∧
      (if transparent then first ≤ second else second ≤ first) ∧
      (first < 2 ^ 16 ∧ second < 2 ^ 16) ∧
      ∀ c ∈ pixels.map visible?, c = none → transparent = true := by
  have hwhite : ∀ c ∈ (pixels.map visible?).filterMap id, c.Below .white := by
    intro c hc
    obtain ⟨o, ho, rfl⟩ := List.mem_filterMap.1 hc
    obtain ⟨px, -, hpx⟩ := List.mem_map.1 ho
    exact visible?_below hpx
  obtain ⟨hlow, hhigh⟩ := range_below hwhite
  have hpack := pack_le hlow hhigh
  have hhigh' := pack_lt hhigh
  have hlow' := Nat.lt_of_le_of_lt hpack hhigh'
  unfold encode
  dsimp only
  cases hany : (pixels.map visible?).any Option.isNone with
  | true => exact ⟨true, _, _, rfl, hpack, ⟨hlow', hhigh'⟩, fun _ _ _ => rfl⟩
  | false =>
      refine ⟨false, _, _, rfl, hpack, ⟨hhigh', hlow'⟩, fun c hc hnone => ?_⟩
      exact absurd (hnone ▸ rfl) (List.any_eq_false.1 hany c hc)

/-- **A block shows what suits each of its pixels.** -/
theorem suits_shown_encode {pixels : List (Option Pixel)} (hlength : pixels.length = 16) {i : Nat}
    (hi : i < pixels.length) :
    Suits (offered (encode pixels)) (visible? pixels[i]) (shown (encode pixels) i) := by
  obtain ⟨transparent, first, second, hencode, horder, ⟨hfirst, hsecond⟩, hnone⟩ :=
    exists_encode pixels
  obtain ⟨hlt, hdigit⟩ := choices_digit fun c hc => (suits_choiceOf horder (hnone c hc)).1
  have hi' : i < (pixels.map visible?).length := (List.length_map visible?).symm ▸ hi
  have hdigit := hdigit i hi'
  rw [List.length_map, hlength] at hlt
  obtain ⟨hoffered, hnumber⟩ := fields_of_lowFirst hfirst hsecond hlt
  rw [shown, hencode, hoffered, hnumber, hdigit, List.getElem_map]
  exact (suits_choiceOf horder (hnone _ (List.mem_map_of_mem (List.getElem_mem hi)))).2

/-! ## Pictures -/

/-- The colour of a pixel. -/
def Color.ofPixel (p : Pixel) : Color := ⟨p.red.toNat, p.green.toNat, p.blue.toNat⟩

variable {p : Picture}

theorem length_blockRow (p : Picture) (row : Nat) :
    ((List.range ((p.width + 3) / 4)).flatMap fun column => encode (pixels p column row)).length =
      8 * ((p.width + 3) / 4) :=
  length_flatMap_range fun _ => length_encode _

/-- The blocks stand in rows, each at its place. -/
theorem blockAt_blocks {x y : Nat} (hx : x / 4 < (p.width + 3) / 4)
    (hy : y / 4 < (p.height + 3) / 4) :
    blockAt p.width p.blocks x y = encode (pixels p (x / 4) (y / 4)) := by
  let columns := (p.width + 3) / 4
  let line := fun row => (List.range columns).flatMap fun column => encode (pixels p column row)
  have hrow : (p.blocks.drop (8 * columns * (y / 4))).take (8 * columns) = line (y / 4) :=
    slice_flatMap_range (f := line) (length_blockRow p) hy
  have hblock : ((line (y / 4)).drop (8 * (x / 4))).take 8 = encode (pixels p (x / 4) (y / 4)) :=
    slice_flatMap_range (f := fun column => encode (pixels p column (y / 4)))
      (fun _ => length_encode _) hx
  have hroom : 8 ≤ 8 * columns - 8 * (x / 4) := by omega
  have hplace : 8 * (y / 4 * columns + x / 4) = 8 * columns * (y / 4) + 8 * (x / 4) := by
    rw [Nat.mul_add, Nat.mul_assoc, Nat.mul_comm columns]
  rw [← hblock, ← hrow, List.drop_take, List.drop_drop, List.take_take, Nat.min_eq_left hroom,
    blockAt, hplace]

theorem visible?_get? (p : Picture) (x y : Nat) :
    visible? (p.get? x y) =
      if (x < p.width ∧ y < p.height) ∧ alphaThreshold ≤ (p.get x y).alpha.toNat then
        some (.ofPixel (p.get x y))
      else none := by
  by_cases hinside : x < p.width ∧ y < p.height
  · rw [Picture.get?_eq_some hinside.1 hinside.2, visible?]
    simp only [hinside, true_and, and_self]
    rfl
  · rw [Picture.get?, if_neg hinside, if_neg fun h => hinside h.1]
    rfl

/-- **A decoder shows the picture.** There are eight bytes for every block of four by four, block
rows from the top. Of the places in the blocks, a decoder shows nothing exactly at those that lie
outside the picture or where the picture is transparent, and at any other the nearest of the colours
that it has on offer there. -/
theorem blocks_shown (p : Picture) :
    p.blocks.length = 8 * ((p.width + 3) / 4 * ((p.height + 3) / 4)) ∧
      ∀ x y, x < 4 * ((p.width + 3) / 4) → y < 4 * ((p.height + 3) / 4) →
        (seen p.width p.blocks x y = none ↔
          ¬ (x < p.width ∧ y < p.height) ∨ (p.get x y).alpha.toNat < 128) ∧
        (x < p.width → y < p.height → 128 ≤ (p.get x y).alpha.toNat →
          ∃ c, seen p.width p.blocks x y = some c ∧
            IsNearest (offered (blockAt p.width p.blocks x y)) c (.ofPixel (p.get x y))) := by
  refine ⟨?_, fun x y hx hy => ?_⟩
  · rw [← Nat.mul_assoc]
    exact length_flatMap_range (length_blockRow p)
  · have hlength : (pixels p (x / 4) (y / 4)).length = 16 := List.length_map _
    have hi : 4 * (y % 4) + x % 4 < (pixels p (x / 4) (y / 4)).length := by omega
    have hpixel : (pixels p (x / 4) (y / 4))[4 * (y % 4) + x % 4] = p.get? x y := by
      have hcolumn : (4 * (y % 4) + x % 4) % 4 = x % 4 := by omega
      have hrow : (4 * (y % 4) + x % 4) / 4 = y % 4 := by omega
      simp only [pixels, List.getElem_map, List.getElem_range, hcolumn, hrow, Nat.div_add_mod]
    have hsuits := suits_shown_encode hlength hi
    rw [hpixel, visible?_get?, ← blockAt_blocks (by omega) (by omega), alphaThreshold] at hsuits
    change Suits _ _ (seen p.width p.blocks x y) at hsuits
    by_cases hvisible : (x < p.width ∧ y < p.height) ∧ 128 ≤ (p.get x y).alpha.toNat
    · rw [if_pos hvisible] at hsuits
      obtain ⟨c, hc, hnearest⟩ := hsuits
      refine ⟨iff_of_false ?_ ?_, fun _ _ _ => ⟨c, hc, hnearest⟩⟩
      · rw [hc]
        exact Option.some_ne_none c
      · omega
    · rw [if_neg hvisible] at hsuits
      exact ⟨iff_of_true hsuits (by omega), fun hx hy ha => absurd ⟨⟨hx, hy⟩, ha⟩ hvisible⟩

/-- A red pixel beside one that cannot be seen. -/
theorem blocks_shown_pair :
    let p : Picture := ⟨2, 1, #[⟨255, 0, 0, 255⟩, ⟨0, 0, 255, 7⟩], rfl⟩
    (1 < 4 * ((p.width + 3) / 4) ∧ 0 < 4 * ((p.height + 3) / 4)) ∧
      (0 < p.width ∧ 0 < p.height ∧ 128 ≤ (p.get 0 0).alpha.toNat) ∧
      seen p.width p.blocks 1 0 = none ∧
      ∃ c, seen p.width p.blocks 0 0 = some c ∧
        IsNearest (offered (blockAt p.width p.blocks 0 0)) c ⟨255, 0, 0⟩ := by
  intro p
  have hright := (blocks_shown p).2 1 0 (by decide) (by decide)
  have hleft := (blocks_shown p).2 0 0 (by decide) (by decide)
  exact ⟨by decide, by decide, hright.1.2 (Or.inr (by decide)),
    hleft.2 (by decide) (by decide) (by decide)⟩

end EmbeddedBuffers.Block
