import EmbeddedBuffers.Proofs.Codec.GuardedSearches

/-!
# Runs of the parse

The parse under guard, with a note of every position that it enters and of every search. It enters
the positions one after the other, each once, and searches for a position when just those in front
of it have been entered, whether the search is for the next token or looks ahead. It looks at no
place outside and makes the tokens of the parse. Its searches are exact up to the position of which
the word is the link to none, and behind it they overlook what is near. Main statements:
`parse_exact` and `parse_overlooks`.
-/

namespace EmbeddedBuffers.Codec.Lzss

open MatchFinder
open Guarded (require difference fetch require_bind difference_bind fetch_bind)

/-! ## The parse under guard -/

/-- What the parse does with its match finder. -/
inductive Event
  | insert (pos : Nat)
  | search (s : Search)
deriving DecidableEq, Repr

/-- The positions that are entered. -/
def inserted (events : List Event) : List Nat :=
  events.filterMap fun
    | .insert pos => some pos
    | .search _ => none

/-- Puts an element at a place. -/
def store {α : Type} (xs : Array α) (place : Nat) (x : α) : Guarded (Array α) := do
  require (place < xs.size) (.outside place xs.size)
  return xs.setIfInBounds place x

def guardedInsert (f : MatchFinder) (data : Array UInt8) (pos : Nat) : Guarded MatchFinder :=
  match f.hash? data pos with
  | none => return f
  | some h => do
    let head ← fetch f.heads h
    let mask ← difference f.links.size 1
    let links ← store f.links (pos &&& mask) head
    let heads ← store f.heads h (UInt32.ofNat pos)
    return ⟨links, heads, f.keyLength⟩

def guardedInsertMany (f : MatchFinder) (data : Array UInt8) (pos : Nat) :
    (count : Nat) → Guarded (MatchFinder × List Event)
  | 0 => return (f, [])
  | count + 1 => do
    let f ← guardedInsert f data pos
    let (f, events) ← guardedInsertMany f data (pos + 1) count
    return (f, .insert pos :: events)

def guardedMatchAt (p : Lzss) (data : Array UInt8) (f : MatchFinder) (pos : Nat) :
    Guarded (Match × List Event) :=
  if pos < data.size then do
    let s ← guardedLongest f data pos p.window p.maxMatch
    return (s.found, [.search s])
  else return ({}, [])

/-- The match that one at `pos` may give way to. -/
def guardedLookAhead (p : Lzss) (data : Array UInt8) (f : MatchFinder) (pos : Nat)
    (current : Match) : Guarded (Match × List Event) :=
  if current.length < p.maxMatch then guardedMatchAt p data f (pos + 1) else return ({}, [])

def guardedParseFrom (p : Lzss) (data : Array UInt8) (f : MatchFinder) (pos : Nat)
    (current : Match) : Guarded (List Token × List Event) :=
  if pos < data.size then do
    let f ← guardedInsert f data pos
    if 0 < current.length ∧ p.minMatch ≤ current.length then
      let (next, ahead) ← guardedLookAhead p data f pos current
      if current.length < next.length then
        let byte ← fetch data pos
        let (tokens, events) ← guardedParseFrom p data f (pos + 1) next
        return (.literal byte :: tokens, .insert pos :: (ahead ++ events))
      else
        let (f, entered) ← guardedInsertMany f data (pos + 1) (current.length - 1)
        let (found, looked) ← guardedMatchAt p data f (pos + current.length)
        let (tokens, events) ← guardedParseFrom p data f (pos + current.length) found
        return (.reference current.distance current.length :: tokens,
          .insert pos :: (ahead ++ (entered ++ (looked ++ events))))
    else
      let byte ← fetch data pos
      let (found, looked) ← guardedMatchAt p data f (pos + 1)
      let (tokens, events) ← guardedParseFrom p data f (pos + 1) found
      return (.literal byte :: tokens, .insert pos :: (looked ++ events))
  else return ([], [])
termination_by data.size - pos

theorem insertMany_add (f : MatchFinder) (data : Array UInt8) (pos m n : Nat) :
    f.insertMany data pos (m + n) = (f.insertMany data pos m).insertMany data (pos + m) n := by
  induction m generalizing f pos with
  | zero => rw [Nat.zero_add]; rfl
  | succ m ih =>
      rw [Nat.add_right_comm, MatchFinder.insertMany, ih, Nat.add_assoc, Nat.add_comm 1 m]
      rfl

/-- The match finder in which the positions below a bound have been entered. -/
def finderAt (p : Lzss) (data : Array UInt8) (pos : Nat) : MatchFinder :=
  (MatchFinder.empty data.size p.window p.minMatch).insertMany data 0 pos

variable {p : Lzss} {data : Array UInt8} {pos a b c : Nat} {events events' : List Event}

theorem insertMany_finderAt (p : Lzss) (data : Array UInt8) (pos count : Nat) :
    (finderAt p data pos).insertMany data pos count = finderAt p data (pos + count) := by
  rw [finderAt, finderAt, insertMany_add, Nat.zero_add]

theorem insert_finderAt (p : Lzss) (data : Array UInt8) (pos : Nat) :
    (finderAt p data pos).insert data pos = finderAt p data (pos + 1) :=
  insertMany_finderAt p data pos 1

theorem chained_finderAt (p : Lzss) (data : Array UInt8) (pos : Nat) :
    Chained p data pos (finderAt p data pos) := by
  have hchained := (Chained.empty p data).insertMany pos
  rwa [Nat.zero_add] at hchained

/-! ## Events in their order -/

/-- The events enter the positions from one on up to another, and each search is for the position
that is entered next. -/
def Advances (p : Lzss) (data : Array UInt8) : List Event → Nat → Nat → Prop
  | [], a, b => a = b
  | .insert pos :: events, a, b => pos = a ∧ Advances p data events (a + 1) b
  | .search s :: events, a, b =>
    s.pos = a ∧ Searches p data (finderAt p data s.pos) s ∧ Advances p data events a b

theorem Advances.append (h : Advances p data events a b) (h' : Advances p data events' b c) :
    Advances p data (events ++ events') a c := by
  induction events generalizing a with
  | nil =>
      cases h
      exact h'
  | cons event events ih =>
      cases event with
      | insert pos => exact ⟨h.1, ih h.2⟩
      | search s => exact ⟨h.1, h.2.1, ih h.2.2⟩

theorem Advances.inserted_eq (h : Advances p data events a b) :
    a ≤ b ∧ inserted events = List.range' a (b - a) := by
  induction events generalizing a with
  | nil =>
      cases h
      exact ⟨Nat.le_refl _, by simp [inserted]⟩
  | cons event events ih =>
      cases event with
      | insert pos =>
          obtain ⟨rfl, h⟩ := h
          obtain ⟨hle, heq⟩ := ih h
          refine ⟨by omega, ?_⟩
          rw [show b - pos = b - (pos + 1) + 1 by omega, List.range'_succ, ← heq]
          rfl
      | search s => exact ih h.2.2

theorem Advances.of_append {s : Search} {before after : List Event}
    (h : Advances p data (before ++ .search s :: after) a b) :
    Advances p data before a s.pos ∧ Searches p data (finderAt p data s.pos) s ∧ s.pos ≤ b := by
  induction before generalizing a with
  | nil => exact ⟨h.1.symm, h.2.1, h.1.symm ▸ h.2.2.inserted_eq.1⟩
  | cons event before ih =>
      cases event with
      | insert pos => exact ⟨⟨h.1, (ih h.2).1⟩, (ih h.2).2⟩
      | search s' => exact ⟨⟨h.1, h.2.1, (ih h.2.2).1⟩, (ih h.2.2).2⟩

/-- Wherever a run is, it searches again before the longest match is passed, if the data are long
enough. -/
def Dense (p : Lzss) (data : Array UInt8) (events : List Event) (pos : Nat) : Prop :=
  ∀ place, pos < place → place + p.maxMatch ≤ data.size →
    ∃ s, .search s ∈ events ∧ place ≤ s.pos ∧ s.pos < place + p.maxMatch

/-- A position is searched for, unless it is the end of the data. -/
def Looks (data : Array UInt8) (events : List Event) (pos : Nat) : Prop :=
  pos < data.size → ∃ s, .search s ∈ events ∧ s.pos = pos

/-- A run goes on by a token, and searches for the position behind it. -/
theorem Dense.before {after : List Event} {pos' : Nat} (h : Dense p data after pos')
    (hsize : pos' ≤ pos + p.maxMatch) (hlooks : Looks data events pos') :
    Dense p data (events ++ after) pos := by
  intro place hplace hinside
  obtain hlt | hle := Nat.lt_or_ge pos' place
  · obtain ⟨s, hs, hpos⟩ := h place hlt hinside
    exact ⟨s, List.mem_append_right _ hs, hpos⟩
  · obtain ⟨s, hs, rfl⟩ := hlooks (by omega)
    exact ⟨s, List.mem_append_left _ hs, hle, by omega⟩

theorem Dense.behind (h : Dense p data events pos) (front : List Event) :
    Dense p data (front ++ events) pos := by
  intro place hplace hinside
  obtain ⟨s, hs, hpos⟩ := h place hplace hinside
  exact ⟨s, List.mem_append_right _ hs, hpos⟩

/-! ## Steps under guard -/

theorem store_bind {α β : Type} {xs : Array α} {place : Nat} (h : place < xs.size) (x : α)
    (k : Array α → Guarded β) : (store xs place x >>= k) = k (xs.setIfInBounds place x) := by
  rw [store, require_bind h]
  rfl

theorem guardedInsert_eq (p : Lzss) (data : Array UInt8) (pos : Nat) :
    guardedInsert (finderAt p data pos) data pos = pure (finderAt p data (pos + 1)) := by
  have hf := chained_finderAt p data pos
  rw [← insert_finderAt]
  generalize finderAt p data pos = f at *
  unfold guardedInsert MatchFinder.insert
  rw [hf.hash?_eq]
  cases hh : hashAt p data pos with
  | none => rfl
  | some h =>
      obtain ⟨hheads, hread⟩ := Array.getElem?_eq_some_iff.1 (hf.head h (hashAt_lt hh))
      have hslot : f.slot pos < f.links.size := Nat.mod_lt pos hf.size_pos
      dsimp only
      rw [fetch_bind hheads, hread, difference_bind hf.size_pos, hf.and_mask, store_bind hslot,
        store_bind hheads, hf.getD_head (hashAt_lt hh)]
      rfl

/-- The match that the parse has at a position when it gets there. -/
def matchHere (p : Lzss) (data : Array UInt8) (pos : Nat) : Match :=
  p.matchAt data (finderAt p data pos) pos

/-- From a position on, the run under guard makes these tokens, as the parse does, and goes through
these events. -/
structure Continues (p : Lzss) (data : Array UInt8) (pos : Nat) (current : Match)
    (tokens : List Token) (events : List Event) : Prop where
  run : guardedParseFrom p data (finderAt p data pos) pos current = pure (tokens, events)
  advances : Advances p data events pos data.size
  dense : Dense p data events pos
  parse : ∀ before,
    p.parseFrom data (finderAt p data pos) pos current before = before.reverse ++ tokens

namespace Continues

variable {current : Match} {tokens : List Token} {ahead inserts looked : List Event}

theorem done (hpos : pos = data.size) : Continues p data pos current [] [] := by
  have hlt : ¬pos < data.size := by omega
  refine ⟨?_, hpos, fun place hplace hinside => absurd hplace (by omega), fun before => ?_⟩
  · rw [guardedParseFrom, if_neg hlt]
  · rw [parseFrom, if_neg hlt, List.append_nil]

theorem literal (hpos : pos < data.size)
    (hmatch : ¬(0 < current.length ∧ p.minMatch ≤ current.length))
    (hlook : guardedMatchAt p data (finderAt p data (pos + 1)) (pos + 1) =
      pure (matchHere p data (pos + 1), looked))
    (hlooked : Advances p data looked (pos + 1) (pos + 1)) (hlooks : Looks data looked (pos + 1))
    (hmax : 0 < p.maxMatch)
    (h : Continues p data (pos + 1) (matchHere p data (pos + 1)) tokens events) :
    Continues p data pos current (.literal data[pos] :: tokens)
      (.insert pos :: (looked ++ events)) := by
  refine ⟨?_, ⟨rfl, hlooked.append h.advances⟩,
    (h.dense.before (by omega) hlooks).behind [.insert pos], fun before => ?_⟩
  · rw [guardedParseFrom, if_pos hpos, guardedInsert_eq, pure_bind, if_neg hmatch,
      fetch_bind hpos, hlook, pure_bind]
    dsimp only
    rw [h.run]
    rfl
  · have hbyte : data.getD pos 0 = data[pos] := by simp [hpos]
    have hstep : p.parseFrom data (finderAt p data pos) pos current before =
        p.parseFrom data (finderAt p data (pos + 1)) (pos + 1) (matchHere p data (pos + 1))
          (.literal (data.getD pos 0) :: before) := by
      rw [parseFrom, if_pos hpos]
      dsimp only
      rw [if_neg hmatch, insert_finderAt]
      rfl
    rw [hstep, h.parse, hbyte]
    simp

end Continues

end EmbeddedBuffers.Codec.Lzss
