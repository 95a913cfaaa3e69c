import EmbeddedBuffers.Codec.Bits
import EmbeddedBuffers.Codec.MatchFinder

/-!
# LZSS

Data as a sequence of literal bytes and references to earlier data. The stream has a head
of 45 bits (window bits: 5, length bits: 5, shortest match less one: 3, length of the
data: 32) and a token after the other: a zero and a literal byte, or a one, the distance
less one, and the length less the shortest match. The parse is greedy with one step of
lookahead: a match gives way to a longer one that starts a byte later.
-/

namespace EmbeddedBuffers.Codec

/-- The widths of the fields of a reference, and the shortest match. -/
structure Lzss where
  windowBits : Nat
  lengthBits : Nat
  minMatch : Nat
deriving DecidableEq, Repr, Inhabited

namespace Lzss

/-- Bits of a literal with its mark. -/
def literalBits : Nat := 9

/-- Bits of the head of a stream. -/
def headerBits : Nat := 5 + 5 + 3 + 32

/-- Bits of a reference with its mark. -/
def referenceBits (p : Lzss) : Nat := 1 + p.windowBits + p.lengthBits

/-- The parameters for given field widths. The shortest match is the least length at which
a reference is shorter than the literals in its place. -/
def ofBits (windowBits lengthBits : Nat) : Except Fault Lzss :=
  if ¬ (1 ≤ windowBits ∧ windowBits ≤ 24) then .error (.windowBits windowBits)
  else if ¬ (1 ≤ lengthBits ∧ lengthBits ≤ 16) then .error (.lengthBits lengthBits)
  else
    .ok ⟨windowBits, lengthBits,
      min 8 (max 1 ((1 + windowBits + lengthBits) / literalBits + 1))⟩

/-- The greatest distance. -/
def window (p : Lzss) : Nat := 2 ^ p.windowBits

/-- The greatest length. -/
def maxMatch (p : Lzss) : Nat := p.minMatch + 2 ^ p.lengthBits - 1

def render (p : Lzss) : String :=
  s!"lzss window={p.window} ({p.windowBits} bits) length={p.minMatch}..={p.maxMatch} " ++
    s!"({p.lengthBits} bits)"

/-- Whether machine words of 64 bits hold all that is computed from the parameters. -/
def fitsWord (p : Lzss) : Bool := p.windowBits < 64 && p.lengthBits < 64 && 0 < p.minMatch

/-! ## Tokens -/

/-- One step of a stream. -/
inductive Token
  | literal (b : UInt8)
  | reference (distance length : Nat)
deriving DecidableEq, Repr, Inhabited

namespace Token

/-- Number of bytes that a token stands for. -/
def size : Token → Nat
  | .literal _ => 1
  | .reference _ length => length

/-- The bits of a token. -/
def bits (p : Lzss) : Token → List Bool
  | .literal b => field 9 b.toNat
  | .reference distance length =>
    true :: field p.windowBits (distance - 1) ++ field p.lengthBits (length - p.minMatch)

/-- Number of bits of a token. -/
def cost (p : Lzss) : Token → Nat
  | .literal _ => literalBits
  | .reference _ _ => p.referenceBits

theorem length_bits (p : Lzss) (t : Token) : (t.bits p).length = t.cost p := by
  cases t with
  | literal b => simp [bits, cost, literalBits]
  | reference distance length =>
    simp only [bits, cost, referenceBits, List.cons_append, List.length_cons,
      List.length_append, length_field]
    omega

end Token

/-- The longest match at a position, or none at the end of the data. -/
def matchAt (p : Lzss) (data : Array UInt8) (finder : MatchFinder) (pos : Nat) : Match :=
  if pos < data.size then finder.longest data pos p.window p.maxMatch else {}

/-- Continues a parse at `pos`, where `current` is the longest match. `tokens` are those so
far, the last first. -/
def parseFrom (p : Lzss) (data : Array UInt8) (finder : MatchFinder) (pos : Nat)
    (current : Match) (tokens : List Token) : List Token :=
  if pos < data.size then
    let finder := finder.insert data pos
    if 0 < current.length ∧ p.minMatch ≤ current.length then
      let next := if current.length < p.maxMatch then p.matchAt data finder (pos + 1) else {}
      if current.length < next.length then
        parseFrom p data finder (pos + 1) next (.literal (data.getD pos 0) :: tokens)
      else
        let finder := finder.insertMany data (pos + 1) (current.length - 1)
        let after := pos + current.length
        let found := p.matchAt data finder after
        parseFrom p data finder after found
          (.reference current.distance current.length :: tokens)
    else
      let found := p.matchAt data finder (pos + 1)
      parseFrom p data finder (pos + 1) found (.literal (data.getD pos 0) :: tokens)
  else tokens.reverse
termination_by data.size - pos

/-- The tokens of some data. -/
def parse (p : Lzss) (data : Array UInt8) : List Token :=
  let finder := MatchFinder.empty data.size p.window p.minMatch
  parseFrom p data finder 0 (p.matchAt data finder 0) []

/-! ## Streams -/

/-- The head of a stream. -/
def header (p : Lzss) (size : Nat) : List Bool :=
  field 5 p.windowBits ++ field 5 p.lengthBits ++ field 3 (p.minMatch - 1) ++ field 32 size

/-- Appends the stream of some data. -/
def encodeInto (p : Lzss) (w : BitWriter) (data : List UInt8) : BitWriter :=
  (parse p data.toArray).foldl (fun w t => w.append (t.bits p))
    (w.append (p.header data.length))

/-- Number of bits of the stream of some data, found without writing it. -/
def estimateBits (p : Lzss) (data : List UInt8) : Nat :=
  (parse p data.toArray).foldl (fun n t => n + t.cost p) headerBits

/-- Repeats `length` bytes from `start` on at the end of the data, which may overlap with
what is appended. -/
def copyBack (out : Array UInt8) (start : Nat) : (length : Nat) → Array UInt8
  | 0 => out
  | length + 1 => copyBack (out.push (out.getD start 0)) (start + 1) length

/-- Reads one token and what it does to the data decoded so far. -/
def readToken (p : Lzss) (declared : Nat) (out : Array UInt8) (r : BitReader) :
    Except Fault (Array UInt8 × BitReader) :=
  match r.read 1 with
  | .error f => .error f
  | .ok (0, r) => do
    let (b, r) ← r.read 8
    return (out.push (UInt8.ofNat b), r)
  | .ok (_, r) => do
    let (distance, r) ← r.read p.windowBits
    let (length, r) ← r.read p.lengthBits
    let distance := distance + 1
    let length := length + p.minMatch
    if out.size < distance then throw (.tooFarBack distance out.size)
    if declared < out.size + length then throw (.referenceOverrun declared)
    return (copyBack out (out.size - distance) length, r)

/-- A token takes at least one bit. -/
theorem remaining_readToken {p : Lzss} {declared : Nat} {out out' : Array UInt8}
    {r r' : BitReader} (h : readToken p declared out r = .ok (out', r')) :
    r'.remaining < r.remaining := by
  unfold readToken at h
  split at h
  · simp at h
  · next r₁ h₁ =>
    have e₁ := BitReader.remaining_read h₁
    obtain ⟨n, r₂, h₂, h⟩ := BitReader.read_ok_bind h
    have e₂ := BitReader.remaining_read h₂
    simp only [pure, Except.pure, Except.ok.injEq, Prod.mk.injEq] at h
    rw [← h.2]
    omega
  · next n r₁ _ h₁ =>
    have e₁ := BitReader.remaining_read h₁
    obtain ⟨d, r₂, h₂, h⟩ := BitReader.read_ok_bind h
    have e₂ := BitReader.remaining_read h₂
    obtain ⟨l, r₃, h₃, h⟩ := BitReader.read_ok_bind h
    have e₃ := BitReader.remaining_read h₃
    simp only [pure, Except.pure, bind, Except.bind] at h
    split at h
    · simp [throw, throwThe, MonadExceptOf.throw] at h
    · split at h
      · simp [throw, throwThe, MonadExceptOf.throw] at h
      · simp only [Except.ok.injEq, Prod.mk.injEq] at h
        rw [← h.2]
        omega

/-- Reads tokens until the declared length is reached. -/
def readTokens (p : Lzss) (declared : Nat) (out : Array UInt8) (r : BitReader) :
    Except Fault (Array UInt8 × BitReader) :=
  if out.size < declared then
    match _h : readToken p declared out r with
    | .error f => .error f
    | .ok (out', r') => readTokens p declared out' r'
  else .ok (out, r)
termination_by r.remaining
decreasing_by exact remaining_readToken _h

/-- Reads a stream: its parameters, its data, and the reader behind it. -/
def decodeFrom (r : BitReader) : Except Fault (Lzss × List UInt8 × BitReader) := do
  let (windowBits, r) ← r.read 5
  let (lengthBits, r) ← r.read 5
  let (shortest, r) ← r.read 3
  let (declared, r) ← r.read 32
  let p ← ofBits windowBits lengthBits
  let p := { p with minMatch := shortest + 1 }
  let (out, r) ← readTokens p declared #[] r
  return (p, out.toList, r)

end Lzss

end EmbeddedBuffers.Codec
