import EmbeddedBuffers.Codec.Bits
import EmbeddedBuffers.Elements

/-!
# Run lengths

Data as elements of a fixed width, long runs of which are counted. The stream has a head
(width in bytes less one: 4, length of the data: 32, sentinel: one element) and a token
after the other: an element other than the sentinel, or the sentinel, an element and the
length of its run less one. The sentinel is the least value that does not occur; for
single bytes, where every value may occur, it is the rarest one. Where the sentinel
occurs, it is written as a run, even of one.
-/

namespace EmbeddedBuffers.Codec

/-- The element width in bytes. -/
structure Rle where
  width : Nat
deriving DecidableEq, Repr, Inhabited

namespace Rle

/-- Shorter runs are cheaper element by element. -/
def minRun : Nat := 4

/-- Bits of the head of a stream before the sentinel. -/
def headerBits : Nat := 4 + 32

/-- The parameters for an element width. -/
def ofWidth (width : Nat) : Except Fault Rle :=
  if width = 1 ∨ width = 2 ∨ width = 4 ∨ width = 8 then .ok ⟨width⟩
  else .error (.elementWidth width)

/-- Bits of an element. -/
def bits (p : Rle) : Nat := p.width * 8

/-- The longest run that one token counts. -/
def maxCount (p : Rle) : Nat := if 4 ≤ p.width then 2 ^ 32 - 1 else 2 ^ p.bits

def render (p : Rle) : String := s!"rle width={p.bits} bits"

/-- Whether machine words of 64 bits hold all that is computed from the width. -/
def fitsWord (p : Rle) : Bool := 0 < p.width && p.width ≤ 8

/-! ## The sentinel -/

/-- The least number that does not occur in a list. -/
def leastAbsent (values : List Nat) : Nat :=
  let occurs := values.foldl (fun t v => t.setIfInBounds v true)
    (Array.replicate (values.length + 1) false)
  (occurs.findIdx? (!·)).getD 0

/-- How often each of the numbers below 256 occurs. -/
def byteCounts (values : List Nat) : Array Nat :=
  values.foldl (fun t v => t.setIfInBounds v (t.getD v 0 + 1)) (Array.replicate 256 0)

/-- The rarest number below 256, of equally rare ones the least. -/
def rarestByte (values : List Nat) : Nat :=
  let counts := byteCounts values
  (List.range 256).foldl (fun best v => if counts.getD v 0 < counts.getD best 0 then v else best)
    0

/-- The sentinel for some elements. -/
def sentinel (p : Rle) (values : List Nat) : Nat :=
  if p.width = 1 then rarestByte values else leastAbsent values

/-! ## Tokens -/

/-- One step of a stream. -/
inductive Token
  | element (value : Nat)
  | run (value count : Nat)
deriving DecidableEq, Repr, Inhabited

/-- Adds an element to a list of runs, the last run first. -/
def addToRuns (runs : List (Nat × Nat)) (value : Nat) : List (Nat × Nat) :=
  match runs with
  | [] => [(value, 1)]
  | (v, n) :: rest => if v = value then (v, n + 1) :: rest else (value, 1) :: runs

/-- The maximal runs of a list with their lengths. -/
def runs (values : List Nat) : List (Nat × Nat) := (values.foldl addToRuns []).reverse

/-- Run tokens for `left` copies of a value, each as long as a token can be. -/
def runTokens (maxCount value left : Nat) : List Token :=
  if _h : 0 < left ∧ 0 < maxCount then
    .run value (min left maxCount) :: runTokens maxCount value (left - maxCount)
  else []
termination_by left

/-- The tokens of one maximal run. -/
def tokensOfRun (p : Rle) (sentinel : Nat) (run : Nat × Nat) : List Token :=
  if minRun ≤ run.2 ∨ run.1 = sentinel then runTokens p.maxCount run.1 run.2
  else List.replicate run.2 (.element run.1)

/-- The tokens of some elements. -/
def tokens (p : Rle) (sentinel : Nat) (values : List Nat) : List Token :=
  (runs values).flatMap (tokensOfRun p sentinel)

namespace Token

/-- The bits of a token. -/
def bits (p : Rle) (sentinel : Nat) : Token → List Bool
  | .element value => field p.bits value
  | .run value count =>
    field p.bits sentinel ++ field p.bits value ++ field p.bits (count - 1)

/-- Number of bits of a token. -/
def cost (p : Rle) : Token → Nat
  | .element _ => p.bits
  | .run _ _ => 3 * p.bits

theorem length_bits (p : Rle) (sentinel : Nat) (t : Token) :
    (t.bits p sentinel).length = t.cost p := by
  cases t with
  | element value => simp [bits, cost]
  | run value count =>
    simp only [bits, cost, List.length_append, length_field]
    omega

end Token

/-! ## Streams -/

/-- The head of a stream. -/
def header (p : Rle) (size sentinel : Nat) : List Bool :=
  field 4 (p.width - 1) ++ field 32 size ++ field p.bits sentinel

/-- Appends the stream of some data. -/
def encodeInto (p : Rle) (w : BitWriter) (data : List UInt8) : BitWriter :=
  let values := Elements.ofBytes p.width data
  let s := p.sentinel values
  (p.tokens s values).foldl (fun w t => w.append (t.bits p s))
    (w.append (p.header data.length s))

/-- Number of bits of the stream of some data, found without writing it. -/
def estimateBits (p : Rle) (data : List UInt8) : Nat :=
  let values := Elements.ofBytes p.width data
  (p.tokens (p.sentinel values) values).foldl (fun n t => n + t.cost p) (headerBits + p.bits)

/-- Appends copies of a value. -/
def pushMany (out : Array Nat) (value : Nat) : (count : Nat) → Array Nat
  | 0 => out
  | count + 1 => pushMany (out.push value) value count

/-- Reads one token and what it does to the elements decoded so far, of which there are to
be `total`. -/
def readToken (p : Rle) (sentinel declared total : Nat) (out : Array Nat) (r : BitReader) :
    Except Fault (Array Nat × BitReader) := do
  let (value, r) ← r.read p.bits
  if value ≠ sentinel then return (out.push value, r)
  let (value, r) ← r.read p.bits
  let (short, r) ← r.read p.bits
  let count := min (short + 1) (2 ^ 64 - 1)
  if total - out.size < count then throw (.runOverrun count declared)
  return (pushMany out value count, r)

/-- Reads tokens until there are `total` elements. Every token takes a bit, so `left`, the
number of bits ahead, bounds their number. -/
def readTokens (p : Rle) (sentinel declared total : Nat) :
    (left : Nat) → Array Nat → BitReader → Except Fault (Array Nat × BitReader)
  | 0, out, r =>
    if out.size < total then .error (.missingBits p.bits r.position r.remaining)
    else .ok (out, r)
  | left + 1, out, r =>
    if out.size < total then
      match readToken p sentinel declared total out r with
      | .error f => .error f
      | .ok (out, r) => readTokens p sentinel declared total left out r
    else .ok (out, r)

/-- Reads a stream: its parameters, its data, and the reader behind it. -/
def decodeFrom (r : BitReader) : Except Fault (Rle × List UInt8 × BitReader) := do
  let (short, r) ← r.read 4
  let p ← ofWidth (short + 1)
  let (declared, r) ← r.read 32
  let (sentinel, r) ← r.read p.bits
  let total := (declared + p.width - 1) / p.width
  let (out, r) ← readTokens p sentinel declared total r.remaining #[] r
  return (p, (out.toList.flatMap (Elements.toBytes p.width)).take declared, r)

end Rle

end EmbeddedBuffers.Codec
