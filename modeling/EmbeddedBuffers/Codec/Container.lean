import EmbeddedBuffers.Codec.Scheme

/-!
# Containers

A container is one byte that holds the version of the format and the number of the scheme,
four bits each, and the stream of the scheme, filled up with zeros to a whole byte. A
stored stream is the length of the data in 32 bits and the data. Every container is
decoded again and compared with its data before it is handed out.
-/

namespace EmbeddedBuffers.Codec

/-- Version of the container format. -/
def formatVersion : Nat := 1

/-- The stream of some data under a scheme, without the byte in front. -/
def Scheme.encodeInto (s : Scheme) (w : BitWriter) (data : List UInt8) : BitWriter :=
  match s with
  | .stored => (w.write data.length 32).writeBytes data
  | .lzss p => p.encodeInto w data
  | .rle p => p.encodeInto w data

/-- Number of bits of the stream, found without writing it. -/
def Scheme.estimateBits (s : Scheme) (data : List UInt8) : Nat :=
  match s with
  | .stored => 32 + data.length * 8
  | .lzss p => p.estimateBits data
  | .rle p => p.estimateBits data

/-- Number of bytes of the container, found without building it. -/
def Scheme.estimateSize (s : Scheme) (data : List UInt8) : Nat :=
  1 + (s.estimateBits data + 7) / 8

/-- The container of some data under a scheme. -/
def container (s : Scheme) (data : List UInt8) : Except Fault (List UInt8) :=
  if 2 ^ 32 ≤ data.length then .error (.tooLong data.length)
  else
    .ok (s.encodeInto (BitWriter.empty.write (formatVersion * 16 + s.id) 8) data).finish

/-- Decodes a container: its scheme and its data. What follows the stream is not looked
at. -/
def decodeContainer (bytes : List UInt8) : Except Fault (Scheme × List UInt8) :=
  match (BitReader.ofBytes bytes).read 8 with
  | .error _ => .error .emptyContainer
  | .ok (tag, r) =>
    if tag / 16 ≠ formatVersion then .error (.unknownVersion (tag / 16))
    else
      match tag % 16 with
      | 0 => do
        let (size, r) ← r.read 32
        let data ← (r.readBytes size).1
        return (.stored, data)
      | 1 => do
        let (p, data, _) ← Lzss.decodeFrom r
        return (.lzss p, data)
      | 2 => do
        let (p, data, _) ← Rle.decodeFrom r
        return (.rle p, data)
      | id => .error (.unknownScheme id)

/-- An encoded buffer. -/
structure Encoded where
  scheme : Scheme
  /-- The container. -/
  bytes : List UInt8
  /-- Length of the data. -/
  rawLength : Nat
  /-- Width of an element in bytes. -/
  stride : Nat
deriving DecidableEq, Repr, Inhabited

namespace Encoded

/-- Length of the container relative to that of the data; one for no data. -/
def ratio (e : Encoded) : Float :=
  if e.rawLength = 0 then 1.0 else Float.ofNat e.bytes.length / Float.ofNat e.rawLength

/-- The data of an encoded buffer, whose container has to agree with its scheme. -/
def decode (e : Encoded) : Except Fault (List UInt8) := do
  let (scheme, data) ← decodeContainer e.bytes
  if scheme ≠ e.scheme then throw (.otherParameters scheme.render e.scheme.render)
  return data

end Encoded

/-- The first place at which two lists differ, or the length of the shorter one. -/
def firstDifference : List UInt8 → List UInt8 → Nat
  | a :: as, b :: bs => if a = b then firstDifference as bs + 1 else 0
  | _, _ => 0

/-- What is wrong with a container that should hold some data under a scheme. -/
def defect? (s : Scheme) (data bytes : List UInt8) : Option String :=
  match decodeContainer bytes with
  | .error f => some ("container does not decode: " ++ f.problem.message)
  | .ok (held, decoded) =>
    if decoded = data ∧ held = s then none
    else
      let place := firstDifference decoded data
      some (s!"decoded {decoded.length} bytes with {held.render} (expected " ++
        s!"{data.length} bytes), first difference at byte {place}")

/-- A container that does not read back, as the developer of an encoder wants to see it. -/
structure Defect where
  name : String
  scheme : Scheme
  rawLength : Nat
  containerLength : Nat
  message : String
deriving DecidableEq, Repr, Inhabited

namespace Defect

/-- The line of the log. -/
def render (d : Defect) : String :=
  s!"verification failed for '{d.name}': scheme={d.scheme.render} raw_len={d.rawLength} " ++
    s!"container_len={d.containerLength} {d.message}"

/-- The problem shown to the user. -/
def problem (d : Defect) : Problem :=
  .verification d.name d.message (some ("parameters: " ++ d.scheme.render))

end Defect

/-- Why a buffer was not encoded. -/
inductive Failure
  | refused (p : Problem)
  | defective (d : Defect)
  | crash (c : Crash)
deriving DecidableEq, Repr

/-- The end of a run for which a buffer was not encoded. -/
def Failure.stop : Failure → Stop
  | .refused p => .problem p
  | .defective d => .problem d.problem
  | .crash c => .crash c

/-- Encodes a buffer under a scheme and checks that it reads back. -/
def encodeWith (name : String) (data : List UInt8) (stride : Nat) (s : Scheme) :
    Except Failure Encoded :=
  if !s.fitsWord then .error (.crash .overflow)
  else
    match container s data with
    | .error f => .error (.refused f.problem)
    | .ok bytes =>
      match defect? s data bytes with
      | some message => .error (.defective ⟨name, s, data.length, bytes.length, message⟩)
      | none => .ok ⟨s, bytes, data.length, stride⟩

/-- Picks the scheme of the shortest container, the cheapest to decode among equals. -/
def shortest (data : List UInt8) (first : Scheme) (others : List Scheme) : Scheme :=
  (others.foldl
    (fun (best : Nat × Scheme) s =>
      let size := s.estimateSize data
      if size < best.1 ∨ (size = best.1 ∧ s.rank < best.2.rank) then (size, s) else best)
    (first.estimateSize data, first)).2

/-- The best LZSS scheme, stored bytes, and RLE where the elements have a width that it
knows. -/
def choose (data : List UInt8) (stride : Nat) (limits : SearchLimits) (threads : Nat) :
    Scheme :=
  let found := search data limits threads
  let rle := (Rle.ofWidth stride).toOption.map Scheme.rle
  shortest data (.lzss found.params) (.stored :: rle.toList)

/-- The scheme that a request comes down to for some data. -/
def Request.scheme (r : Request) (name : String) (data : List UInt8) (stride threads : Nat) :
    Except Fault Scheme :=
  match r with
  | .none => .error (.notCompressed name)
  | .lzss w l => (Lzss.ofBits w l).map .lzss
  | .rle width => (Rle.ofWidth (width.getD stride)).map .rle
  | .auto limits => .ok (choose data stride limits threads)

/-- Encodes a buffer as requested. -/
def encode (name : String) (data : List UInt8) (stride threads : Nat) (r : Request) :
    Except Failure Encoded :=
  match r.scheme name data stride threads with
  | .error f => .error (.refused f.problem)
  | .ok s => encodeWith name data stride s

end EmbeddedBuffers.Codec
