import EmbeddedBuffers.Codec.Container
import EmbeddedBuffers.Declaration.Basic
import EmbeddedBuffers.Header.Value
import EmbeddedBuffers.Text.Lines

/-!
# Generated headers

A header records the fingerprint of its inputs and holds, for every buffer, the number of
its elements and the array of its values. Buffers stand in their namespaces, which follow
in the order in which they first appear. The text depends on nothing but the entries,
their order and the width of the lines.
-/

namespace EmbeddedBuffers.Header

/-- The bytes of a buffer. -/
inductive Payload
  | raw (bytes : List UInt8)
  | encoded (e : Codec.Encoded)
deriving DecidableEq, Repr, Inhabited

/-- The bytes that are emitted. -/
def Payload.bytes : Payload → List UInt8
  | .raw bytes => bytes
  | .encoded e => e.bytes

/-- A buffer to emit. -/
structure Entry where
  declaration : Declaration
  payload : Payload
deriving Repr, Inhabited

/-- What stands before the fingerprint on its line. -/
def fingerprintMark : String := "// bufproc-fingerprint: "

/-- Values on a line, unless a setting says otherwise. -/
def defaultMaxValues : Nat := 16

/-- Blanks before what stands inside a block. -/
def indent : String := "    "

/-- Cuts a list into pieces of `size` elements, the last one being shorter; `piece` is the
open one in reverse and `room` the number of elements it lacks. -/
def piecesFrom {α : Type} (size : Nat) : (piece : List α) → (room : Nat) → List α → List (List α)
  | [], _, [] => []
  | piece, _, [] => [piece.reverse]
  | piece, room, x :: xs =>
    if room ≤ 1 then (x :: piece).reverse :: piecesFrom size [] size xs
    else piecesFrom size (x :: piece) (room - 1) xs

/-- Cuts a list into pieces of `size` elements, the last one being shorter. -/
def pieces {α : Type} (size : Nat) (xs : List α) : List (List α) := piecesFrom size [] size xs

/-- Puts a comma after every line but the last. -/
def commaLines : List String → List String
  | [] => []
  | [line] => [line]
  | line :: next :: rest => (line ++ ",") :: commaLines (next :: rest)

/-- The lines that declare an array: one when its values fit, else a block. -/
def arrayLines (maxValues : Nat) (head : String) (texts : List String) : List String :=
  if texts.length ≤ maxValues then
    let row := String.intercalate ", " texts
    [head ++ " \x7b" ++ row ++ "\x7d;"]
  else
    let rows := (pieces maxValues texts).map fun row => indent ++ String.intercalate ", " row
    [head, "\x7b"] ++ commaLines rows ++ ["\x7d;"]

/-- The comment on an encoded buffer. -/
def schemeLine (e : Codec.Encoded) : String :=
  s!"// {e.scheme.render}: {e.rawLength} -> {e.bytes.length} bytes"

/-- The lines of one buffer, not indented. -/
def Entry.lines (maxValues : Nat) (e : Entry) : List String :=
  let d := e.declaration
  let texts := (values d.element e.payload.bytes).map (·.text)
  let comment := match e.payload with
    | .raw _ => []
    | .encoded e => [schemeLine e]
  comment ++ [s!"constexpr std::size_t {d.sizeSymbol} = {texts.length};"] ++
    arrayLines maxValues s!"constexpr {d.typeName} {d.symbol}[{d.sizeSymbol}] =" texts

/-- Whether a value of a buffer names `std::numeric_limits`. -/
def Entry.needsLimits (e : Entry) : Bool :=
  (values e.declaration.element e.payload.bytes).any (·.needsLimits)

/-- Refuses a buffer without bytes, which has no array. -/
def Entry.check (e : Entry) : Except Problem Unit :=
  let d := e.declaration
  if e.payload.bytes.isEmpty then
    .error ((Problem.badProduction d.qualifiedName
      "produced no data, and zero-length arrays cannot be declared").located d.path d.line)
  else .ok ()

/-- Adds an entry to the group of its namespace, or a group at the end. -/
def addToGroup (e : Entry) :
    List (List String × List Entry) → List (List String × List Entry)
  | [] => [(e.declaration.scope, [e])]
  | (scope, es) :: groups =>
    if scope = e.declaration.scope then (scope, es ++ [e]) :: groups
    else (scope, es) :: addToGroup e groups

/-- The entries by namespace, in the order of first appearance. -/
def groups (entries : List Entry) : List (List String × List Entry) :=
  entries.foldl (fun gs e => addToGroup e gs) []

/-- The lines of one namespace. -/
def groupLines (maxValues : Nat) (group : List String × List Entry) : List String :=
  let margin := if group.1.isEmpty then "" else indent
  [""] ++ group.1.flatMap (fun name => ["namespace " ++ name, "\x7b"]) ++
    (group.2.flatMap (Entry.lines maxValues)).map (margin ++ ·) ++
    group.1.map (fun _ => "\x7d")

/-- The lines before the first namespace. -/
def headLines (sourceName : String) (fingerprint : Nat) (needsLimits : Bool) : List String :=
  [s!"// auto-generated by bufproc from {sourceName}, do not edit",
    fingerprintMark ++ Text.hexFixed 16 fingerprint,
    "#pragma once", "", "#include <cstddef>", "#include <cstdint>"] ++
    (if needsLimits then ["#include <limits>"] else [])

/-- The header for some buffers of one source. Lines hold at least one value. -/
def render (maxValues : Nat) (sourceName : String) (fingerprint : Nat)
    (entries : List Entry) : Except Problem String := do
  entries.forM Entry.check
  let lines := headLines sourceName fingerprint (entries.any Entry.needsLimits) ++
    (groups entries).flatMap (groupLines (max 1 maxValues))
  return String.join (lines.map (· ++ "\n"))

/-- The fingerprint that a header records in one of its first four lines. -/
def recordedFingerprint? (header : List Char) : Option Nat :=
  match ((Text.lines header).take 4).findSome? (Text.strip? fingerprintMark.toList) with
  | none => none
  | some hex => Text.unsigned? 16 (2 ^ 64) (Text.trim hex)

end EmbeddedBuffers.Header
