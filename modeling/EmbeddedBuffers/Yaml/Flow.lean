import EmbeddedBuffers.Text.Radix
import EmbeddedBuffers.Yaml.Value

/-!
# YAML in brackets

Quoted scalars, lists in brackets and maps in braces, as JSON writes them and with plain
scalars as well. Every reader gives the value and the text after it.
-/

namespace EmbeddedBuffers.Yaml

def isFlowMark (c : Char) : Bool :=
  c == ',' || c == '[' || c == ']' || c == '\x7b' || c == '\x7d'

/-- Blanks between tokens, line ends among them. -/
def isGap (c : Char) : Bool := c == ' ' || c == '\t' || c == '\n' || c == '\r'

/-- Drops blanks, and comments that follow a blank. -/
def skipGaps : (inComment afterGap : Bool) → List Char → List Char
  | _, _, [] => []
  | true, _, c :: rest => skipGaps (c != '\n') true rest
  | false, afterGap, c :: rest =>
    if isGap c then skipGaps false true rest
    else if c = '#' ∧ afterGap then skipGaps true true rest
    else c :: rest

/-- Drops blanks and comments at the front of a token. -/
def skip (s : List Char) : List Char := skipGaps false true s

/-- Whether only blanks and a comment follow. -/
def isEnd (s : List Char) : Bool := (skipGaps false false s).isEmpty

/-- The character with a number, unless there is none. -/
def charOf? (n : Nat) : Option Char := if n.isValidChar then some (Char.ofNat n) else none

/-- The character that an escape of a fixed number of hexadecimal digits stands for. -/
def hexEscape (width : Nat) (s : List Char) : Option (Char × List Char) :=
  if s.length < width then none
  else
    match (Text.digits? 16 (s.take width)).bind charOf? with
    | some c => some (c, s.drop width)
    | none => none

/-- The character that an escape stands for, `s` being what follows the backslash. -/
def escape? : List Char → Option (Char × List Char)
  | '0' :: s => some ('\x00', s)
  | 'a' :: s => some ('\x07', s)
  | 'b' :: s => some ('\x08', s)
  | 't' :: s | '\t' :: s => some ('\t', s)
  | 'n' :: s => some ('\n', s)
  | 'v' :: s => some ('\x0b', s)
  | 'f' :: s => some ('\x0c', s)
  | 'r' :: s => some ('\r', s)
  | 'e' :: s => some ('\x1b', s)
  | ' ' :: s => some (' ', s)
  | '"' :: s => some ('"', s)
  | '/' :: s => some ('/', s)
  | '\\' :: s => some ('\\', s)
  | 'N' :: s => some ('\u0085', s)
  | '_' :: s => some ('\u00a0', s)
  | 'L' :: s => some ('\u2028', s)
  | 'P' :: s => some ('\u2029', s)
  | 'x' :: s => hexEscape 2 s
  | 'u' :: s => hexEscape 4 s
  | 'U' :: s => hexEscape 8 s
  | _ => none

/-- Reads up to the closing double quote, `done` being the text so far in reverse. -/
def doubleQuoted : (fuel : Nat) → (done : List Char) → List Char → Option (String × List Char)
  | 0, _, _ => none
  | _ + 1, _, [] => none
  | _ + 1, done, '"' :: s => some (String.ofList done.reverse, s)
  | fuel + 1, done, '\\' :: s =>
    match escape? s with
    | some (c, s) => doubleQuoted fuel (c :: done) s
    | none => none
  | fuel + 1, done, c :: s => doubleQuoted fuel ((if c = '\n' then ' ' else c) :: done) s

/-- Reads up to the closing single quote; two of them stand for one. -/
def singleQuoted : (done : List Char) → List Char → Option (String × List Char)
  | _, [] => none
  | done, '\'' :: '\'' :: s => singleQuoted ('\'' :: done) s
  | done, '\'' :: s => some (String.ofList done.reverse, s)
  | done, c :: s => singleQuoted ((if c = '\n' then ' ' else c) :: done) s

/-- Reads a quoted scalar. -/
def quotedScalar? : List Char → Option (String × List Char)
  | '"' :: s => doubleQuoted (s.length + 1) [] s
  | '\'' :: s => singleQuoted [] s
  | _ => none

/-- Whether a plain scalar may start like this. -/
def startsPlain : List Char → Bool
  | [] => false
  | [c] => !isGap c && !isFlowMark c && !"#&*!|>'\"%@\x60-?:".toList.contains c
  | c :: d :: _ =>
    if c == '-' || c == '?' || c == ':' then !isGap d && !isFlowMark d
    else !isGap c && !isFlowMark c && !"#&*!|>'\"%@\x60".toList.contains c

/-- Whether a colon ends what stands before it, `after` being what follows it. -/
def isValueMark (inFlow : Bool) (after : List Char) : Bool :=
  match after with
  | [] => true
  | c :: _ => isGap c || (inFlow && isFlowMark c)

/-- The characters of a plain scalar inside brackets and what follows them, `done` being the
characters so far in reverse. -/
def plainFlow : (done : List Char) → List Char → List Char × List Char
  | done, [] => (done.reverse, [])
  | done, c :: s =>
    if isFlowMark c ∨ (c = ':' ∧ isValueMark true s) ∨
        (c = '#' ∧ (done.head?.map isGap).getD true) then (done.reverse, c :: s)
    else plainFlow ((if c = '\n' then ' ' else c) :: done) s

mutual

/-- Reads a value. -/
def flowValue : (fuel : Nat) → List Char → Option (Yaml × List Char)
  | 0, _ => none
  | fuel + 1, s =>
    match skip s with
    | '[' :: s => (flowItems fuel s).map fun (items, s) => (.list items, s)
    | '\x7b' :: s => (flowEntries fuel s).map fun (entries, s) => (.map entries, s)
    | s =>
      match quotedScalar? s with
      | some (text, s) => some (.quoted text, s)
      | none =>
        if startsPlain s then
          let (text, s) := plainFlow [] s
          some (.plain (String.ofList (Text.trim text)), s)
        else none

/-- Reads the items of a list up to its bracket. -/
def flowItems : (fuel : Nat) → List Char → Option (List Yaml × List Char)
  | 0, _ => none
  | fuel + 1, s =>
    match skip s with
    | ']' :: s => some ([], s)
    | s =>
      match flowValue fuel s with
      | none => none
      | some (v, s) =>
        match skip s with
        | ',' :: s => (flowItems fuel s).map fun (vs, s) => (v :: vs, s)
        | ']' :: s => some ([v], s)
        | _ => none

/-- Reads the entries of a map up to its brace. A key without a value has an empty one. -/
def flowEntries : (fuel : Nat) → List Char → Option (List (String × Yaml) × List Char)
  | 0, _ => none
  | fuel + 1, s =>
    match skip s with
    | '\x7d' :: s => some ([], s)
    | s =>
      match flowValue fuel s with
      | some (.plain key, s) | some (.quoted key, s) =>
        let value : Option (Yaml × List Char) :=
          match skip s with
          | ':' :: s =>
            match skip s with
            | ',' :: s => some (.plain "", ',' :: s)
            | '\x7d' :: s => some (.plain "", '\x7d' :: s)
            | s => flowValue fuel s
          | s => some (.plain "", s)
        match value with
        | none => none
        | some (v, s) =>
          match skip s with
          | ',' :: s => (flowEntries fuel s).map fun (es, s) => ((key, v) :: es, s)
          | '\x7d' :: s => some ([(key, v)], s)
          | _ => none
      | _ => none

end

/-- Reads a value in brackets or quotes. -/
def flow (s : List Char) : Option (Yaml × List Char) := flowValue (s.length + 2) s

end EmbeddedBuffers.Yaml
