import EmbeddedBuffers.Text.Lines
import EmbeddedBuffers.Text.Split
import EmbeddedBuffers.Yaml.Flow

/-!
# YAML by indentation

Maps and lists whose structure is the indentation of their lines, with scalars and values in
brackets at their leaves. Anchors, tags and block scalars are not read.
-/

namespace EmbeddedBuffers.Yaml

/-- A line that is neither blank nor a comment. -/
structure Line where
  indent : Nat
  text : List Char
deriving Repr

/-- A line without the blanks at its ends. -/
def Line.of (raw : List Char) : Line :=
  ⟨(raw.takeWhile (· == ' ')).length, Text.dropEndWhile isGap (raw.dropWhile (· == ' '))⟩

/-- The lines that matter. A mark that starts the document is none of them. -/
def linesOf (text : List Char) : List Line :=
  let ls := ((Text.lines text).map Line.of).filter fun l =>
    !l.text.isEmpty && l.text.head? != some '#'
  match ls with
  | ⟨0, ['-', '-', '-']⟩ :: rest => rest
  | ls => ls

/-- Whether a line is an item of a list. -/
def isItem : List Char → Bool
  | ['-'] => true
  | '-' :: c :: _ => isGap c
  | _ => false

/-- Key and rest of a line after a plain key; `done` is the key so far in reverse. -/
def plainKey : (done : List Char) → List Char → Option (String × List Char)
  | _, [] => none
  | done, c :: s =>
    if c = ':' ∧ isValueMark false s then
      some (String.ofList (Text.trim done.reverse), s)
    else if c = '#' ∧ (done.head?.map isGap).getD false then none
    else plainKey (c :: done) s

/-- Key and rest of a line that starts an entry of a map. -/
def splitKey (s : List Char) : Option (String × List Char) :=
  match s with
  | '[' :: _ | '\x7b' :: _ => none
  | _ =>
    match quotedScalar? s with
    | some (key, s) =>
      match s.dropWhile isGap with
      | ':' :: s => if isValueMark false s then some (key, s) else none
      | _ => none
    | none => if startsPlain s then plainKey [] s else none

/-- A plain scalar up to a comment, `done` being what is read of it in reverse. -/
def plainBlock : (done : List Char) → List Char → Option String
  | done, [] => some (String.ofList (Text.trim done.reverse))
  | done, c :: s =>
    if c = '#' ∧ (done.head?.map isGap).getD true then
      some (String.ofList (Text.trim done.reverse))
    else if c = ':' ∧ isValueMark false s then none
    else plainBlock ((if c = '\n' then ' ' else c) :: done) s

/-- A value that is no block of its own. -/
def leaf (s : List Char) : Option Yaml :=
  match s with
  | '[' :: _ | '\x7b' :: _ | '"' :: _ | '\'' :: _ =>
    match flow s with
    | some (v, rest) => if isEnd rest then some v else none
    | none => none
  | s => if startsPlain s then (plainBlock [] s).map .plain else none

/-- A line with the lines that continue it, those indented by at least `least`. -/
def gather (least : Nat) (first : List Char) (ls : List Line) : List Char × List Line :=
  let more := ls.takeWhile (least ≤ ·.indent)
  (List.intercalate ['\n'] (first :: more.map (·.text)), ls.drop more.length)

mutual

/-- Reads a value from lines indented by at least `least`; it is empty without any. -/
def block : (fuel least : Nat) → List Line → Option (Yaml × List Line)
  | 0, _, _ => none
  | _ + 1, _, [] => some (.plain "", [])
  | fuel + 1, least, l :: ls =>
    if l.indent < least then some (.plain "", l :: ls)
    else if isItem l.text then
      (blockItems fuel l.indent (l :: ls)).map fun (items, ls) => (.list items, ls)
    else
      match splitKey l.text with
      | some _ =>
        (blockEntries fuel l.indent (l :: ls)).map fun (entries, ls) => (.map entries, ls)
      | none =>
        let (text, ls) := gather least l.text ls
        (leaf text).map (·, ls)

/-- Reads the items of a list with a given indentation. -/
def blockItems : (fuel indent : Nat) → List Line → Option (List Yaml × List Line)
  | 0, _, _ => none
  | _ + 1, _, [] => some ([], [])
  | fuel + 1, indent, l :: ls =>
    if l.indent = indent ∧ isItem l.text then
      let inner := l.text.drop 1
      let text := inner.dropWhile isGap
      let start := indent + 1 + (inner.length - text.length)
      let lines := if text.isEmpty ∨ text.head? = some '#' then ls else ⟨start, text⟩ :: ls
      match block fuel (indent + 1) lines with
      | none => none
      | some (v, ls) => (blockItems fuel indent ls).map fun (vs, ls) => (v :: vs, ls)
    else if indent < l.indent then none
    else some ([], l :: ls)

/-- Reads the entries of a map with a given indentation. A list as a value may stand as far
left as its key. -/
def blockEntries : (fuel indent : Nat) → List Line → Option (List (String × Yaml) × List Line)
  | 0, _, _ => none
  | _ + 1, _, [] => some ([], [])
  | fuel + 1, indent, l :: ls =>
    if l.indent = indent then
      match splitKey l.text with
      | none => if isItem l.text then some ([], l :: ls) else none
      | some (key, rest) =>
        let text := skip rest
        let value : Option (Yaml × List Line) :=
          if text.isEmpty then
            match ls with
            | next :: _ =>
              if next.indent = indent ∧ isItem next.text then
                (blockItems fuel indent ls).map fun (items, ls) => (.list items, ls)
              else block fuel (indent + 1) ls
            | [] => some (.plain "", [])
          else
            let (text, ls) := gather (indent + 1) text ls
            (leaf text).map (·, ls)
        match value with
        | none => none
        | some (v, ls) =>
          (blockEntries fuel indent ls).map fun (es, ls) => ((key, v) :: es, ls)
    else if indent < l.indent then none
    else some ([], l :: ls)

end

/-- Reads a document. -/
def parse? (text : String) : Option Yaml :=
  let ls := linesOf text.toList
  match block (text.toList.length + 2 * ls.length + 4) 0 ls with
  | some (v, []) => some v
  | _ => none

end EmbeddedBuffers.Yaml
