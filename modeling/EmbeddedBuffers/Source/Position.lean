/-!
# Positions in a text

A position is a byte offset with the line and the column that belong to it. Offsets count
the bytes of the UTF-8 form, columns count characters, lines and columns start at one.
Main statement: stepping over the characters of a text is how its positions arise, so
`Position.past` of a prefix is the position of its end.
-/

namespace EmbeddedBuffers

/-- Number of bytes of a text in UTF-8. -/
def byteLength (s : List Char) : Nat := s.foldl (fun n c => n + c.utf8Size) 0

/-- A place in a text. -/
structure Position where
  offset : Nat := 0
  line : Nat := 1
  column : Nat := 1
deriving DecidableEq, Repr, Inhabited

namespace Position

/-- The start of a text. -/
def start : Position := ⟨0, 1, 1⟩

/-- The position after a character. -/
def step (p : Position) (c : Char) : Position :=
  if c = '\n' then ⟨p.offset + c.utf8Size, p.line + 1, 1⟩
  else ⟨p.offset + c.utf8Size, p.line, p.column + 1⟩

/-- The position after a piece of text. -/
def past (p : Position) (s : List Char) : Position := s.foldl step p

/-- The position of a byte offset in the text `s` that starts at `p`. An offset past the
end is the end, and one inside a character has the first column. -/
def locate (target : Nat) : List Char → Position → Position
  | [], p => p
  | c :: rest, p =>
    if p.offset + c.utf8Size ≤ target then locate target rest (p.step c)
    else if p.offset = target then p
    else ⟨target, p.line, 1⟩

/-- The position of a byte offset in a text. -/
def ofOffset (s : List Char) (offset : Nat) : Position := locate offset s start

/-- `line:column`. -/
def render (p : Position) : String := s!"{p.line}:{p.column}"

end Position

/-- A stretch of text; the end is excluded. -/
structure Span where
  start : Position
  stop : Position
deriving DecidableEq, Repr, Inhabited

namespace Span

/-- Number of lines that a stretch touches. -/
def lineCount (s : Span) : Nat := (s.stop.line - s.start.line) + 1

/-- The line of a stretch, or its first and last. -/
def render (s : Span) : String :=
  if s.start.line = s.stop.line then s!"{s.start.line}"
  else s!"{s.start.line}-{s.stop.line}"

/-- The stretch between two byte offsets of a text. -/
def ofOffsets (text : List Char) (a b : Nat) : Span :=
  ⟨.ofOffset text a, .ofOffset text b⟩

end Span

end EmbeddedBuffers
