/-!
# Lines

The lines of a text without the marks that end them: a line feed, or a carriage return and
a line feed. A text that ends with such a mark has no empty line after it.
-/

namespace EmbeddedBuffers.Text

/-- Drops a carriage return at the end of a line; the line is given in reverse. -/
def endLine : List Char → List Char
  | '\r' :: line => line.reverse
  | line => line.reverse

/-- The lines of a text, `line` being the open one in reverse. -/
def linesFrom : (line : List Char) → List Char → List (List Char)
  | [], [] => []
  | line, [] => [line.reverse]
  | line, c :: rest => if c = '\n' then endLine line :: linesFrom [] rest
    else linesFrom (c :: line) rest

/-- The lines of a text. -/
def lines (s : List Char) : List (List Char) := linesFrom [] s

end EmbeddedBuffers.Text
