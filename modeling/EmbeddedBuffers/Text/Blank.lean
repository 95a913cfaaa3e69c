/-!
# White space

Which characters separate words, and the cutting of a text at them. The class is the
property White_Space of Unicode, which reaches beyond the ASCII blanks; where a rule
of a format knows the ASCII blanks alone, `isAsciiBlank` is the test to use.
-/

namespace EmbeddedBuffers.Text

/-- White_Space of Unicode: 25 characters, eight of them in Latin-1. -/
def isBlank (c : Char) : Bool :=
  let n := c.toNat
  (9 ≤ n && n ≤ 13) || n == 0x20 || n == 0x85 || n == 0xA0 || n == 0x1680 ||
    (0x2000 ≤ n && n ≤ 0x200A) || n == 0x2028 || n == 0x2029 || n == 0x202F ||
    n == 0x205F || n == 0x3000

/-- The ASCII blanks: space, tab, line feed, form feed and carriage return. The
vertical tab is not among them. -/
def isAsciiBlank (c : Char) : Bool :=
  c == ' ' || c == '\t' || c == '\n' || c == '\x0c' || c == '\r'

theorem isBlank_of_isAsciiBlank {c : Char} (h : isAsciiBlank c = true) : isBlank c = true := by
  simp only [isAsciiBlank, Bool.or_eq_true, beq_iff_eq] at h
  rcases h with (((rfl | rfl) | rfl) | rfl) | rfl <;> decide

/-- Drops the blanks in front. -/
def trimStart (s : List Char) : List Char := s.dropWhile isBlank

/-- Drops the characters of a class at the end. -/
def dropEndWhile (p : Char → Bool) (s : List Char) : List Char :=
  (s.reverse.dropWhile p).reverse

/-- Drops the blanks at the end. -/
def trimEnd (s : List Char) : List Char := dropEndWhile isBlank s

/-- Drops the blanks at both ends. -/
def trim (s : List Char) : List Char := trimEnd (trimStart s)

/-- `trim` on a string. -/
def trimmed (s : String) : String := String.ofList (trim s.toList)

/-- Whether a text holds nothing but blanks. -/
def isAllBlank (s : List Char) : Bool := s.all isBlank

/-- The maximal runs of characters that are not in `p`, `word` being the run that
is open, last character first. -/
def wordsAux (p : Char → Bool) : List Char → List Char → List (List Char)
  | [], word => if word.isEmpty then [] else [word.reverse]
  | c :: rest, word =>
    if p c then
      if word.isEmpty then wordsAux p rest [] else word.reverse :: wordsAux p rest []
    else wordsAux p rest (c :: word)

/-- The words of a text: the maximal runs without a blank, in order. -/
def words (s : List Char) : List (List Char) := wordsAux isBlank s []

/-- The words of a text with one space between neighbours. -/
def squeeze (s : List Char) : List Char := List.intercalate [' '] (words s)

/-- Lower case of the ASCII letters; all else stays. -/
def lower (s : List Char) : List Char := s.map Char.toLower

/-- Drops blanks, then double quotes, then blanks at both ends. -/
def bare (s : List Char) : List Char :=
  trim (dropEndWhile (· == '"') ((trim s).dropWhile (· == '"')))

end EmbeddedBuffers.Text
