import EmbeddedBuffers.Text.Radix

/-!
# Quoted text

A text between double quotes, in which a quote, a backslash and the control characters
are written as escapes and every other character stands for itself.
-/

namespace EmbeddedBuffers.Text

/-- Control characters: C0, delete and C1. -/
def isControl (c : Char) : Bool :=
  c.toNat < 0x20 || (0x7F ≤ c.toNat && c.toNat < 0xA0)

/-- Ranges of the characters beyond ASCII that leave no mark of their own on paper:
space separators, line and paragraph separators, format characters, combining
diacritics and private use. The ranges are an outline of these classes and not the tables of the
standard: characters of some scripts, and those that no script has been given yet, are missing. -/
def unmarkedRanges : List (Nat × Nat) :=
  [(0xA0, 0xA0), (0xAD, 0xAD), (0x300, 0x36F), (0x600, 0x605), (0x61C, 0x61C), (0x6DD, 0x6DD),
   (0x70F, 0x70F), (0x1680, 0x1680), (0x180B, 0x180F), (0x1AB0, 0x1ACE), (0x1DC0, 0x1DFF),
   (0x2000, 0x200F), (0x2028, 0x202F), (0x205F, 0x206F), (0x20D0, 0x20F0), (0x3000, 0x3000),
   (0xE000, 0xF8FF), (0xFE00, 0xFE0F), (0xFE20, 0xFE2F), (0xFEFF, 0xFEFF), (0xFFF0, 0xFFFB),
   (0xFFFE, 0xFFFF), (0xE0000, 0x10FFFF)]

/-- Whether a character can be shown as itself between quotes. Of ASCII this is exact; beyond ASCII
it is as near as `unmarkedRanges` come. -/
def isPrintable (c : Char) : Bool :=
  !isControl c && unmarkedRanges.all fun (lo, hi) => c.toNat < lo || hi < c.toNat

/-- One character inside double quotes. -/
def quotedChar (c : Char) : List Char :=
  match c with
  | '"' => ['\\', '"']
  | '\\' => ['\\', '\\']
  | '\n' => ['\\', 'n']
  | '\r' => ['\\', 'r']
  | '\t' => ['\\', 't']
  | '\x00' => ['\\', '0']
  | c =>
    if isPrintable c then [c] else ['\\', 'u', '\x7b'] ++ Nat.toDigits 16 c.toNat ++ ['\x7d']

/-- A text between double quotes. -/
def quoted (s : String) : String :=
  String.ofList ('"' :: s.toList.flatMap quotedChar ++ ['"'])

end EmbeddedBuffers.Text
