import EmbeddedBuffers.Text.Blank
import EmbeddedBuffers.Text.Split

/-!
# SVF statements

A text in the serial vector format as statements: words and groups in parentheses, up to a
semicolon. A comment starts with `!` or `//` and ends with its line, blanks and line ends
separate words, and blanks inside a group are left out. Words are written in upper case.
A statement has the line of its first token.
-/

namespace EmbeddedBuffers.Svf

/-- A part of a statement. -/
inductive Token
  | word (text : String)
  /-- What stands between parentheses, without blanks. -/
  | group (text : String)
deriving DecidableEq, Repr, Inhabited

/-- A statement without its semicolon. -/
structure Statement where
  line : Nat
  tokens : List Token
deriving DecidableEq, Repr, Inhabited

/-- What a text is made of. -/
inductive Lexeme
  | token (t : Token)
  | semicolon
deriving DecidableEq, Repr, Inhabited

/-- A line up to its comment. -/
def withoutComment : List Char → List Char
  | [] => []
  | '!' :: _ => []
  | '/' :: '/' :: _ => []
  | c :: rest => c :: withoutComment rest

/-- A text without its comments, line by line. -/
def bareLines (text : List Char) : List (List Char) :=
  (Text.splitAt '\n' text).map withoutComment

/-- What a reading of the text has found: lexemes with their lines, and the line of a group
that is never closed. -/
structure Lexemes where
  found : List (Nat × Lexeme)
  unclosed : Option Nat
deriving DecidableEq, Repr, Inhabited

/-- Puts a lexeme in front. -/
def Lexemes.cons (line : Nat) (l : Lexeme) (ls : Lexemes) : Lexemes :=
  { ls with found := (line, l) :: ls.found }

/-- Puts the open word in front, last character first, unless it is empty. -/
def Lexemes.consWord (line : Nat) (word : List Char) (ls : Lexemes) : Lexemes :=
  if word.isEmpty then ls
  else ls.cons line (.token (.word (String.ofList (word.reverse.map Char.toUpper))))

/-- What is open at a place of a text, its characters last one first. -/
inductive Open
  | word (chars : List Char)
  /-- A group and the line of its parenthesis. -/
  | group (line : Nat) (chars : List Char)
deriving Repr

/-- Reads the lexemes from a place on; lines are counted by their ends. -/
def lexFrom (line : Nat) : Open → List Char → Lexemes
  | .word w, [] => .consWord line w ⟨[], none⟩
  | .group start _, [] => ⟨[], some start⟩
  | .word w, c :: rest =>
    if c = '\n' then .consWord line w (lexFrom (line + 1) (.word []) rest)
    else if Text.isBlank c then .consWord line w (lexFrom line (.word []) rest)
    else if c = '(' then .consWord line w (lexFrom line (.group line []) rest)
    else if c = ';' then .consWord line w ((lexFrom line (.word []) rest).cons line .semicolon)
    else lexFrom line (.word (c :: w)) rest
  | .group start g, c :: rest =>
    if c = ')' then
      (lexFrom line (.word []) rest).cons start (.token (.group (String.ofList g.reverse)))
    else if c = '\n' then lexFrom (line + 1) (.group start g) rest
    else if Text.isBlank c then lexFrom line (.group start g) rest
    else lexFrom line (.group start (c :: g)) rest

/-- The lexemes of a text. -/
def lex (text : List Char) : Lexemes :=
  lexFrom 1 (.word []) (List.intercalate ['\n'] (bareLines text))

/-- Why a text is not a list of statements. -/
inductive LayoutFault
  | unclosedGroup
  | noSemicolon
deriving DecidableEq, Repr

def LayoutFault.message : LayoutFault → String
  | .unclosedGroup => "unclosed '(' in SVF data"
  | .noSemicolon => "statement is missing its terminating ';'"

/-- The tokens of a statement with the line of the first. -/
def Statement.ofTokens : List (Nat × Token) → Option Statement
  | [] => none
  | (line, t) :: ts => some ⟨line, t :: ts.map (·.2)⟩

/-- Cuts lexemes at semicolons, `pending` being the tokens of the open statement in reverse.
Statements without tokens say nothing. -/
def statementsFrom (unclosed : Option Nat) : (pending : List (Nat × Token)) →
    List (Nat × Lexeme) → Except (Nat × LayoutFault) (List Statement)
  | pending, [] =>
    match unclosed, Statement.ofTokens pending.reverse with
    | some line, none => .error (line, .unclosedGroup)
    | some _, some s => .error (s.line, .unclosedGroup)
    | none, some s => .error (s.line, .noSemicolon)
    | none, none => .ok []
  | pending, (line, .token t) :: rest => statementsFrom unclosed ((line, t) :: pending) rest
  | pending, (_, .semicolon) :: rest =>
    (statementsFrom unclosed [] rest).map ((Statement.ofTokens pending.reverse).toList ++ ·)

/-- The statements of a text, or the line at which it goes wrong and why. -/
def statements (text : List Char) : Except (Nat × LayoutFault) (List Statement) :=
  let ls := lex text
  statementsFrom ls.unclosed [] ls.found

end EmbeddedBuffers.Svf
