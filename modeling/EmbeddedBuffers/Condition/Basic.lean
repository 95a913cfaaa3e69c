import EmbeddedBuffers.Problem

/-!
# Conditions

The tree of a preprocessor condition: integer literals, macros, `defined`, negation,
comparisons, conjunction and disjunction. Arithmetic, calls and the conditional operator
are outside the supported language and refused while reading.
-/

namespace EmbeddedBuffers

/-- The six comparisons. -/
inductive Comparison
  | eq | ne | lt | le | gt | ge
deriving DecidableEq, Repr, Inhabited

namespace Comparison

def symbol : Comparison → String
  | .eq => "=="
  | .ne => "!="
  | .lt => "<"
  | .le => "<="
  | .gt => ">"
  | .ge => ">="

/-- Equality and inequality, which texts admit as well. -/
def isEquality : Comparison → Bool
  | .eq | .ne => true
  | _ => false

/-- The truth of a comparison of two signed words. -/
def holds : Comparison → Int64 → Int64 → Bool
  | .eq, a, b => a == b
  | .ne, a, b => a != b
  | .lt, a, b => decide (a < b)
  | .le, a, b => decide (a ≤ b)
  | .gt, a, b => decide (b < a)
  | .ge, a, b => decide (b ≤ a)

end Comparison

/-- A condition as read. -/
inductive Condition
  | literal (n : Int64)
  | reference (name : String)
  | isDefined (name : String)
  | not (a : Condition)
  | compare (op : Comparison) (a b : Condition)
  | and (a b : Condition)
  | or (a b : Condition)
deriving DecidableEq, Repr, Inhabited

namespace Condition

/-- The lexical units of a condition. -/
inductive Token
  | word (name : String)
  | number (n : Int64)
  | bang
  | andAnd
  | orOr
  | openParen
  | closeParen
  | minus
  | comparison (op : Comparison)
deriving DecidableEq, Repr, Inhabited

/-- A token as messages show it. -/
def Token.render : Token → String
  | .word name => name
  | .number n => toString n.toInt
  | .bang => "!"
  | .andAnd => "&&"
  | .orOr => "||"
  | .openParen => "("
  | .closeParen => ")"
  | .minus => "-"
  | .comparison op => op.symbol

/-- Why a text is no condition, or a condition has no value. -/
inductive Fault
  /-- No token at all. -/
  | empty
  /-- A character that starts no token. -/
  | badCharacter (c : Char) (text : String)
  /-- A word that starts with a digit and is no integer literal. -/
  | badNumber (text : String)
  /-- A token after a complete condition. -/
  | leftover (token : Token) (text : String)
  /-- Another token, or the end, where one token is required. -/
  | expected (token : Token) (found : Option Token)
  /-- A comparison of a comparison. -/
  | chained (op : Comparison)
  /-- A minus sign without a number after it. -/
  | strayMinus
  /-- A macro followed by an opening parenthesis. -/
  | call (name : String)
  /-- A token that starts no operand. -/
  | unexpected (token : Token)
  /-- The end where an operand is required. -/
  | unexpectedEnd
  /-- `defined(` without a name. -/
  | definedWithoutName
  /-- `defined` without a name. -/
  | bareDefined
  /-- A text value where an integer is required. -/
  | notAnInteger (text place : String)
  /-- A macro whose value is blank, used as a value. -/
  | blankValue (name : String)
deriving DecidableEq, Repr

namespace Fault

def message : Fault → String
  | .empty => "empty condition"
  | .badCharacter c text =>
    let shown := String.singleton c
    s!"unsupported character '{shown}' in '{text}'"
  | .badNumber text => s!"invalid number '{text}'"
  | .leftover token text => s!"unexpected '{token.render}' in '{text}'"
  | .expected token (some found) => s!"expected '{token.render}', found '{found.render}'"
  | .expected token none => s!"expected '{token.render}' at end of condition"
  | .chained op => s!"chained comparison '{op.symbol}' is not supported"
  | .strayMinus => "'-' is only supported in front of a number"
  | .call name => s!"function-like macro '{name}(...)' is not supported"
  | .unexpected token => s!"unexpected '{token.render}'"
  | .unexpectedEnd => "unexpected end of condition"
  | .definedWithoutName => "defined() requires a macro name"
  | .bareDefined => "defined requires a macro name"
  | .notAnInteger text place => s!"'{text}' is not an integer {place}"
  | .blankValue name => s!"macro '{name}' is defined without a value"

def help? : Fault → Option String
  | .badCharacter _ _ | .leftover _ _ =>
    some "Only !, &&, ||, comparisons and defined() are supported"
  | .chained _ => some "Split the comparison with && or ||"
  | .strayMinus => some "Arithmetic is not supported in buffer conditions"
  | .notAnInteger _ _ => some "Text values can only be compared with == or !="
  | .blankValue _ => some "Use defined() to test macros defined as empty"
  | _ => none

/-- The problem shown for a fault, its place still open. -/
def problem (f : Fault) : Problem := .condition .unknown f.message f.help?

end Fault

end Condition

end EmbeddedBuffers
