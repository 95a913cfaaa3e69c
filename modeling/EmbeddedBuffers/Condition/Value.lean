import EmbeddedBuffers.Condition.Parser
import EmbeddedBuffers.Macros

/-!
# The value of a condition

A condition is evaluated in an environment of macros. Values are signed words, texts (a
macro whose value is no integer), or names without a definition, which count as zero
among numbers and as themselves beside a text. The right operand of a conjunction or a
disjunction is looked at only where the left one leaves the answer open.
-/

namespace EmbeddedBuffers.Condition

/-- What an operand evaluates to. -/
inductive Value
  | int (n : Int64)
  | text (s : String)
  | undefined (name : String)
deriving DecidableEq, Repr, Inhabited

namespace Value

/-- A truth value as a number. -/
def ofBool (b : Bool) : Value := .int (if b then 1 else 0)

/-- The number of a value; `place` says in a message where one is required. -/
def toInt (place : String) : Value → Except Fault Int64
  | .int n => .ok n
  | .undefined _ => .ok 0
  | .text s => .error (.notAnInteger s place)

/-- The text of a value. -/
def toText : Value → String
  | .int n => toString n.toInt
  | .text s => s
  | .undefined name => name

def isText : Value → Bool
  | .text _ => true
  | _ => false

/-- Compares two values. Beside a text only equality is defined, and it compares texts. -/
def compare (op : Comparison) (a b : Value) : Except Fault Bool := do
  let place := s!"for '{op.symbol}'"
  if (a.isText || b.isText) && op.isEquality then
    return (a.toText == b.toText) == (op == .eq)
  else
    let x ← a.toInt place
    let y ← b.toInt place
    return op.holds x y

/-- The value that a macro stands for. -/
def ofMacro (name : String) : Option MacroValue → Except Fault Value
  | none => .ok (.undefined name)
  | some .defined => .ok (.int 1)
  | some (.value shown) =>
    match Text.integer? shown.toList with
    | some n => .ok (.int n)
    | none =>
      if Text.isAllBlank shown.toList then .error (.blankValue name)
      else .ok (.text (Text.trimmed shown))

end Value

/-- The text in a message about the operand of a decision. -/
def decisionPlace : String := "in a boolean context"

/-- Evaluates a condition to a value. -/
def value (m : Macros) : Condition → Except Fault Value
  | .literal n => .ok (.int n)
  | .reference name => Value.ofMacro name (m.get? name)
  | .isDefined name => .ok (.ofBool (m.isDefined name))
  | .not a => do
    let n ← (← a.value m).toInt "after '!'"
    return .ofBool (n == 0)
  | .and a b => do
    let x ← (← a.value m).toInt decisionPlace
    if x == 0 then return .ofBool false
    let y ← (← b.value m).toInt decisionPlace
    return .ofBool (y != 0)
  | .or a b => do
    let x ← (← a.value m).toInt decisionPlace
    if x != 0 then return .ofBool true
    let y ← (← b.value m).toInt decisionPlace
    return .ofBool (y != 0)
  | .compare op a b => do
    let x ← a.value m
    let y ← b.value m
    return .ofBool (← x.compare op y)

/-- Whether a condition holds. -/
def holds? (m : Macros) (c : Condition) : Except Fault Bool := do
  let n ← (← c.value m).toInt decisionPlace
  return n != 0

/-- Whether a condition holds, or the problem with it. -/
def evaluate (m : Macros) (c : Condition) : Except Problem Bool :=
  (c.holds? m).mapError Fault.problem

end EmbeddedBuffers.Condition
