import EmbeddedBuffers.Text.Radix

/-!
# Reports

What a user sees: lines with a verb in a column of its own, counts with their nouns, and
lists of texts as JSON.
-/

namespace EmbeddedBuffers

/-- How much the log tells. -/
inductive LogLevel
  | error | warn | info | debug | trace
deriving DecidableEq, Repr, Inhabited

namespace LogLevel

def render : LogLevel → String
  | .error => "error"
  | .warn => "warn"
  | .info => "info"
  | .debug => "debug"
  | .trace => "trace"

/-- The level for a number of `-v`; quiet runs keep to errors. -/
def of (verbose : Nat) (quiet : Bool) : LogLevel :=
  if quiet then .error
  else
    match verbose with
    | 0 => .warn
    | 1 => .info
    | 2 => .debug
    | _ => .trace

end LogLevel

namespace Report

/-- A count with its noun. -/
def counted (n : Nat) (one many : String) : String :=
  let noun := if n = 1 then one else many
  s!"{n} {noun}"

/-- Width of the column of verbs. -/
def verbWidth : Nat := 12

/-- A line with its verb. -/
def line (verb message : String) : String :=
  let gap := String.ofList (List.replicate (verbWidth - verb.length) ' ')
  s!"{gap}{verb} {message}\n"

/-- A character inside a JSON string. -/
def jsonChar (c : Char) : List Char :=
  match c with
  | '"' => ['\\', '"']
  | '\\' => ['\\', '\\']
  | '\n' => ['\\', 'n']
  | '\r' => ['\\', 'r']
  | '\t' => ['\\', 't']
  | '\x08' => ['\\', 'b']
  | '\x0c' => ['\\', 'f']
  | c => if c.toNat < 0x20 then ['\\', 'u'] ++ Text.hexPadded 4 c.toNat else [c]

/-- A text as a JSON string. -/
def json (s : String) : String := String.ofList ('"' :: s.toList.flatMap jsonChar ++ ['"'])

/-- Texts as a JSON array, each on a line of its own. -/
def jsonLines (items : List String) : String :=
  match items with
  | [] => "[]"
  | _ => "[\n" ++ String.intercalate ",\n" (items.map fun s => "  " ++ json s) ++ "\n]"

end Report

end EmbeddedBuffers
