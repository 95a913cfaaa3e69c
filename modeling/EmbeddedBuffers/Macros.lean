import EmbeddedBuffers.Problem
import EmbeddedBuffers.Text.Name
import EmbeddedBuffers.Text.Split

/-!
# Macro definitions

The macros of one scan: built from compiler flags, layered, looked up, and substituted
for placeholders in a text. Names are kept in ascending order, each once, so that two
environments with the same definitions are equal.
-/

namespace EmbeddedBuffers

/-- What a macro stands for. -/
inductive MacroValue
  /-- Defined without a value. -/
  | defined
  /-- Defined with a value, which may be empty. -/
  | value (text : String)
deriving DecidableEq, Repr, Inhabited

/-- Text of a value; a macro without a value reads as `1`. -/
def MacroValue.text : MacroValue → String
  | .defined => "1"
  | .value text => text

/-- A set of macro definitions, in ascending order of their names. -/
structure Macros where
  entries : List (String × MacroValue) := []
deriving DecidableEq, Repr, Inhabited

namespace Macros

/-- No definitions. -/
def empty : Macros := ⟨[]⟩

def size (m : Macros) : Nat := m.entries.length

def isEmpty (m : Macros) : Bool := m.entries.isEmpty

/-- The definition of a name. -/
def get? (m : Macros) (name : String) : Option MacroValue := m.entries.lookup name

def isDefined (m : Macros) (name : String) : Bool := (m.get? name).isSome

/-- Puts a definition at its place in an ascending list, over an earlier one of the same
name. -/
def insertEntry (name : String) (v : MacroValue) :
    List (String × MacroValue) → List (String × MacroValue)
  | [] => [(name, v)]
  | e :: rest =>
    if name < e.1 then (name, v) :: e :: rest
    else if name = e.1 then (name, v) :: rest
    else e :: insertEntry name v rest

def insert (m : Macros) (name : String) (v : MacroValue) : Macros :=
  ⟨insertEntry name v m.entries⟩

def erase (m : Macros) (name : String) : Macros := ⟨m.entries.filter (·.1 ≠ name)⟩

/-- The definitions of both, those of `top` winning. -/
def layered (base top : Macros) : Macros :=
  top.entries.foldl (fun m e => m.insert e.1 e.2) base

/-! ## Flags -/

/-- Refuses what is not an identifier. -/
def checkName (name : List Char) : Except Problem String :=
  if Text.isName name then .ok (String.ofList name)
  else
    let shown := String.ofList name
    .error (.configuration s!"invalid macro name '{shown}'"
      (some "Use -DNAME or -DNAME=VALUE"))

/-- Applies one flag: `-DNAME`, `-DNAME=VALUE`, the same without `-D`, or `-UNAME`. -/
def applyFlag (m : Macros) (flag : String) : Except Problem Macros := do
  let flag := Text.trim flag.toList
  match Text.strip? ['-', 'U'] flag with
  | some name => return m.erase (← checkName name)
  | none =>
    let definition := (Text.strip? ['-', 'D'] flag).getD flag
    match Text.splitOnce '=' definition with
    | some (name, v) => return m.insert (← checkName name) (.value (String.ofList v))
    | none => return m.insert (← checkName definition) .defined

/-- The environment that a list of flags describes, from left to right. -/
def ofFlags (flags : List String) : Except Problem Macros :=
  flags.foldlM applyFlag empty

/-! ## Placeholders -/

/-- Why a text with placeholders has no value. -/
inductive PlaceholderFault
  /-- A `${` without its closing brace. -/
  | unclosed (text : String)
  /-- A name without a definition. -/
  | undefined (name : String)
deriving DecidableEq, Repr

/-- The problem shown for a placeholder without a value. -/
def PlaceholderFault.problem : PlaceholderFault → Problem
  | .unclosed text =>
    .badDeclaration s!"unclosed placeholder in '{text}'"
      (some "Placeholders have the form $\x7bNAME\x7d")
  | .undefined name =>
    .badDeclaration s!"placeholder $\x7b{name}\x7d names an undefined macro"
      (some s!"Pass -D{name}=<value>")

/-- Replaces the placeholders of a text from left to right; `whole` is the text that an
unclosed one is reported in. Values are not searched for placeholders. -/
def expand (m : Macros) (whole : String) (s : List Char) :
    Except PlaceholderFault (List Char) :=
  match s with
  | [] => .ok []
  | '$' :: '\x7b' :: rest =>
    match _h : Text.splitOnce '\x7d' rest with
    | none => .error (.unclosed whole)
    | some (name, after) =>
      match m.get? (String.ofList name) with
      | none => .error (.undefined (String.ofList name))
      | some v => (expand m whole after).map (v.text.toList ++ ·)
  | c :: rest => (expand m whole rest).map (c :: ·)
termination_by s.length
decreasing_by
  · have := Text.length_lt_of_splitOnce ‹_›
    simp only [List.length_cons]
    omega
  · simp

/-- Replaces every placeholder of a text by the value of the macro it names. -/
def substitute (m : Macros) (text : String) : Except Problem String :=
  match m.expand text text.toList with
  | .ok s => .ok (String.ofList s)
  | .error f => .error f.problem

end Macros

end EmbeddedBuffers
