import EmbeddedBuffers.Text.Radix
import EmbeddedBuffers.Text.Split

/-!
# Options

Reading the words of a command line: options in their long and short forms, bundles of
short ones, values attached or in the next word, and the words that are left. A value is
looked at when the next option or the end of the words shows that nothing more belongs to
it, so of two faults the unknown option further on comes first.
-/

namespace EmbeddedBuffers.CommandLine

/-- Why a command line is refused, or what it asks for in the place of a command. -/
inductive UsageFault
  | unknownCommand
  | unknownOption
  | missingCommand
  | missingWord
  /-- An option without its value, an empty path, or a word outside a closed set. -/
  | badValue
  | badNumber
  /-- Given twice. -/
  | repeated
  /-- A value for an option that takes none. -/
  | unneededValue
  | help
  | version
  /-- Nothing was given at all. -/
  | nothing
deriving DecidableEq, Repr, Inhabited

/-- An option. -/
inductive Opt
  | verbose | quiet | config | help | version
  | define | undefine | search | threads
  | json | maxValues | force | output
deriving DecidableEq, Repr, Inhabited

namespace Opt

/-- The name after two dashes. -/
def long? : Opt → Option String
  | .verbose => some "verbose"
  | .quiet => some "quiet"
  | .config => some "config"
  | .help => some "help"
  | .version => some "version"
  | .define | .undefine => none
  | .search => some "search"
  | .threads => some "threads"
  | .json => some "json"
  | .maxValues => some "max-values"
  | .force => some "force"
  | .output => some "output"

/-- The letter after one dash. -/
def short? : Opt → Option Char
  | .verbose => some 'v'
  | .quiet => some 'q'
  | .help => some 'h'
  | .version => some 'V'
  | .define => some 'D'
  | .undefine => some 'U'
  | .search => some 'I'
  | .threads => some 'j'
  | .output => some 'o'
  | .config | .json | .maxValues | .force => none

def takesValue : Opt → Bool
  | .config | .define | .undefine | .search | .threads | .maxValues | .output => true
  | .verbose | .quiet | .help | .version | .json | .force => false

/-- Whether an option may be given more than once. -/
def isRepeatable : Opt → Bool
  | .verbose | .define | .undefine | .search => true
  | _ => false

end Opt

/-- What a value has to be. -/
inductive ValueKind
  | text
  /-- A text that is not empty. -/
  | path
  /-- A number of 64 bits. -/
  | number
  /-- One of some words. -/
  | oneOf (words : List String)
deriving DecidableEq, Repr

/-- What is wrong with a value. -/
def ValueKind.fault? (k : ValueKind) (value : String) : Option UsageFault :=
  match k with
  | .text => none
  | .path => if value.isEmpty then some .badValue else none
  | .number =>
    if (Text.unsigned? 10 (2 ^ 64) value.toList).isNone then some .badNumber else none
  | .oneOf words => if words.contains value then none else some .badValue

/-- What the value of an option has to be. -/
def Opt.valueKind : Opt → ValueKind
  | .config | .search | .output => .path
  | .threads | .maxValues => .number
  | _ => .text

/-- What words a command takes: its options, the kinds of its other words in order, whether
the last of these may be repeated, and the commands inside it. -/
structure Shape where
  options : List Opt
  words : List ValueKind := []
  repeatsLast : Bool := false
  commands : List String := []
deriving Repr

namespace Shape

/-- The place among the words of a command that the word with an index takes. -/
def place (s : Shape) (index : Nat) : Nat :=
  if s.repeatsLast then min index (s.words.length - 1) else index

def longOption? (s : Shape) (name : String) : Option Opt :=
  s.options.find? (·.long? == some name)

def shortOption? (s : Shape) (c : Char) : Option Opt := s.options.find? (·.short? == some c)

/-- The fault of a word for which there is no place. -/
def strayWord (s : Shape) (onlyWords : Bool) (word : String) : UsageFault :=
  if s.commands.isEmpty ∨ (onlyWords ∧ s.commands.contains word) then .unknownOption
  else .unknownCommand

end Shape

/-- Where a value belongs. -/
inductive Slot
  | option (o : Opt)
  | word (place : Nat)
deriving DecidableEq, Repr

/-- What has been read. -/
structure Given where
  /-- Options with their values, in order; those without one have an empty text. -/
  options : List (Opt × String) := []
  words : List String := []
  /-- Number of words seen, those that have not been looked at included. -/
  seen : Nat := 0
  /-- Values that have not been looked at. -/
  pending : Option (Slot × List String) := none
  /-- Whether an option still waits for its value. -/
  waiting : Bool := false
  /-- Whether words may no longer be options. -/
  onlyWords : Bool := false
  /-- Whether the last word may be followed by others of its kind. -/
  inWords : Bool := false
deriving Repr, Inhabited

namespace Given

def has (g : Given) (o : Opt) : Bool := g.options.any (·.1 == o)

/-- The values of an option. -/
def values (g : Given) (o : Opt) : List String :=
  (g.options.filter (·.1 == o)).map (·.2)

/-- The last value of an option. -/
def value? (g : Given) (o : Opt) : Option String := (g.values o).getLast?

/-- The number that is the last value of an option. -/
def number? (g : Given) (o : Opt) : Option Nat :=
  (g.value? o).bind fun v => Text.unsigned? 10 (2 ^ 64) v.toList

/-- Whether anything was given. -/
def isEmpty (g : Given) : Bool := g.options.isEmpty && g.words.isEmpty

/-- Notes an option with its value, or without one. -/
def note (g : Given) (o : Opt) (value : Option String) : Except UsageFault Given :=
  match o with
  | .help => .error .help
  | .version => .error .version
  | _ =>
    if o.takesValue ∧ value.isNone then .error .badValue
    else if g.has o ∧ !o.isRepeatable then .error .repeated
    else
      match value.bind o.valueKind.fault? with
      | some f => .error f
      | none => .ok { g with options := g.options ++ [(o, value.getD "")] }

/-- Looks at the values that have been put off. -/
def settle (s : Shape) (g : Given) : Except UsageFault Given :=
  let settled := { g with pending := none }
  match g.pending with
  | none => .ok settled
  | some (.option o, values) => settled.note o values.head?
  | some (.word place, values) =>
    match values.findSome? ((s.words[place]?).getD .text).fault? with
    | some f => .error f
    | none => .ok { settled with words := g.words ++ values }

/-- Reads an option without its dashes; `attached` is what the same word gives as its
value. -/
def takeOption (s : Shape) (g : Given) (o : Opt) (attached : Option String) :
    Except UsageFault Given := do
  let g ← { g with waiting := false, inWords := false }.settle s
  if o.takesValue ∧ attached.isNone then
    return { g with pending := some (.option o, []), waiting := true }
  else g.note o attached

/-- Reads a word that starts with two dashes. -/
def takeLong (s : Shape) (g : Given) (body : List Char) : Except UsageFault Given :=
  let (name, attached) := match Text.splitOnce '=' body with
    | some (name, value) => (name, some (String.ofList value))
    | none => (body, none)
  match s.longOption? (String.ofList name) with
  | none => .error .unknownOption
  | some o => if !o.takesValue ∧ attached.isSome then .error .unneededValue
    else g.takeOption s o attached

/-- Reads a bundle of short options. What follows the letter of an option that takes a value
is its value, with or without an equals sign between. -/
def takeShort (s : Shape) (g : Given) : List Char → Except UsageFault Given
  | [] => .ok g
  | c :: rest =>
    match s.shortOption? c with
    | none => .error .unknownOption
    | some o =>
      if o.takesValue then
        let attached := match rest with
          | [] => none
          | '=' :: value => some (String.ofList value)
          | value => some (String.ofList value)
        g.takeOption s o attached
      else
        match g.takeOption s o none with
        | .error f => .error f
        | .ok g => g.takeShort s rest

/-- Reads a word that is no option. -/
def takeWord (s : Shape) (g : Given) (word : String) : Except UsageFault Given := do
  let place := s.place g.seen
  if s.words.length ≤ place then throw (s.strayWord g.onlyWords word)
  let repeats := s.repeatsLast && place + 1 == s.words.length
  let g ← match g.pending with
    | some (.word p, _) => if p = place ∧ repeats then pure g else g.settle s
    | _ => g.settle s
  let before := match g.pending with
    | some (_, values) => values
    | none => []
  return { g with
    pending := some (.word place, before ++ [word])
    seen := g.seen + 1
    waiting := false
    inWords := repeats }

/-- Reads one word. -/
def step (s : Shape) (g : Given) (word : String) : Except UsageFault Given :=
  if g.onlyWords then g.takeWord s word
  else
    match word.toList with
    | ['-', '-'] => .ok { g with onlyWords := true }
    | '-' :: '-' :: body => g.takeLong s body
    | '-' :: c :: rest => g.takeShort s (c :: rest)
    | _ =>
      match g.waiting, g.pending with
      | true, some (slot, _) => .ok { g with pending := some (slot, [word]), waiting := false }
      | _, _ => g.takeWord s word

/-- Reads words up to the name of a command, which comes back with the words after it. Where
a value is due, or after a word that others may follow, no word names a command. -/
def read (s : Shape) (g : Given) : List String →
    Except UsageFault (Given × Option (String × List String))
  | [] => .ok (g, none)
  | word :: rest =>
    if !g.onlyWords ∧ !g.waiting ∧ !g.inWords ∧ s.commands.contains word then
      .ok (g, some (word, rest))
    else
      match g.step s word with
      | .ok g => g.read s rest
      | .error f => .error f

end Given

/-- Reads all words of a command that has no commands inside it. -/
def Shape.read (s : Shape) (words : List String) : Except UsageFault Given := do
  let (g, _) ← Given.read s {} words
  let g ← g.settle s
  let needed := if s.repeatsLast then s.words.length - 1 else s.words.length
  if g.words.length < needed then throw .missingWord
  return g

end EmbeddedBuffers.CommandLine
