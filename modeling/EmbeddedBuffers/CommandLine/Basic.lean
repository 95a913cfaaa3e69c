import EmbeddedBuffers.CommandLine.Options
import EmbeddedBuffers.Settings.Basic

/-!
# Command lines

The five commands with their options. Options that hold for all commands may stand before
or after the name of the command; after it they count more.
-/

namespace EmbeddedBuffers.CommandLine

/-- What the commands that look at sources share. -/
structure Project where
  defines : List String := []
  undefines : List String := []
  search : List String := []
  threads : Option Nat := none
deriving DecidableEq, Repr, Inhabited

/-- A command. -/
inductive Command
  /-- Lists the files with live declarations. -/
  | filter (paths : List String) (project : Project)
  /-- Lists the files that a source reads. -/
  | deps (file : String) (json : Bool) (project : Project)
  /-- Makes the header of a source. -/
  | generate (input output : String) (maxValues : Option Nat) (force : Bool)
      (project : Project)
  /-- Tells what a container holds. -/
  | decode (file : String) (output : Option String)
  /-- Prints the completions of a shell. -/
  | completions (shell : String)
deriving DecidableEq, Repr, Inhabited

/-- A command with the options that hold for all commands. -/
structure Invocation where
  command : Command
  verbose : Nat := 0
  quiet : Bool := false
  config : Option String := none
deriving DecidableEq, Repr, Inhabited

/-- The options of all commands. -/
def globalOptions : List Opt := [.verbose, .quiet, .config, .help]

/-- The options of the commands that look at sources. -/
def projectOptions : List Opt := [.define, .undefine, .search, .threads]

/-- The shells with completions. -/
def shells : List String := ["bash", "elvish", "fish", "powershell", "zsh"]

/-- The words of each command. -/
def shapes : List (String × Shape) :=
  [("filter", ⟨globalOptions ++ projectOptions, [.path], true, []⟩),
   ("deps", ⟨globalOptions ++ projectOptions ++ [.json], [.path], false, []⟩),
   ("generate",
    ⟨globalOptions ++ projectOptions ++ [.maxValues, .force], [.path, .path], false, []⟩),
   ("decode", ⟨globalOptions ++ [.output], [.path], false, []⟩),
   ("completions", ⟨globalOptions, [.oneOf shells], false, []⟩)]

/-- The word that asks for help. -/
def helpWord : String := "help"

/-- The words before the name of a command. -/
def top : Shape where
  options := globalOptions ++ [.version]
  commands := shapes.map (·.1) ++ [helpWord]

/-- What the commands that look at sources share, as given. -/
def Given.project (g : Given) : Project :=
  ⟨g.values .define, g.values .undefine, g.values .search, g.number? .threads⟩

/-- The command that some words after its name ask for. -/
def Given.command (g : Given) (name : String) : Command :=
  let word (i : Nat) : String := (g.words[i]?).getD ""
  match name with
  | "filter" => .filter g.words g.project
  | "deps" => .deps (word 0) (g.has .json) g.project
  | "generate" =>
    .generate (word 0) (word 1) (g.number? .maxValues) (g.has .force) g.project
  | "decode" => .decode (word 0) (g.value? .output)
  | _ => .completions (word 0)

/-- What a question for help about some commands comes to. A command has no commands inside
it. -/
def helpAbout : List String → UsageFault
  | [] => .help
  | [name] => if top.commands.contains name then .help else .unknownCommand
  | _ => .unknownCommand

/-- Reads a command line, the name of the program left out. -/
def parse (words : List String) : Except UsageFault Invocation := do
  match ← Given.read top {} words with
  | (outer, some (name, rest)) =>
    match shapes.lookup name with
    | none => throw (helpAbout rest)
    | some shape =>
      let inner ← shape.read rest
      let outer ← outer.settle top
      return {
        command := inner.command name
        verbose := if inner.has .verbose then (inner.values .verbose).length
          else (outer.values .verbose).length
        quiet := inner.has .quiet || outer.has .quiet
        config := (inner.value? .config).or (outer.value? .config) }
  | (outer, none) =>
    let outer ← outer.settle top
    throw (if outer.isEmpty then .nothing else .missingCommand)

end EmbeddedBuffers.CommandLine
