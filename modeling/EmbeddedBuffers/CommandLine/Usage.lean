import EmbeddedBuffers.CommandLine.Options

/-!
# Usage

What is printed in the place of a command: the summary of the command line, the version,
and why a command line is refused.
-/

namespace EmbeddedBuffers.CommandLine

/-- The version of the program. -/
def versionText : String := "bufproc 0.4.0\n"

/-- The summary of the command line. -/
def usageText : String := String.intercalate "\n" [
  "Usage: bufproc [OPTIONS] <COMMAND>",
  "",
  "Commands:",
  "  filter [PATHS]...          Print the files that contain live buffer declarations",
  "  deps <FILE>                Print the data files a source depends on",
  "  generate <INPUT> <OUTPUT>  Generate the buffer header for a source file",
  "  decode <FILE>              Decode a compressed buffer container",
  "  completions <SHELL>        Generate shell completions",
  "",
  "Options of all commands:",
  "  -v, --verbose        More log output",
  "  -q, --quiet          Only print warnings and errors",
  "      --config <PATH>  Project manifest (default: ./bufproc.yaml when present)",
  "  -h, --help           Print help",
  "  -V, --version        Print version",
  "",
  "Options of filter, deps and generate:",
  "  -D <NAME[=VALUE]>    Define a macro",
  "  -U <NAME>            Undefine a macro",
  "  -I, --search <DIR>   Data search directory, searched before the manifest's",
  "  -j, --threads <N>    Worker threads",
  "",
  "Other options:",
  "      --json           deps: print a JSON array",
  "      --max-values <N> generate: values on a line",
  "      --force          generate: do not ask whether the header is up to date",
  "  -o, --output <PATH>  decode: write the decoded data to a file",
  ""]

namespace UsageFault

def message : UsageFault → String
  | .unknownCommand => "unrecognized command"
  | .unknownOption => "unexpected argument"
  | .missingCommand => "a command is required"
  | .missingWord => "a required argument is missing"
  | .badValue => "invalid or missing value"
  | .badNumber => "a value is not a number"
  | .repeated => "an option is given more than once"
  | .unneededValue => "an option takes no value"
  | .help | .version | .nothing => ""

/-- Whether the fault is what the user asked for. -/
def isAnswer : UsageFault → Bool
  | .help | .version => true
  | _ => false

/-- What is printed. -/
def render : UsageFault → String
  | .help | .nothing => usageText
  | .version => versionText
  | f => s!"error: {f.message}\n\n{usageText}"

end UsageFault

end EmbeddedBuffers.CommandLine
