import EmbeddedBuffers.Decimal.Notation
import EmbeddedBuffers.Elements
import EmbeddedBuffers.Svf.Statement

/-!
# JTAG commands

The commands that SVF statements stand for, and the bytes of a command stream: a byte that
tells the command, then its numbers with the high byte first. The data of a scan are
written as mask, expected output and input, whatever their order in the statement.
-/

namespace EmbeddedBuffers.Svf

/-- A stable state of the TAP controller. -/
inductive TapState
  | reset | idle | drPause | irPause
deriving DecidableEq, Repr, Inhabited

namespace TapState

def code : TapState → UInt8
  | .reset => 1
  | .idle => 2
  | .drPause => 3
  | .irPause => 4

def ofWord? : String → Option TapState
  | "RESET" => some .reset
  | "IDLE" => some .idle
  | "DRPAUSE" => some .drPause
  | "IRPAUSE" => some .irPause
  | _ => none

end TapState

/-- A register that is scanned, with the bits before and behind it. -/
inductive ScanKind
  | hdr | hir | tdr | tir | sir | sdr
deriving DecidableEq, Repr, Inhabited

namespace ScanKind

def code : ScanKind → UInt8
  | .hdr => 0x02
  | .hir => 0x03
  | .tdr => 0x04
  | .tir => 0x05
  | .sir => 0x0D
  | .sdr => 0x0E

def ofWord? : String → Option ScanKind
  | "HDR" => some .hdr
  | "HIR" => some .hir
  | "TDR" => some .tdr
  | "TIR" => some .tir
  | "SIR" => some .sir
  | "SDR" => some .sdr
  | _ => none

end ScanKind

/-- The data of a scan. -/
structure ScanData where
  mask : Option (List UInt8) := none
  tdo : Option (List UInt8) := none
  tdi : Option (List UInt8) := none
deriving DecidableEq, Repr, Inhabited

/-- A command. -/
inductive Command
  | state (s : TapState)
  | endDr (s : TapState)
  | endIr (s : TapState)
  /-- Clock cycles in a second. -/
  | frequency (hertz : Nat)
  /-- Clock cycles in a state, and a time in units of 100 ns. -/
  | runTest (s : TapState) (cycles time : Nat)
  | scan (kind : ScanKind) (bits : Nat) (data : ScanData)
deriving DecidableEq, Repr, Inhabited

/-! ## Command streams -/

/-- A piece of scan data after its code, its length first. -/
def dataBytes (code : UInt8) : Option (List UInt8) → List UInt8
  | none => []
  | some bytes => code :: Elements.toBytes 4 bytes.length ++ bytes

def ScanData.encode (d : ScanData) : List UInt8 :=
  dataBytes 0x0E d.mask ++ dataBytes 0x0D d.tdo ++ dataBytes 0x0C d.tdi

/-- The bytes of a command. -/
def Command.encode : Command → List UInt8
  | .state s => [0x01, s.code]
  | .endDr s => [0x06, s.code]
  | .endIr s => [0x07, s.code]
  | .frequency hertz => 0x08 :: Elements.toBytes 4 hertz
  | .runTest s cycles time =>
    0x0B :: s.code :: (Elements.toBytes 2 cycles ++ Elements.toBytes 4 time)
  | .scan kind bits data => kind.code :: (Elements.toBytes 4 bits ++ data.encode)

/-! ## Numbers -/

/-- A number that is not negative, as `m · 2 ^ q`. -/
structure Number where
  m : Nat
  q : Int
deriving DecidableEq, Repr

namespace Number

/-- The number of a 64-bit pattern, unless it is negative, infinite or none. -/
def ofBits? (bits : Nat) : Option Number :=
  match Decimal.double.decode bits with
  | .finite negative m q => if negative ∧ m ≠ 0 then none else some ⟨m, q⟩
  | _ => none

/-- The greatest whole number that is not above. -/
def floor (n : Number) : Nat :=
  let (num, den) := Decimal.scaleTwo n.m 1 (-n.q)
  num / den

/-- The number times ten million, rounded to 64 bits. -/
def timesTenMillion? (n : Number) : Option Number :=
  let (num, den) := Decimal.scaleTwo (n.m * 10000000) 1 (-n.q)
  ofBits? (Decimal.double.nearest num den)

/-- The number in shortest digits without an exponent. -/
def render (n : Number) : String := Decimal.plain Decimal.double n.m n.q

end Number

/-! ## Statements -/

/-- Why a statement is no command. -/
inductive CommandFault
  | expected (what : String)
  | foundGroup (what : String)
  | oneTargetState
  | oneState (command : String)
  | unsupportedState (name : String)
  | unsupportedCommand (name : String)
  | invalidNumber (text : String)
  | tooGreat (what : String) (n : String)
  | frequencyForm
  | runTestForm
  | cycleCount (text : String)
  | bitLength (text : String)
  | namelessGroup
  | unsupportedArgument (name : String)
  | missingValue (name : String)
  | repeated (name : String)
  | invalidHex (text : String)
deriving DecidableEq, Repr

def CommandFault.message : CommandFault → String
  | .expected what => s!"expected {what}"
  | .foundGroup what => s!"expected {what}, found a data group"
  | .oneTargetState => "STATE takes exactly one target state"
  | .oneState command => s!"{command} takes exactly one state"
  | .unsupportedState name => s!"unsupported TAP state '{name}'"
  | .unsupportedCommand name => s!"unsupported SVF command '{name}'"
  | .invalidNumber text => s!"invalid number '{text}'"
  | .tooGreat what n => s!"{what} {n} does not fit in 32 bits"
  | .frequencyForm => "expected FREQUENCY <cycles> HZ"
  | .runTestForm => "expected RUNTEST [state] <count> TCK [<time> SEC]"
  | .cycleCount text => s!"TCK count '{text}' does not fit in 16 bits"
  | .bitLength text => s!"invalid bit length '{text}'"
  | .namelessGroup => "data group without an argument name"
  | .unsupportedArgument name => s!"unsupported scan argument '{name}'"
  | .missingValue name => s!"{name} needs a (hex) value"
  | .repeated name => s!"{name} given twice"
  | .invalidHex text => s!"invalid hex data '{text}'"

/-- The word at the front of some tokens; `what` says what it should be. -/
def word (what : String) : List Token → Except CommandFault String
  | .word text :: _ => .ok text
  | .group _ :: _ => .error (.foundGroup what)
  | [] => .error (.expected what)

/-- The state that a word at the front names. -/
def tapState (tokens : List Token) : Except CommandFault TapState := do
  let name ← word "a TAP state" tokens
  match TapState.ofWord? name with
  | some s => return s
  | none => throw (.unsupportedState name)

/-- Reads a number that is not negative. -/
def number (text : String) : Except CommandFault Number :=
  match (Decimal.read? text.toList).bind fun w => Number.ofBits? (w.toBits Decimal.double) with
  | some n => .ok n
  | none => .error (.invalidNumber text)

/-- A number rounded down to a whole one of 32 bits. -/
def field32 (what : String) (n : Number) : Except CommandFault Nat :=
  if n.floor < 2 ^ 32 then .ok n.floor else .error (.tooGreat what n.render)

/-- The bytes that pairs of hexadecimal digits denote. -/
def hexPairs? : List Char → Option (List UInt8)
  | [] => some []
  | [_] => none
  | a :: b :: rest =>
    match Text.unsigned? 16 256 [a, b], hexPairs? rest with
    | some n, some bytes => some (UInt8.ofNat n :: bytes)
    | _, _ => none

/-- The bytes that hexadecimal digits denote; of an odd number the first stands alone. -/
def hexBytes (text : String) : Except CommandFault (List UInt8) :=
  let digits := text.toList
  match hexPairs? (if digits.length % 2 = 1 then '0' :: digits else digits) with
  | some bytes => .ok bytes
  | none => .error (.invalidHex text)

/-- One of the three data of a scan. -/
inductive DataKind
  | mask | tdo | tdi
deriving DecidableEq, Repr

def DataKind.ofWord? : String → Option DataKind
  | "MASK" => some .mask
  | "TDO" => some .tdo
  | "TDI" => some .tdi
  | _ => none

namespace ScanData

def get? (d : ScanData) : DataKind → Option (List UInt8)
  | .mask => d.mask
  | .tdo => d.tdo
  | .tdi => d.tdi

def set (d : ScanData) (kind : DataKind) (bytes : List UInt8) : ScanData :=
  match kind with
  | .mask => { d with mask := some bytes }
  | .tdo => { d with tdo := some bytes }
  | .tdi => { d with tdi := some bytes }

/-- Reads the data of a scan, each given at most once, in any order. -/
def read (d : ScanData) : List Token → Except CommandFault ScanData
  | [] => .ok d
  | .group _ :: _ => .error .namelessGroup
  | .word name :: rest =>
    match DataKind.ofWord? name with
    | none => .error (.unsupportedArgument name)
    | some kind =>
      match rest with
      | .group text :: rest =>
        if (d.get? kind).isSome then .error (.repeated name)
        else
          match hexBytes text with
          | .ok bytes => (d.set kind bytes).read rest
          | .error f => .error f
      | _ => .error (.missingValue name)

end ScanData

namespace Command

/-- Reads what follows the word `FREQUENCY`. -/
def readFrequency (args : List Token) : Except CommandFault Command := do
  let value ← number (← word "a frequency" args)
  let unit ← word "HZ" (args.drop 1)
  if unit ≠ "HZ" ∨ args.length ≠ 2 then throw .frequencyForm
  return .frequency (← field32 "frequency" value)

/-- Reads the count and the time of a run test. -/
def readRunTest (s : TapState) (args : List Token) : Except CommandFault Command := do
  let count ← word "a TCK count" args
  let unit ← word "TCK" (args.drop 1)
  if unit ≠ "TCK" then throw .runTestForm
  match Text.unsigned? 10 (2 ^ 16) count.toList with
  | none => throw (.cycleCount count)
  | some cycles =>
    let timed := args.drop 2
    if timed.isEmpty then return .runTest s cycles 0
    let text ← word "a time" timed
    let seconds ← number text
    let unit ← word "SEC" (timed.drop 1)
    if unit ≠ "SEC" ∨ timed.length ≠ 2 then throw .runTestForm
    match seconds.timesTenMillion? with
    | some time => return .runTest s cycles (← field32 "run time" time)
    | none => throw (.tooGreat "run time" "inf")

/-- Reads what follows the word of a scan. -/
def readScan (kind : ScanKind) (args : List Token) : Except CommandFault Command := do
  let length ← word "a bit length" args
  match Text.unsigned? 10 (2 ^ 32) length.toList with
  | none => throw (.bitLength length)
  | some bits => return .scan kind bits (← ScanData.read {} (args.drop 1))

/-- The command that a statement stands for. -/
def ofTokens (tokens : List Token) : Except CommandFault Command := do
  let command ← word "a command" tokens
  let args := tokens.drop 1
  match command with
  | "STATE" =>
    if args.length ≠ 1 then throw .oneTargetState
    return .state (← tapState args)
  | "ENDDR" =>
    if args.length ≠ 1 then throw (.oneState command)
    return .endDr (← tapState args)
  | "ENDIR" =>
    if args.length ≠ 1 then throw (.oneState command)
    return .endIr (← tapState args)
  | "FREQUENCY" => readFrequency args
  | "RUNTEST" =>
    match args with
    | .word w :: rest =>
      match TapState.ofWord? w with
      | some s => readRunTest s rest
      | none => readRunTest .idle args
    | _ => readRunTest .idle args
  | _ =>
    match ScanKind.ofWord? command with
    | some kind => readScan kind args
    | none => throw (.unsupportedCommand command)

end Command

/-- The commands of a text, or the line at which it goes wrong and why. -/
def commands (text : List Char) : Except (Nat × String) (List Command) := do
  let found ← (statements text).mapError fun (line, f) => (line, f.message)
  found.mapM fun s => (Command.ofTokens s.tokens).mapError fun f => (s.line, f.message)

/-- The command stream of a text. -/
def convert (text : List Char) : Except (Nat × String) (List UInt8) := do
  return (← commands text).flatMap Command.encode

end EmbeddedBuffers.Svf
