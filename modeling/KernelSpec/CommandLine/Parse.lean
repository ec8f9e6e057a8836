import KernelSpec.CommandLine.Help
import KernelSpec.CommandLine.Similar
import KernelSpec.Registry.Scope

/-! # Reading the command line

Arguments are taken one after another by `Parsing.step`. An option that is given without `=` waits
for its value, and value and option are looked at together only when the next flag is accepted or
the arguments end; this is called settling. An argument that is refused first settles the option
that waits, but keeps to its own error.
-/

namespace KernelSpec

/-- What a command line asks for. -/
structure Invocation where
  user : Bool := false
  environment : Bool := false
  under? : Option Path := none
  replace : Bool := false
  verbose : Bool := false
  kernelSource? : Option Path := none
  completions? : Option Shell := none
  /-- The settings given, in the order of the command line, each value normalised. -/
  settings : List (Setting × String) := []
deriving DecidableEq, Repr

namespace Invocation

/-- Where to install to. -/
def location (invocation : Invocation) : Location :=
  if invocation.user then .user
  else if invocation.environment then .environment
  else .under invocation.under?

/-- The settings grouped in the order of the table, each group in the order of the command line. -/
def occurrences (invocation : Invocation) : List (Setting × String) :=
  Setting.all.flatMap fun s => invocation.settings.filter fun entry => entry.1 = s

/-- The variables that the settings give. -/
def overrides (invocation : Invocation) : Overrides := Setting.fold invocation.occurrences

end Invocation

/-- Why reading the command line ends without an invocation. -/
inductive Stop where
  | help (style : Help.Style)
  | version
  | usage (error : UsageError)
deriving DecidableEq, Repr

/-- The state between two arguments. -/
structure Parsing where
  /-- The flags settled so far, in the order of their first use. -/
  used : List Flag := []
  /-- The option named last, with its value once it has been given. -/
  waiting : Option (Flag × Option Bytes) := none
  /-- After `--` no argument is a flag. -/
  onlyValues : Bool := false
  invocation : Invocation := {}
deriving DecidableEq, Repr

namespace Parsing

/-- The invocation with a flag, or with an option and its value. -/
def record (invocation : Invocation) (value : Bytes) : Flag → Except UsageError Invocation
  | .user => .ok { invocation with user := true }
  | .environment => .ok { invocation with environment := true }
  | .under => .ok { invocation with under? := some ⟨value⟩ }
  | .replace => .ok { invocation with replace := true }
  | .verbose => .ok { invocation with verbose := true }
  | .setting s =>
    match value.text? with
    | none => .error .invalidUtf8
    | some raw =>
      match s.normalize raw with
      | .error cause => .error (.invalidSetting s raw cause)
      | .ok normal => .ok { invocation with settings := invocation.settings ++ [(s, normal)] }
  | .kernelSource =>
    if value.isEmpty then .error (.missingValue .kernelSource)
    else .ok { invocation with kernelSource? := some ⟨value⟩ }
  | .completions =>
    if value.isEmpty then .error (.missingValue .completions)
    else
      let shown := value.display
      match Shell.ofName? shown with
      | some shell => .ok { invocation with completions? := some shell }
      | none => .error (.unknownShell shown (Similar.best? shown Shell.name Shell.all))
  | .help => .ok invocation
  | .version => .ok invocation

/-- Settles a flag, with its value if it takes one. A flag whose value is refused counts as used;
one that may not be repeated is refused before that. -/
def settleFlag (state : Parsing) (f : Flag) (value : Bytes) : Parsing × Option UsageError :=
  if state.used.contains f && !f.isRepeatable then (state, some (.repeatedFlag f))
  else
    let used := if state.used.contains f then state.used else state.used ++ [f]
    match record state.invocation value f with
    | .error e => ({ state with used }, some e)
    | .ok invocation => ({ state with used, invocation }, none)

/-- Settles the option that waits. -/
def settle (state : Parsing) : Parsing × Option UsageError :=
  match state.waiting with
  | none => (state, none)
  | some (f, none) => ({ state with waiting := none }, some (.missingValue f))
  | some (f, some value) => settleFlag { state with waiting := none } f value

/-- A settled state, or the error as the end. -/
def orStop : Parsing × Option UsageError → Except Stop Parsing
  | (state, none) => .ok state
  | (_, some e) => .error (.usage e)

/-- The flags used once the option that waits is settled, whatever comes of that. -/
def usedAfterSettling (state : Parsing) : List Flag := state.settle.1.used

/-- Accepts a flag that takes no value, after settling what waits. -/
def acceptFlag (style : Help.Style) (f : Flag) (state : Parsing) : Except Stop Parsing := do
  let state ← orStop state.settle
  match f with
  | .help => throw (.help style)
  | .version => throw .version
  | f => orStop (state.settleFlag f [])

/-- The option that still needs a value. -/
def wanting? (state : Parsing) : Option Flag :=
  match state.waiting with
  | some (f, none) => some f
  | _ => none

/-- Gives the argument to the option that needs a value. -/
def takeValue (value : Bytes) (state : Parsing) : Except Stop Parsing :=
  match state.wanting? with
  | some f => .ok { state with waiting := some (f, some value) }
  | none => .error (.usage (.unknownArgument value.display))

/-- The dash `-`. -/
def dash : UInt8 := 0x2D

/-- The sign `=`. -/
def equals : UInt8 := 0x3D

/-- The parts before and after the first `=`. -/
def splitEquals (body : Bytes) : Bytes × Option Bytes :=
  match body.dropWhile (· != equals) with
  | [] => (body, none)
  | _ :: value => (body.takeWhile (· != equals), some value)

/-- The flag whose long name is spelled by the bytes. -/
def longFlag? (name : Bytes) : Option Flag := name.text?.bind Flag.ofName?

/-- An argument that begins with two dashes, which are left out here. -/
def long (body : Bytes) (state : Parsing) : Except Stop Parsing := do
  let (name, value?) := splitEquals body
  match longFlag? name with
  | none =>
    let similar := Similar.best? name.display Flag.name Flag.all
    throw (.usage (.unknownLong name.display similar state.usedAfterSettling))
  | some f =>
    match f.takesValue, value? with
    | false, none => acceptFlag .long f state
    | false, some value => throw (.usage (.unexpectedValue f value.display state.used))
    | true, none =>
      let state ← orStop state.settle
      return { state with waiting := some (f, none) }
    | true, some value =>
      let state ← orStop state.settle
      orStop (state.settleFlag f value)

/-- The characters of a cluster of short flags; a part that is no text stands as one piece. -/
inductive Piece where
  | letter (c : Char)
  | broken (rest : Bytes)
deriving DecidableEq, Repr

/-- The pieces of a cluster, after skipping octets already covered. -/
def pieces : Nat → Bytes → List Piece
  | _, [] => []
  | skip + 1, _ :: rest => pieces skip rest
  | 0, b :: rest =>
    match Bytes.tails? b with
    | none => [.broken (b :: rest)]
    | some ranges =>
      if Bytes.fitting ranges rest = ranges.length then
        .letter (Bytes.shownHead b rest).1 :: pieces ranges.length rest
      else [.broken (b :: rest)]

/-- Takes the short flags of a cluster one after another. -/
def cluster : List Piece → Parsing → Except Stop Parsing
  | [], state => .ok state
  | .broken rest :: _, _ => .error (.usage (.unknownArgument ("-" ++ rest.display)))
  | .letter c :: more, state =>
    match Flag.ofShort? c with
    | none => .error (.usage (.unknownArgument s!"-{c}"))
    | some f =>
      match acceptFlag .short f state with
      | .error stop => .error stop
      | .ok state => cluster more state

def digitByte (b : UInt8) : Bool := 0x30 ≤ b && b ≤ 0x39

/-- Whether the bytes after `seen` others go on as a number: digits, one point that is not first
and before any exponent, and one exponent mark that is neither first nor last. -/
def continuesNumber (point mark : Bool) : Nat → Bytes → Bool
  | _, [] => true
  | seen, b :: rest =>
    if digitByte b then continuesNumber point mark (seen + 1) rest
    else if b = 0x2E then !point && !mark && seen != 0 && continuesNumber true mark (seen + 1) rest
    else if b = 0x65 || b = 0x45 then
      !mark && seen != 0 && !rest.isEmpty && continuesNumber point true (seen + 1) rest
    else false

def looksNumeric (b : Bytes) : Bool := continuesNumber false false 0 b

/-- Takes one argument. -/
def step (state : Parsing) (arg : Bytes) : Except Stop Parsing :=
  if state.onlyValues then .error (.usage (.unknownArgument arg.display))
  else if state.wanting?.any Flag.takesDashes then state.takeValue arg
  else
    match arg with
    | 0x2D :: 0x2D :: [] => .ok { state with onlyValues := true }
    | 0x2D :: 0x2D :: body => state.long body
    | 0x2D :: b :: rest =>
      if state.wanting?.any Flag.takesNegativeNumbers && looksNumeric (b :: rest) then
        state.takeValue arg
      else cluster (pieces 0 (b :: rest)) state
    | _ => state.takeValue arg

/-- The first location flag that excludes others, with these. -/
def conflict? (used : List Flag) : Option (Flag × List Flag) :=
  match used.filter Flag.isLocation with
  | f :: g :: others => some (f, g :: others)
  | _ => none

/-- Takes the directory of kernel files from the variable when no flag gave it. -/
def settleSource (source : Option Bytes) (state : Parsing) : Parsing × Option UsageError :=
  match source with
  | some value =>
    if state.used.contains .kernelSource then (state, none)
    else state.settleFlag .kernelSource value
  | none => (state, none)

/-- Ends the arguments. -/
def finish (source : Option Bytes) (state : Parsing) : Except Stop Invocation := do
  let state ← orStop state.settle
  let state ← orStop (state.settleSource source)
  match conflict? state.used with
  | some (f, others) =>
    throw (.usage (.conflict f others (state.used.filter fun g => !others.contains g)))
  | none => return state.invocation

end Parsing

/-- The invocation that arguments spell; `source` is the value of the variable for kernel files. -/
def parseArguments (source : Option Bytes) (args : List Bytes) : Except Stop Invocation := do
  let state ← args.foldlM Parsing.step {}
  state.finish source

end KernelSpec
