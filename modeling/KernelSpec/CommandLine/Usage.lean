import KernelSpec.CommandLine.Flag
import KernelSpec.Text.Bytes

/-! # Errors of usage

Why a command line is refused, and the message for it.
-/

namespace KernelSpec

inductive UsageError where
  /-- An argument that is no flag; when a flag is similar it is named, and the usage shows the
  flags used so far and that flag. -/
  | unknownLong (name : String) (similar : Option Flag) (used : List Flag)
  | unknownArgument (shown : String)
  /-- A value given with `=` to a flag that takes none. -/
  | unexpectedValue (flag : Flag) (value : String) (used : List Flag)
  | missingValue (flag : Flag)
  | repeatedFlag (flag : Flag)
  | invalidUtf8
  | invalidSetting (setting : Setting) (raw : String) (cause : ValueError)
  | unknownShell (value : String) (similar : Option Shell)
  /-- A flag together with others that exclude it; `used` are the flags without the others. -/
  | conflict (flag : Flag) (others : List Flag) (used : List Flag)
deriving DecidableEq, Repr

namespace UsageError

/-- The usage when nothing more is known. -/
def anyOptions : String := "[OPTIONS]"

def displays (flags : List Flag) : String := " ".intercalate (flags.map Flag.display)

/-- The flags used, or any options when there are none. -/
def usageOf (used : List Flag) : String := if used.isEmpty then anyOptions else displays used

/-- A choice of flags. -/
def group (flags : List Flag) : String :=
  let choices := "|".intercalate (flags.map Flag.display)
  s!"<{choices}>"

/-- The usage for a value that was not expected. -/
def usageWithGroups (flag : Flag) (used : List Flag) : String :=
  if used.isEmpty then flag.display
  else
    let own := if flag.isInformation then [flag.display] else []
    let options := group (Flag.all.filter fun f => !f.isInformation)
    let locations := group (Flag.all.filter Flag.isLocation)
    let location := if used.any Flag.isLocation then [locations] else []
    " ".intercalate (own ++ [options] ++ location)

/-- The names of the shells, as messages and help list them. -/
def possibleShells : String :=
  let names := ", ".intercalate (Shell.all.map Shell.name)
  s!"[possible values: {names}]"

/-- The values that an option takes, where they can be listed. -/
def valuesLine : Flag → String
  | .completions => s!"\n  {possibleShells}"
  | _ => ""

/-- The first part of the message. -/
def text : UsageError → String
  | .unknownLong name _ _ => s!"unexpected argument '--{name}' found"
  | .unknownArgument shown => s!"unexpected argument '{shown}' found"
  | .unexpectedValue flag value _ =>
    s!"unexpected value '{value}' for '{flag.display}' found; no more were expected"
  | .missingValue flag =>
    s!"a value is required for '{flag.display}' but none was supplied{valuesLine flag}"
  | .repeatedFlag flag => s!"the argument '{flag.display}' cannot be used multiple times"
  | .invalidUtf8 => "invalid UTF-8 was detected in one or more arguments"
  | .invalidSetting setting raw cause =>
    s!"invalid value '{raw}' for '{(Flag.setting setting).display}': {cause.message}"
  | .unknownShell value _ =>
    s!"invalid value '{value}' for '{Flag.completions.display}'{valuesLine .completions}"
  | .conflict flag [other] _ =>
    s!"the argument '{flag.display}' cannot be used with '{other.display}'"
  | .conflict flag others _ =>
    s!"the argument '{flag.display}' cannot be used with:" ++
      String.join (others.map fun other => s!"\n  {other.display}")

/-- A suggestion. -/
def tip? : UsageError → Option String
  | .unknownLong _ (some flag) _ => some s!"a similar argument exists: '--{flag.name}'"
  | .unknownShell _ (some shell) => some s!"a similar value exists: '{shell.name}'"
  | _ => none

/-- The usage, where the message shows one. -/
def usage? : UsageError → Option String
  | .unknownLong _ (some flag) used =>
    some (usageOf (if used.contains flag then used else used ++ [flag]))
  | .unknownLong _ none used => some (usageOf used)
  | .unknownArgument _ => some anyOptions
  | .unexpectedValue flag _ used => some (usageWithGroups flag used)
  | .repeatedFlag _ => some anyOptions
  | .invalidUtf8 => some anyOptions
  | .conflict _ _ used => some (usageOf used)
  | .missingValue _ => none
  | .invalidSetting _ _ _ => none
  | .unknownShell _ _ => none

/-- The whole message. -/
def message (e : UsageError) : String :=
  let tip := e.tip?.elim "" fun tip => s!"\n  tip: {tip}\n"
  let usage := e.usage?.elim "" fun usage => s!"\nUsage: {programName} {usage}\n"
  s!"error: {e.text}\n{tip}{usage}\nFor more information, try '--help'.\n"

end UsageError

end KernelSpec
