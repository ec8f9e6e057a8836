import KernelSpec.Dictionary
import KernelSpec.Setting.Duration

/-! # Settings of the kernel

A setting is given by a flag and stored under a variable of the kernel's environment. Repeated
values of a setting with a separator are joined; otherwise the last value counts. `normalize`
checks one value, `fold` combines many.
-/

namespace KernelSpec

inductive Setting where
  | classpath
  | compilerOptions
  | startupScriptsPath
  | startupScript
  | timeout
deriving DecidableEq, Repr

/-- What a value of a setting has to look like. -/
inductive ValueKind where
  | text
  | duration
deriving DecidableEq, Repr

/-- Checks the form of a value. -/
def ValueKind.check (kind : ValueKind) (value : String) : Except ValueError Unit :=
  match kind with
  | .text => .ok ()
  | .duration => Duration.check value

/-- Values for variables of the kernel's environment. -/
abbrev Overrides := Dictionary String

namespace Setting

/-- All settings, in the order of the help text. -/
def all : List Setting :=
  [.classpath, .compilerOptions, .startupScriptsPath, .startupScript, .timeout]

/-- The long flag, without dashes. -/
def flag : Setting → String
  | .classpath => "classpath"
  | .compilerOptions => "comp-opts"
  | .startupScriptsPath => "startup-scripts-path"
  | .startupScript => "startup-script"
  | .timeout => "timeout"

/-- The variable that holds the value. -/
def envName : Setting → String
  | .classpath => "IJAVA_CLASSPATH"
  | .compilerOptions => "IJAVA_COMPILER_OPTS"
  | .startupScriptsPath => "IJAVA_STARTUP_SCRIPTS_PATH"
  | .startupScript => "IJAVA_STARTUP_SCRIPT"
  | .timeout => "IJAVA_TIMEOUT"

/-- What joins repeated values; without it the last value counts. -/
def separator? : Setting → Option String
  | .classpath => some ":"
  | .compilerOptions => some " "
  | .startupScriptsPath => some ":"
  | .startupScript => none
  | .timeout => none

/-- Other spellings of a value, each with the value it stands for. -/
def aliases : Setting → List (String × String)
  | .timeout => [("NO_TIMEOUT", "-1")]
  | _ => []

def kind : Setting → ValueKind
  | .timeout => .duration
  | _ => .text

theorem mem_all (s : Setting) : s ∈ all := by cases s <;> decide

theorem envName_injective {s t : Setting} (same : s.envName = t.envName) : s = t := by
  cases s <;> cases t <;> first | rfl | exact absurd same (by decide)

/-- The setting with the given flag. -/
def ofFlag? (flag : String) : Option Setting := all.find? fun s => s.flag == flag

/-- The value that a spelling stands for. -/
def resolveAlias (s : Setting) (raw : String) : String :=
  match s.aliases.find? fun entry => entry.1 == raw with
  | some entry => entry.2
  | none => raw

/-- The value that is stored for a value that was given. -/
def normalize (s : Setting) (raw : String) : Except ValueError String :=
  let value := s.resolveAlias raw
  (s.kind.check value).map fun _ => value

/-- Adds one more value of a setting. -/
def accumulate (overrides : Overrides) (s : Setting) (value : String) : Overrides :=
  match s.separator?, overrides.get? s.envName with
  | some separator, some before => overrides.insert s.envName (before ++ separator ++ value)
  | _, _ => overrides.insert s.envName value

/-- All values in the order given. -/
def fold (occurrences : List (Setting × String)) : Overrides :=
  occurrences.foldl (fun overrides entry => accumulate overrides entry.1 entry.2) []

end Setting

end KernelSpec
