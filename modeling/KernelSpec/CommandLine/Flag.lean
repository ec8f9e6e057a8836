import KernelSpec.Setting.Basic

/-! # Flags

Everything that is known about the flags of the command line: names, values and texts. Messages,
help and completion scripts are made from these declarations.
-/

namespace KernelSpec

/-- The name of the program. -/
def programName : String := "ijava-install"

/-- The version of the program. -/
def programVersion : String := "1.3.0"

/-- A shell for which there is a completion script. -/
inductive Shell where
  | bash
  | elvish
  | fish
  | powershell
  | zsh
deriving DecidableEq, Repr

namespace Shell

def all : List Shell := [.bash, .elvish, .fish, .powershell, .zsh]

def name : Shell → String
  | .bash => "bash"
  | .elvish => "elvish"
  | .fish => "fish"
  | .powershell => "powershell"
  | .zsh => "zsh"

def ofName? (name : String) : Option Shell := all.find? fun shell => shell.name == name

end Shell

inductive Flag where
  | user
  | environment
  | under
  | replace
  | setting (setting : Setting)
  | kernelSource
  | verbose
  | completions
  | help
  | version
deriving DecidableEq, Repr

namespace Flag

/-- All flags, in the order of their declaration. -/
def all : List Flag :=
  [.user, .environment, .under, .replace] ++ Setting.all.map .setting ++
    [.kernelSource, .verbose, .completions, .help, .version]

theorem mem_all (f : Flag) : f ∈ all := by
  cases f with
  | setting s => cases s <;> decide
  | _ => decide

/-- The long name, without dashes. -/
def name : Flag → String
  | .user => "user"
  | .environment => "sys-prefix"
  | .under => "prefix"
  | .replace => "replace"
  | .setting s => s.flag
  | .kernelSource => "kernel-source"
  | .verbose => "verbose"
  | .completions => "completions"
  | .help => "help"
  | .version => "version"

def ofName? (name : String) : Option Flag := all.find? fun f => f.name == name

def short? : Flag → Option Char
  | .verbose => some 'v'
  | .help => some 'h'
  | .version => some 'V'
  | _ => none

def ofShort? (c : Char) : Option Flag := all.find? fun f => f.short? == some c

/-- How the value of an option is called; a flag without it takes no value. -/
def valueName? : Flag → Option String
  | .under => some "PREFIX"
  | .setting .classpath => some "CLASSPATH"
  | .setting .compilerOptions => some "COMP_OPTS"
  | .setting .startupScriptsPath => some "STARTUP_SCRIPTS_PATH"
  | .setting .startupScript => some "STARTUP_SCRIPT"
  | .setting .timeout => some "TIMEOUT"
  | .kernelSource => some "DIR"
  | .completions => some "SHELL"
  | _ => none

def takesValue (f : Flag) : Bool := f.valueName?.isSome

/-- Only settings may be given more than once. -/
def isRepeatable : Flag → Bool
  | .setting _ => true
  | _ => false

/-- Whether the value is the path of a file. -/
def takesPath : Flag → Bool
  | .under => true
  | .kernelSource => true
  | _ => false

/-- Any value may begin with a dash. -/
def takesDashes : Flag → Bool
  | .setting .compilerOptions => true
  | _ => false

/-- A value may be a negative number. -/
def takesNegativeNumbers : Flag → Bool
  | .setting .timeout => true
  | _ => false

/-- The flags that say where to install, of which one may be given. -/
def isLocation : Flag → Bool
  | .user => true
  | .environment => true
  | .under => true
  | _ => false

/-- The flags that only ask for information. -/
def isInformation : Flag → Bool
  | .help => true
  | .version => true
  | _ => false

/-- The flag with its value as messages show it. -/
def display (f : Flag) : String :=
  match f.valueName? with
  | some value => s!"--{f.name} <{value}>"
  | none => s!"--{f.name}"

/-- The note on list-valued settings about separators within paths. -/
def slashNote : String :=
  "**Important:** no matter what OS, this should use forward slash \"/\" as the file separator. " ++
    "Also each path may actually be a simple glob"

/-- What the flag does. -/
def about : Flag → String
  | .user => "Install to the per-user kernel registry"
  | .environment => "Install to Python's sys.prefix. Useful in conda/virtual environments"
  | .under =>
    "Specify a prefix to install to, e.g. an env. The kernelspec will be installed in " ++
      "PREFIX/share/jupyter/kernels/ An empty PREFIX selects the system-wide registry"
  | .replace => "Replace any existing kernel spec with this name"
  | .setting .classpath =>
    "A file path separator delimited list of classpath entries that should be available to the " ++
      "user code. " ++ slashNote
  | .setting .compilerOptions =>
    "A space delimited list of command line options that would be passed to the `javac` command " ++
      "when compiling a project. For example `-parameters` to enable retaining parameter names " ++
      "for reflection"
  | .setting .startupScriptsPath =>
    "A file path separator delimited list of `.jshell` scripts to run on startup. This includes " ++
      "ijava-jshell-init.jshell and ijava-display-init.jshell. " ++ slashNote
  | .setting .startupScript =>
    "A block of java code to run when the kernel starts up. This may be something like " ++
      "`import my.utils;` to setup some default imports or a default utility method to use in " ++
      "the notebook"
  | .setting .timeout =>
    "A duration specifying a timeout (in milliseconds by default) for a single top level " ++
      "statement. If less than `1` then there is no timeout. A `TimeUnit` may follow the number " ++
      "(ex `\"30 SECONDS\"`). `NO_TIMEOUT` is an alias for `-1`"
  | .kernelSource => "Directory holding the kernel files to install (must contain kernel.json)"
  | .verbose => "Enable verbose output"
  | .completions => "Print a shell completion script and exit"
  | .help => "Print help (see more with '--help')"
  | .version => "Print version"

end Flag

end KernelSpec
