import KernelSpec.CommandLine.Parse
import KernelSpec.Completion
import KernelSpec.Installer

/-! # The program

From arguments to what is printed, the exit code and the files left behind.
-/

namespace KernelSpec

namespace Host

/-- The value of the variable for kernel files. -/
def source? (host : Host) : Option Bytes := host.var? Help.sourceVariable

/-- Whether progress is coloured even though it goes to no terminal. -/
def forcesColor (host : Host) : Bool :=
  match (host.var? "CLICOLOR_FORCE").bind Bytes.text? with
  | some value => value != "0"
  | none => false

end Host

/-- The name under which the kernel is installed. -/
def kernelName : String := "java"

/-- What running a command printed, its result, and the files it left. -/
structure Ran where
  result : Except InstallError Unit
  stdout : String
  stderr : String
  files : FileSystem

namespace Invocation

/-- The directories that kernel files may come from. -/
def sources (invocation : Invocation) (host : Host) : List Path :=
  match invocation.kernelSource? with
  | some dir => [dir]
  | none => (host.programDir.map (·.child kernelName)).toList ++ [host.bundledDir]

/-- Where the kernel files go. -/
def destination? (invocation : Invocation) (host : Host) : Option Path := do
  let scope ← (invocation.location.resolve host).toOption
  let dir ← (scope.kernelsDir host).toOption
  return dir.child kernelName

/-- The directory of the kernel files: the one given, else the directory beside the program when
there is one, else the one that belongs to the program. -/
def sourceDir (invocation : Invocation) (host : Host) (fs : FileSystem) : Path :=
  match invocation.kernelSource? with
  | some dir => dir
  | none =>
    match (host.programDir.map (·.child kernelName)).filter fs.isDir with
    | some dir => dir
    | none => host.bundledDir

/-- The installation that is asked for, in a scope. -/
def request (invocation : Invocation) (host : Host) (fs : FileSystem) (scope : Scope) :
    InstallRequest :=
  { source := invocation.sourceDir host fs
    name := kernelName
    scope := scope
    replace := invocation.replace
    overrides := invocation.overrides }

/-- The last line of an installation. -/
def confirmation (dir : Path) : String :=
  s!"Installed {kernelName} kernel into \"{dir.display}\"\n"

/-- Runs the installation. -/
def runInstall (invocation : Invocation) (host : Host) (colored : Bool) (fs : FileSystem) : Ran :=
  match invocation.location.resolve host with
  | .error e => ⟨.error e, "", "", fs⟩
  | .ok scope =>
    let done := (invocation.request host fs scope).install (Registry.jupyter host) () fs
    let progress := Step.report invocation.verbose colored done.steps
    match done.result with
    | .error e => ⟨.error e, "", progress, done.files⟩
    | .ok dir => ⟨.ok (), confirmation dir, progress, done.files⟩

/-- Runs what is asked for: printing a completion script, or the installation. -/
def run (invocation : Invocation) (host : Host) (colored : Bool) (fs : FileSystem) : Ran :=
  match invocation.completions? with
  | some shell => ⟨.ok (), shell.script, "", fs⟩
  | none => invocation.runInstall host colored fs

end Invocation

namespace Stop

/-- What is printed when reading the command line ends without an invocation. -/
def message (source : Option Bytes) : Stop → String
  | .help style => Help.text style source
  | .version => Help.versionText
  | .usage error => error.message

/-- Whether this is an error rather than an answer. -/
def isError : Stop → Bool
  | .usage _ => true
  | _ => false

def exitCode (stop : Stop) : Nat := if stop.isError then 2 else 0

end Stop

/-- How the process ended. -/
structure Finished where
  exitCode : Nat
  stdout : String
  stderr : String
  files : FileSystem

/-- The lines for an error of an installation. -/
def InstallError.report (e : InstallError) : String :=
  s!"Error: {e.message}\n" ++ e.help?.elim "" fun help => s!"  help: {help}\n"

/-- The whole program. -/
def runProgram (host : Host) (args : List Bytes) (fs : FileSystem) : Finished :=
  match parseArguments host.source? args with
  | .error stop =>
    let message := stop.message host.source?
    if stop.isError then ⟨stop.exitCode, "", message, fs⟩ else ⟨stop.exitCode, message, "", fs⟩
  | .ok invocation =>
    let ran := invocation.run host host.forcesColor fs
    match ran.result with
    | .ok () => ⟨0, ran.stdout, ran.stderr, ran.files⟩
    | .error e => ⟨1, ran.stdout, ran.stderr ++ e.report, ran.files⟩

end KernelSpec
