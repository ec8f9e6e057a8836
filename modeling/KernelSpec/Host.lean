import KernelSpec.FileSystem.Fault
import KernelSpec.Text.Blank

/-! # The host

What an installation sees of the machine besides the file system: variables, the outcome of
starting an interpreter, where the program's own kernel files are, and the home directory that the
machine has on record for the user's account.
-/

namespace KernelSpec

/-- How a process ended. -/
inductive ExitStatus where
  | exited (code : Nat)
  | signalled (number : Nat)
deriving DecidableEq, Repr

namespace ExitStatus

def signalNames : List (Nat × String) :=
  [(1, "SIGHUP"), (2, "SIGINT"), (3, "SIGQUIT"), (4, "SIGILL"), (5, "SIGTRAP"), (6, "SIGABRT"),
    (7, "SIGBUS"), (8, "SIGFPE"), (9, "SIGKILL"), (10, "SIGUSR1"), (11, "SIGSEGV"),
    (12, "SIGUSR2"), (13, "SIGPIPE"), (14, "SIGALRM"), (15, "SIGTERM")]

def isSuccess (status : ExitStatus) : Bool := status == .exited 0

def text : ExitStatus → String
  | .exited code => s!"exit status: {code}"
  | .signalled number =>
    match signalNames.lookup number with
    | some name => s!"signal: {number} ({name})"
    | none => s!"signal: {number}"

end ExitStatus

/-- What comes of asking an interpreter for its prefix. -/
inductive Probe where
  | notStarted (fault : Fault)
  | finished (status : ExitStatus) (output : Bytes)
deriving DecidableEq, Repr

structure Host where
  /-- The variables that are set. -/
  vars : List (String × Bytes)
  /-- What the interpreter of a name answers. -/
  probe : String → Probe
  /-- The directory of the program. -/
  programDir : Option Path
  /-- The kernel files that belong to the program. -/
  bundledDir : Path
  /-- The home directory of the user's account, if one is on record. -/
  accountHome : Option Path := none

namespace Host

/-- The value of a variable that is set. -/
def var? (host : Host) (name : String) : Option Bytes := host.vars.lookup name

/-- The value of a variable that is set and not empty. -/
def filled? (host : Host) (name : String) : Option Bytes :=
  (host.var? name).filter fun value => !value.isEmpty

/-- The user's home directory: that of the account counts when `HOME` is unset or empty. -/
def home? (host : Host) : Option Path :=
  ((host.filled? "HOME").map Path.mk).or host.accountHome

end Host

end KernelSpec
