import KernelSpec.Error
import KernelSpec.Host
import KernelSpec.Text.Blank

/-! # Where kernels are installed

A location is what the command line asks for; a scope is where that is on a host. Each scope has a
directory of kernels.
-/

namespace KernelSpec

/-- A place to install to, as asked for. -/
inductive Location where
  | user
  /-- The prefix of the active environment. -/
  | environment
  /-- The given directory, or the system when none or an empty one is given. -/
  | under (dir : Option Path)
deriving DecidableEq, Repr

/-- A place to install to. -/
inductive Scope where
  | user
  | under (dir : Path)
  | system
deriving DecidableEq, Repr

namespace Scope

def display : Scope → String
  | .user => "user"
  | .under dir => s!"prefix {dir.display}"
  | .system => "system"

/-- The variables that hold the prefix of an active environment. -/
def environmentVariables : List String := ["VIRTUAL_ENV", "CONDA_PREFIX"]

/-- The interpreters asked for a prefix, in order. -/
def interpreters : List String := ["python3", "python"]

/-- The prefix in the answer of an interpreter: the text it printed, without blanks at the ends. -/
def prefixIn (interpreter : String) : Probe → Except ProbeError Path
  | .notStarted fault => .error (.notStarted interpreter fault)
  | .finished status output =>
    let text := Text.trim output.display
    if !status.isSuccess then .error (.failed interpreter status)
    else if text.isEmpty then .error (.emptyAnswer interpreter)
    else .ok (.ofString text)

/-- Asks interpreters one after another; the last failure is reported. -/
def probeAll (host : Host) : ProbeError → List String → Except ProbeError Path
  | last, [] => .error last
  | _, interpreter :: rest =>
    match prefixIn interpreter (host.probe interpreter) with
    | .ok path => .ok path
    | .error failure => probeAll host failure rest

/-- The prefix of the active environment. -/
def environmentPrefix (host : Host) : Except InstallError Path :=
  match environmentVariables.findSome? host.filled? with
  | some dir => .ok ⟨dir⟩
  | none => (probeAll host .noInterpreter interpreters).mapError .sysPrefixUnavailable

/-- The directory for the data of programs: `XDG_DATA_HOME` counts only when it is absolute. -/
def userShare? (host : Host) : Option Path :=
  match (host.var? "XDG_DATA_HOME").filter fun dir => (Path.mk dir).isAbsolute with
  | some dir => some ⟨dir⟩
  | none => host.home?.map fun home => (home.child ".local").child "share"

/-- The user's directory for Jupyter data. -/
def userDataDir (host : Host) : Except InstallError Path :=
  match host.filled? "JUPYTER_DATA_DIR" with
  | some dir => .ok ⟨dir⟩
  | none =>
    match userShare? host with
    | some dir => .ok (dir.child "jupyter")
    | none => .error .dataDirUnavailable

/-- The directory for Jupyter data of a scope. -/
def dataDir (host : Host) : Scope → Except InstallError Path
  | .user => userDataDir host
  | .under dir => .ok ((dir.child "share").child "jupyter")
  | .system => .ok (.ofString "/usr/local/share/jupyter")

/-- The directory of the kernels of a scope. -/
def kernelsDir (host : Host) (scope : Scope) : Except InstallError Path :=
  (scope.dataDir host).map fun dir => dir.child "kernels"

end Scope

/-- Where a location is on a host. -/
def Location.resolve (host : Host) : Location → Except InstallError Scope
  | .user => .ok .user
  | .environment => (Scope.environmentPrefix host).map .under
  | .under (some dir) => .ok (if dir.isEmpty then .system else .under dir)
  | .under none => .ok .system

end KernelSpec
