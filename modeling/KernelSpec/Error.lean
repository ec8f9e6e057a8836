import KernelSpec.FileSystem.Fault
import KernelSpec.Host
import KernelSpec.Json.Reader

/-! # Why an installation fails

Each error holds what it is about; the wording is in `message`, `code` and `help?` only.
-/

namespace KernelSpec

/-- Why an interpreter gave no prefix. -/
inductive ProbeError where
  | noInterpreter
  | emptyAnswer (interpreter : String)
  | failed (interpreter : String) (status : ExitStatus)
  | notStarted (interpreter : String) (fault : Fault)
deriving DecidableEq, Repr

def ProbeError.message : ProbeError → String
  | .noInterpreter => "no Python interpreter found"
  | .emptyAnswer interpreter => s!"{interpreter} reported an empty sys.prefix"
  | .failed interpreter status => s!"{interpreter} exited with {status.text}"
  | .notStarted interpreter fault => s!"{interpreter}: {fault.message}"

/-- What went wrong while kernel files were copied. -/
inductive CopyError where
  /-- The kernel that was there could not be removed. -/
  | removing (fault : Fault)
  | copying (fault : Fault)
deriving DecidableEq, Repr

def CopyError.message : CopyError → String
  | .removing fault => s!"could not remove existing kernel spec: {fault.message}"
  | .copying fault => fault.message

/-- Why a JSON value is no kernel descriptor. -/
inductive DescriptorError where
  | notObject
  | envNotObject
deriving DecidableEq, Repr

def DescriptorError.message : DescriptorError → String
  | .notObject => "top-level value must be a JSON object"
  | .envNotObject => "\"env\" must be a JSON object"

inductive InstallError where
  | sourceNotFound (path : Path)
  | invalidKernelName (name : String)
  | alreadyInstalled (path : Path)
  | copyFailed (path : Path) (reason : CopyError)
  | dataDirUnavailable
  | sysPrefixUnavailable (reason : ProbeError)
  | nonUtf8Path (path : Path)
  | templateReadFailed (path : Path)
  | templateParseFailed (path : Path) (reason : Json.SyntaxError)
  | invalidDescriptor (reason : DescriptorError)
  | descriptorWriteFailed (path : Path)
deriving DecidableEq, Repr

namespace InstallError

def message : InstallError → String
  | .sourceNotFound path => s!"Kernel source directory not found: {path.display}"
  | .invalidKernelName name => s!"Invalid kernel name: {name}"
  | .alreadyInstalled path => s!"A kernel spec already exists at {path.display}"
  | .copyFailed path reason =>
    s!"Failed to copy kernel files into {path.display}: {reason.message}"
  | .dataDirUnavailable => "Could not determine the Jupyter data directory"
  | .sysPrefixUnavailable reason =>
    s!"Could not determine the Python environment prefix: {reason.message}"
  | .nonUtf8Path path => s!"Install path is not valid UTF-8: {path.display}"
  | .templateReadFailed path => s!"Failed to read kernel template: {path.display}"
  | .templateParseFailed path reason =>
    s!"Kernel template is not valid JSON after substitution: {path.display}: {reason.message}"
  | .invalidDescriptor reason => s!"Invalid kernel descriptor: {reason.message}"
  | .descriptorWriteFailed path => s!"Failed to write kernel descriptor: {path.display}"

/-- A stable name of the kind of error. -/
def code : InstallError → String
  | .sourceNotFound _ => "ijava::registry::source_not_found"
  | .invalidKernelName _ => "ijava::registry::invalid_name"
  | .alreadyInstalled _ => "ijava::registry::already_installed"
  | .copyFailed _ _ => "ijava::registry::copy_failed"
  | .dataDirUnavailable => "ijava::registry::no_data_dir"
  | .sysPrefixUnavailable _ => "ijava::registry::no_sys_prefix"
  | .nonUtf8Path _ => "ijava::registry::non_utf8_path"
  | .templateReadFailed _ => "ijava::template::read_failed"
  | .templateParseFailed _ _ => "ijava::template::parse_failed"
  | .invalidDescriptor _ => "ijava::template::invalid_descriptor"
  | .descriptorWriteFailed _ => "ijava::template::write_failed"

/-- What the user can do about it. -/
def help? : InstallError → Option String
  | .sourceNotFound _ =>
    some ("Pass --kernel-source or set IJAVA_KERNEL_SOURCE to the directory containing " ++
      "kernel.json")
  | .invalidKernelName _ =>
    some "Kernel names may only contain ASCII letters, digits, '.', '_' and '-'"
  | .alreadyInstalled _ => some "Re-run with --replace to overwrite the existing kernel spec"
  | .dataDirUnavailable => some "Set JUPYTER_DATA_DIR or use --prefix"
  | .sysPrefixUnavailable _ =>
    some "Activate the environment (VIRTUAL_ENV/CONDA_PREFIX) or use --prefix"
  | .templateParseFailed _ _ =>
    some ("The template or the install path produced malformed JSON; the kernel files were " ++
      "copied but kernel.json was not patched")
  | _ => none

end InstallError

end KernelSpec
