import KernelSpec.Error
import KernelSpec.FileSystem.Operation
import KernelSpec.Json.Reader
import KernelSpec.Json.Writer
import KernelSpec.Setting.Basic
import KernelSpec.Text.Replace

/-! # Kernel descriptors

The descriptor of a kernel is the JSON object in `kernel.json`. A template of it may hold a token
in the place of the directory the kernel is installed to. Rendering puts that directory in, reads
the result and merges variables into the member `env`.
-/

namespace KernelSpec.Descriptor

/-- The file of a descriptor in the directory of a kernel. -/
def fileName : String := "kernel.json"

/-- Stands in a template for the directory the kernel is installed to. -/
def token : String := "@KERNEL_INSTALL_DIRECTORY@"

/-- The member that holds the variables of the kernel's process. -/
def envKey : String := "env"

/-- A path as it stands between the quotes of a JSON string. -/
def pathFragment (dir : Path) : Except InstallError String :=
  match dir.bytes.text? with
  | some text => .ok (Json.escapeText text)
  | none => .error (.nonUtf8Path dir)

/-- The template with the directory in the place of every token. -/
def substitute (template : String) (dir : Path) : Except InstallError String :=
  (pathFragment dir).map fun fragment =>
    String.ofList (Text.replaceAll token.toList fragment.toList template.toList)

/-- The members of an object with the given variables added, later ones winning. -/
def addVariables (members : Dictionary Json.Value) (overrides : Overrides) :
    Dictionary Json.Value :=
  overrides.foldl (fun env entry => env.insert entry.1 (.string entry.2)) members

/-- Steps that change a value in place; a failure keeps what was done before it. -/
abbrev Editing (α : Type) := ExceptT DescriptorError (StateM Json.Value) α

/-- The members with an empty object as `env`, unless there is a member of this name. -/
def withEnv (members : Dictionary Json.Value) : Dictionary Json.Value :=
  if (members.get? envKey).isSome then members
  else Dictionary.insert envKey (.object []) members

/-- Adds variables to the object `env` among the members. -/
def fillEnv (overrides : Overrides) (members : Dictionary Json.Value) : Editing Unit :=
  match members.get? envKey with
  | some (.object env) =>
    set (Json.Value.object
      (Dictionary.insert envKey (.object (addVariables env overrides)) members))
  | _ => throw .envNotObject

/-- Adds variables to the member `env`. The member is made when it is missing, before it is looked
at. -/
def addEnv (overrides : Overrides) : Editing Unit := do
  match ← get with
  | .object members =>
    set (Json.Value.object (withEnv members))
    fillEnv overrides (withEnv members)
  | _ => throw .notObject

/-- A value with variables added to its member `env`. -/
def mergeEnv (overrides : Overrides) (value : Json.Value) : Except DescriptorError Json.Value :=
  match (addEnv overrides).run value with
  | (.ok _, merged) => .ok merged
  | (.error e, _) => .error e

/-- The descriptor that a template text gives; `path` is where the template is, for messages. -/
def renderText (path : Path) (template : String) (dir : Path) (overrides : Overrides) :
    Except InstallError Json.Value := do
  let text ← substitute template dir
  let value ← (Json.read text).mapError (.templateParseFailed path)
  (mergeEnv overrides value).mapError .invalidDescriptor

/-- The text of a template file. -/
def readTemplate (fs : FileSystem) (path : Path) : Except InstallError String :=
  match fs.readFile path with
  | .ok (content, _) =>
    match content.text? with
    | some text => .ok text
    | none => .error (.templateReadFailed path)
  | .error _ => .error (.templateReadFailed path)

/-- The descriptor that a template file gives. -/
def render (fs : FileSystem) (path dir : Path) (overrides : Overrides) :
    Except InstallError Json.Value := do
  let template ← readTemplate fs path
  renderText path template dir overrides

/-- Writes a descriptor to a file. -/
def write (path : Path) (descriptor : Json.Value) (fs : FileSystem) :
    Except InstallError FileSystem :=
  (fs.writeFile path (Bytes.ofString (Json.write descriptor))).mapError fun _ =>
    .descriptorWriteFailed path

end KernelSpec.Descriptor
