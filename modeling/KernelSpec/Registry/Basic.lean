import KernelSpec.FileSystem.Copy
import KernelSpec.Registry.KernelName
import KernelSpec.Registry.Scope

/-! # Registries of kernels

A registry copies a directory of kernel files to where kernels of a scope are kept. The driver of
an installation works with any registry, which may keep a state `σ` of its own; `jupyter` is the
one that puts kernels into the kernels directory of the scope.
-/

namespace KernelSpec

/-- Steps of an installation; a failure keeps what was done before it. -/
abbrev Installing (α : Type) := ExceptT InstallError (StateM FileSystem) α

namespace Installing

/-- File operations as steps of an installation. -/
def ofDisk {α : Type} (wrap : Fault → InstallError) (steps : Disk α) : Installing α :=
  ExceptT.adapt wrap steps

/-- A result as a step. -/
def ofExcept {α : Type} (result : Except InstallError α) : Installing α :=
  ExceptT.mk (pure result)

end Installing

/-- What a registry is asked to install. -/
structure RegistryCall where
  source : Path
  name : String
  scope : Scope
  replace : Bool
deriving DecidableEq, Repr

/-- A way to install, with a state of its own beside the file system. -/
structure Registry (σ : Type) where
  install : RegistryCall → σ → FileSystem → Except InstallError Path × σ × FileSystem

namespace Registry

/-- Where a kernel of a name goes. -/
def destination (host : Host) (scope : Scope) (name : KernelName) : Except InstallError Path :=
  (scope.kernelsDir host).map fun dir => dir.child name.text

/-- Removes the kernel that is at the destination, if replacing is allowed. -/
def makeRoom (place : Path) (replace : Bool) : Installing Unit := do
  if (← get).pathExists place then
    if replace then
      Installing.ofDisk (fun fault => .copyFailed place (.removing fault)) (Disk.removePath place)
    else throw (.alreadyInstalled place)

/-- Installs into the kernels directory of the scope and gives the absolute path. -/
def installInto (host : Host) (call : RegistryCall) : Installing Path := do
  let name ← Installing.ofExcept (KernelName.parse call.name)
  if !(← get).isDir call.source then throw (.sourceNotFound call.source)
  let place ← Installing.ofExcept (destination host call.scope name)
  makeRoom place call.replace
  Installing.ofDisk (fun fault => .copyFailed place (.copying fault)) do
    Disk.copyTree call.source place
    Disk.ask (·.canonicalize place)

/-- The registry of a host, which keeps no state but the files. -/
def jupyter (host : Host) : Registry Unit where
  install call _ fs :=
    let (result, changed) := (installInto host call).run fs
    (result, (), changed)

end Registry

end KernelSpec
