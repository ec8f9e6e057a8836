import KernelSpec.Descriptor
import KernelSpec.Registry.Basic
import KernelSpec.Report

/-! # Installing a kernel

The driver asks a registry to copy the kernel files, renders the descriptor from the template in
the source and writes it into the installed directory. Nothing is undone: when rendering fails, the
copied files stay, with the descriptor as it was copied.
-/

namespace KernelSpec

/-- Everything needed for one installation. -/
structure InstallRequest where
  source : Path
  name : String
  scope : Scope
  replace : Bool
  overrides : Overrides
deriving DecidableEq, Repr

/-- What an installation did: the steps reported, the result, and the states it left. -/
structure Installation (σ : Type) where
  steps : List Step
  result : Except InstallError Path
  registry : σ
  files : FileSystem

namespace InstallRequest

/-- What the registry is asked for. -/
def call (request : InstallRequest) : RegistryCall :=
  ⟨request.source, request.name, request.scope, request.replace⟩

/-- The steps before the registry is asked. -/
def openingSteps (request : InstallRequest) : List Step :=
  [⟨"Scope", request.scope.display⟩, ⟨"Source", request.source.display⟩]

/-- One step for each variable, in the order of the names. -/
def envSteps (request : InstallRequest) : List Step :=
  request.overrides.map fun entry => ⟨"Env", s!"{entry.1}={entry.2}"⟩

/-- Renders the descriptor for the installed directory and writes it there: the steps reported and
the files afterwards. -/
def patch (request : InstallRequest) (dir : Path) (fs : FileSystem) :
    List Step × Except InstallError FileSystem :=
  match Descriptor.render fs (request.source.child Descriptor.fileName) dir request.overrides with
  | .error e => ([], .error e)
  | .ok descriptor =>
    let path := dir.child Descriptor.fileName
    match Descriptor.write path descriptor fs with
    | .error e => (request.envSteps, .error e)
    | .ok changed => (request.envSteps ++ [⟨"Patched", path.display⟩], .ok changed)

/-- Installs through a registry. -/
def install {σ : Type} (registry : Registry σ) (request : InstallRequest) (state : σ)
    (fs : FileSystem) : Installation σ :=
  match registry.install request.call state fs with
  | (.error e, state, fs) => ⟨request.openingSteps, .error e, state, fs⟩
  | (.ok dir, state, fs) =>
    let steps := request.openingSteps ++ [⟨"Copied", dir.display⟩]
    match request.patch dir fs with
    | (more, .error e) => ⟨steps ++ more, .error e, state, fs⟩
    | (more, .ok changed) => ⟨steps ++ more, .ok dir, state, changed⟩

end InstallRequest

end KernelSpec
