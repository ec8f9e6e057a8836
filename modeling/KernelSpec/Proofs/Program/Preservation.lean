import KernelSpec.Proofs.Program
import KernelSpec.Proofs.Registry.Place

/-! # What a run leaves alone

A run that is not told to replace leaves everything that was there as it was, whether it succeeds or
fails (`run_extends`): the kernel files go to a new directory, and so does the descriptor, which is
written last. This takes that each `..` of the destination is reached. Otherwise the destination may
come to be a kernel that was there before and was not looked at (`run_overwrites`).
-/

namespace KernelSpec

open FileSystem KernelSpec.Path

namespace InstallRequest

variable {host : Host} {request : InstallRequest} {fs : FileSystem}

/-- The descriptor is written into the new tree. -/
theorem grown_write {before changed : FileSystem} {top : Loc} {descriptor : Json.Value}
    (grown : Grown before fs top) (notRoot : top ≠ []) (isDir : fs.kind? top = some .dir)
    (written : Descriptor.write ((pathOf top).child Descriptor.fileName) descriptor fs =
      .ok changed) : Grown before changed top ∧ changed.kind? top = some .dir :=
  grown.writeFile notRoot isDir (by decide) (mapError_eq_ok_iff.mp written)

/-- An installation that replaces nothing leaves everything as it was. -/
theorem install_extends {name : KernelName} (parsed : KernelName.parse request.name = .ok name)
    (isName : IsName (Bytes.ofString name.text)) (keeps : request.replace = false)
    (named : fs.WellNamed)
    (reached : ∀ kernels, request.scope.kernelsDir host = .ok kernels →
      fs.pathExists (kernels.child name.text) = false → Reached fs (kernels.child name.text)) :
    Extends fs (request.install (Registry.jupyter host) () fs).files := by
  have files := files_install (Registry.jupyter host) request () fs
  have parsed : KernelName.parse request.call.name = .ok name := parsed
  -- What is seen at the destination makes the installation fail.
  have absent : ∀ {place : Path}, (fs.pathExists place = true → request.call.replace = true) →
      ¬ fs.pathExists place = true := by
    intro place allowed taken
    have replaced : request.replace = true := allowed taken
    rw [keeps] at replaced
    cases replaced
  obtain ⟨_, failed, unchanged⟩ | ⟨kernels, cleared, result, found, room, allowed, copied, done⟩ :=
    Registry.install_treeCopied parsed isName fun kernels found allowed => by
      rw [Registry.without_of_absent (absent allowed)]
      exact reached kernels found (Bool.eq_false_iff.mpr (absent allowed))
  · obtain same | ⟨_, _, answered, _⟩ := files
    · rw [same, unchanged]
      exact .refl fs
    · cases failed.symm.trans answered
  · have ends : (kernels.join ⟨Bytes.ofString name.text⟩).segments = _ :=
      segments_place isName
    have larger := room.larger
    rw [Registry.without_of_absent (absent allowed)] at larger
    have named := room.smaller.wellNamed named
    obtain same | ⟨dir, descriptor, answered, written⟩ := files
    · rw [same]
      exact larger.trans (copied.extends ends named)
    · obtain ⟨rfl, found⟩ := done dir answered
      obtain ⟨mid, above, opened, grown, isDir, rfl⟩ := copied.canonicalize ends named found
      have grown := (grown_write grown (by simp) isDir written).1
      exact larger.trans
        (opened.raised.toExtends.trans (grown.extends opened.leads.vacancy.2))

end InstallRequest

namespace Invocation

variable {invocation : Invocation} {host : Host} {colored : Bool} {fs : FileSystem}

theorem files_runInstall {scope : Scope} (resolved : invocation.location.resolve host = .ok scope) :
    (invocation.runInstall host colored fs).files =
      ((invocation.request host fs scope).install (Registry.jupyter host) () fs).files := by
  unfold runInstall
  rw [resolved]
  simp only
  cases ((invocation.request host fs scope).install (Registry.jupyter host) () fs).result <;> rfl

theorem destination?_eq_some {scope : Scope} {kernels : Path}
    (resolved : invocation.location.resolve host = .ok scope)
    (found : scope.kernelsDir host = .ok kernels) :
    invocation.destination? host = some (kernels.child kernelName) := by
  rw [destination?, resolved]
  change (scope.kernelsDir host).toOption.bind _ = _
  rw [found]
  rfl

/-- Without `--replace`, a run leaves everything that was there as it was. -/
theorem run_extends (keeps : invocation.replace = false) (named : fs.WellNamed)
    (reached : ∀ place, invocation.destination? host = some place → fs.pathExists place = false →
      Reached fs place) :
    Extends fs (invocation.run host colored fs).files := by
  unfold run
  split
  · exact .refl fs
  · cases resolved : invocation.location.resolve host with
    | error =>
      rw [runInstall, resolved]
      exact .refl fs
    | ok scope =>
      have java : KernelName.parse kernelName = .ok ⟨kernelName⟩ := by decide +kernel
      rw [files_runInstall resolved]
      refine InstallRequest.install_extends java (by decide +kernel) keeps named ?_
      exact fun kernels found => reached _ (destination?_eq_some resolved found)

/-- A kernel with a descriptor of its own, and a template for another one. -/
def keptFiles : FileSystem :=
  ⟨Registry.directory
    [("src", Registry.directory [("kernel.json", .file (Bytes.ofString "\x7b\x7d") false)]),
     ("p", Registry.directory [("share", Registry.directory [("jupyter", Registry.directory
      [("kernels", Registry.directory [("java", Registry.directory
        [("kernel.json", .file (Bytes.ofString "\x7b\"old\":1\x7d") false)])])])])])], []⟩

/-- A new kernel under a prefix with a `..` that is reached. -/
theorem run_extends_sample :
    let invocation : Invocation :=
      { under? := some (.ofString "p/../q"), kernelSource? := some (.ofString "src") }
    let ran := invocation.run Registry.bareHost false keptFiles
    ran.result = .ok () ∧ Extends keptFiles ran.files := by
  intro invocation ran
  refine ⟨by decide +kernel, run_extends rfl ?_ ?_⟩
  · exact Registry.wellNamed_of_objects (by decide +kernel)
  · intro place destined _
    have found : invocation.destination? Registry.bareHost =
        some (.ofString "p/../q/share/jupyter/kernels/java") := by
      decide +kernel
    cases found.symm.trans destined
    decide +kernel

/-- A kernel is overwritten when a `..` of the prefix is not reached: the path to it leads nowhere
until a directory is made for it. -/
theorem run_overwrites :
    let args := ["--prefix", "missing/../p", "--kernel-source", "src"].map Bytes.ofString
    let invocation : Invocation :=
      { under? := some (.ofString "missing/../p"), kernelSource? := some (.ofString "src") }
    let ran := invocation.run Registry.bareHost false keptFiles
    parseArguments Registry.bareHost.source? args = .ok invocation ∧ ran.result = .ok () ∧
      keptFiles.kind? (Registry.sampleLoc ++ [Bytes.ofString "kernel.json"]) =
        some (.file (Bytes.ofString "\x7b\"old\":1\x7d") false) ∧
      ran.files.kind? (Registry.sampleLoc ++ [Bytes.ofString "kernel.json"]) =
        some (.file (Bytes.ofString "\x7b\n    \"env\": \x7b\x7d\n\x7d") false) := by
  decide +kernel

end Invocation

end KernelSpec
