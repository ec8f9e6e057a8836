import KernelSpec.Program
import KernelSpec.Proofs.Installer
import KernelSpec.Proofs.Registry.Install
import KernelSpec.Proofs.Setting

/-! # The descriptor that is installed

After a run that succeeds, the file `kernel.json` in the installed directory is read again as the
template with the directory in the place of its tokens and the settings in the member `env`
(`run_descriptor`). The template is the one that is found after the kernel files are copied. This
is the one that was there before when its path is steady (`Registry.Steady`); a link that leads
through the installed directory may make it another one (`run_descriptor_moved`).
-/

namespace KernelSpec

open Json

namespace InstallRequest

variable {σ : Type} {registry : Registry σ} {request : InstallRequest} {state : σ}
  {fs : FileSystem} {dir : Path}

/-- The descriptor of an installation through any registry. -/
theorem install_descriptor (ordered : request.overrides.Ordered)
    (done : (request.install registry state fs).result = .ok dir) :
    ∃ later copied text filled template,
      registry.install request.call state fs = (.ok dir, later, copied) ∧
      Descriptor.readTemplate copied (request.source.child Descriptor.fileName) = .ok text ∧
      Descriptor.substitute text dir = .ok filled ∧ Json.read filled = .ok (.object template) ∧
      ((∀ n ∈ (Value.object template).numbers, n.IsInteger) → ∃ written executable final,
        (request.install registry state fs).files.readFile (dir.child Descriptor.fileName) =
          .ok (Bytes.ofString written, executable) ∧
        Json.read written = .ok (.object final) ∧
        Descriptor.Merges request.overrides template final) := by
  obtain ⟨later, copied, descriptor, asked, rendered, wrote⟩ := install_eq_ok done
  obtain ⟨text, filled, value, found, substituted, read, merged⟩ := Descriptor.render_eq_ok rendered
  obtain ⟨template, final, rfl, rfl, merges⟩ := Descriptor.mergeEnv_merges ordered merged
  refine ⟨later, copied, text, filled, template, asked, found, substituted, read,
    fun integers => ?_⟩
  obtain ⟨rest, spelled, _⟩ := read_eq_ok_iff.mp read
  have canonical : Canonical maxDepth (.object final) :=
    Descriptor.canonical_mergeEnv (spelled.canonical integers) merged
  obtain ⟨written, executable, readable, again⟩ := Descriptor.readFile_write wrote canonical
  exact ⟨written, executable, final, readable, again, merges⟩

end InstallRequest

namespace Invocation

theorem runInstall_eq_ok {invocation : Invocation} {host : Host} {colored : Bool}
    {fs : FileSystem} (succeeded : (invocation.runInstall host colored fs).result = .ok ()) :
    ∃ scope dir, invocation.location.resolve host = .ok scope ∧
      ((invocation.request host fs scope).install (Registry.jupyter host) () fs).result = .ok dir ∧
      (invocation.runInstall host colored fs).stdout = confirmation dir ∧
      (invocation.runInstall host colored fs).files =
        ((invocation.request host fs scope).install (Registry.jupyter host) () fs).files := by
  unfold runInstall at succeeded ⊢
  cases resolved : invocation.location.resolve host with
  | error error =>
    rw [resolved] at succeeded
    cases succeeded
  | ok scope =>
    rw [resolved] at succeeded
    simp only at succeeded ⊢
    cases result :
      ((invocation.request host fs scope).install (Registry.jupyter host) () fs).result with
    | error error =>
      rw [result] at succeeded
      cases succeeded
    | ok dir => exact ⟨scope, dir, rfl, result, rfl, rfl⟩

/-- The descriptor that command line arguments ask for: the template, but in `env` each setting that
is given holds what its values come to. -/
structure Configured (args : List Bytes) (template final : Dictionary Value) : Prop where
  others : ∀ name, name ≠ Descriptor.envKey → final.get? name = template.get? name
  env : ∃ own env : Dictionary Value, final.get? Descriptor.envKey = some (.object env) ∧
    (template.get? Descriptor.envKey = some (.object own) ∨
      template.get? Descriptor.envKey = none ∧ own = []) ∧
    (∀ s : Setting, s.valuesIn (Parsing.given none args) ≠ [] → ∃ values : List String,
      s.valuesIn (Parsing.given none args) = values.map Bytes.ofString ∧
      env.get? s.envName = some (.string (s.combined values))) ∧
    ∀ name, (∀ s : Setting, s.valuesIn (Parsing.given none args) ≠ [] → name ≠ s.envName) →
      env.get? name = own.get? name

theorem configured_of_merges {source : Option Bytes} {args : List Bytes} {invocation : Invocation}
    (parsed : parseArguments source args = .ok invocation) {template final : Dictionary Value}
    (merges : Descriptor.Merges invocation.overrides template final) :
    Configured args template final := by
  obtain ⟨own, env, found, wasOwn, merged⟩ := merges.env
  refine ⟨merges.others, own, env, found, wasOwn, fun s given => ?_, fun name other => ?_⟩
  · obtain ⟨values, texts, override⟩ := overrides_get?_envName parsed given
    refine ⟨values, texts, ?_⟩
    rw [merged, override]
    rfl
  · rw [merged, overrides_get?_other parsed other]
    rfl

/-- After a run that succeeds, the installed descriptor is the template with the directory and the
settings in it. -/
theorem run_descriptor {host : Host} {args : List Bytes} {invocation : Invocation} {colored : Bool}
    {fs : FileSystem} (parsed : parseArguments host.source? args = .ok invocation)
    (installs : invocation.completions? = none)
    (succeeded : (invocation.run host colored fs).result = .ok ()) :
    ∃ scope dir copied text filled template,
      invocation.location.resolve host = .ok scope ∧
      (Registry.jupyter host).install (invocation.request host fs scope).call () fs =
        (.ok dir, (), copied) ∧
      (invocation.run host colored fs).stdout = confirmation dir ∧
      Descriptor.readTemplate copied
        ((invocation.sourceDir host fs).child Descriptor.fileName) = .ok text ∧
      (fs.WellNamed →
        Registry.Steady host (invocation.request host fs scope).call fs
          ((invocation.sourceDir host fs).child Descriptor.fileName) →
        Descriptor.readTemplate fs
          ((invocation.sourceDir host fs).child Descriptor.fileName) = .ok text) ∧
      Descriptor.substitute text dir = .ok filled ∧ Json.read filled = .ok (.object template) ∧
      ((∀ n ∈ (Value.object template).numbers, n.IsInteger) → ∃ written executable final,
        (invocation.run host colored fs).files.readFile (dir.child Descriptor.fileName) =
          .ok (Bytes.ofString written, executable) ∧
        Json.read written = .ok (.object final) ∧ Configured args template final) := by
  have ran : invocation.run host colored fs = invocation.runInstall host colored fs := by
    rw [run, installs]
  rw [ran] at succeeded ⊢
  obtain ⟨scope, dir, resolved, done, printed, files⟩ := runInstall_eq_ok succeeded
  have ordered : (invocation.request host fs scope).overrides.Ordered := Setting.ordered_fold _
  obtain ⟨_, copied, text, filled, template, asked, found, substituted, read, installed⟩ :=
    InstallRequest.install_descriptor ordered done
  refine ⟨scope, dir, copied, text, filled, template, resolved, asked, printed, found, ?_,
    substituted, read, fun integers => ?_⟩
  · -- The copy is made between the two readings of the template.
    intro named steady
    have same := Registry.install_readFile named steady
    rw [asked] at same
    rw [Descriptor.readTemplate, ← same]
    exact found
  · obtain ⟨written, executable, final, readable, again, merges⟩ := installed integers
    rw [files]
    exact ⟨written, executable, final, readable, again, configured_of_merges parsed merges⟩

/-- A template with a variable and a number, for an installed directory or the token of it. -/
def sampleTemplate (dir : String) : String :=
  "\x7b\"d\":\"" ++ dir ++ "\",\"env\":\x7b\"A\":\"1\"\x7d,\"n\":-3\x7d"

/-- The members that `sampleTemplate` spells. -/
def sampleMembers (dir : String) : Dictionary Value :=
  [("d", .string dir), ("env", .object [("A", .string "1")]), ("n", .number (.integer (-3)))]

def sampleSource : FileSystem :=
  ⟨Registry.directory [("src", Registry.directory
    [("kernel.json", .file (Bytes.ofString (sampleTemplate Descriptor.token)) false)])], []⟩

/-- Arguments with a setting given twice and a value that looks like a flag. -/
def sampleArguments : List Bytes :=
  ["--classpath", "a", "--comp-opts", "--classpath", "--classpath=\"b", "--prefix=p",
    "--kernel-source=src"].map Bytes.ofString

def sampleInvocation : Invocation :=
  { under? := some (.ofString "p")
    kernelSource? := some (.ofString "src")
    settings := [(.classpath, "a"), (.compilerOptions, "--classpath"), (.classpath, "\"b")] }

theorem run_descriptor_sample :
    let ran := sampleInvocation.run Registry.bareHost false sampleSource
    parseArguments Registry.bareHost.source? sampleArguments = .ok sampleInvocation ∧
      ran.result = .ok () ∧
      ∃ written executable final,
        ran.files.readFile (.ofString "/p/share/jupyter/kernels/java/kernel.json") =
          .ok (Bytes.ofString written, executable) ∧
        Json.read written = .ok (.object final) ∧
        Configured sampleArguments (sampleMembers "/p/share/jupyter/kernels/java") final := by
  have parsed :
      parseArguments Registry.bareHost.source? sampleArguments = .ok sampleInvocation := by
    decide +kernel
  have succeeded :
      (sampleInvocation.run Registry.bareHost false sampleSource).result = .ok () := by
    decide +kernel
  refine ⟨parsed, succeeded, ?_⟩
  obtain ⟨scope, dir, copied, text, filled, template, resolved, asked, _, found, _, substituted,
    read, installed⟩ := run_descriptor parsed rfl succeeded
  obtain rfl : Scope.under (.ofString "p") = scope := Except.ok.inj resolved
  have answered : ((Registry.jupyter Registry.bareHost).install (sampleInvocation.request
      Registry.bareHost sampleSource (.under (.ofString "p"))).call () sampleSource).1 =
        .ok (.ofString "/p/share/jupyter/kernels/java") := by
    decide +kernel
  have templated : Descriptor.readTemplate ((Registry.jupyter Registry.bareHost).install
      (sampleInvocation.request Registry.bareHost sampleSource (.under (.ofString "p"))).call ()
        sampleSource).2.2 (.ofString "src/kernel.json") =
          .ok (sampleTemplate Descriptor.token) := by
    decide +kernel
  rw [asked] at answered templated
  obtain rfl : dir = .ofString "/p/share/jupyter/kernels/java" := Except.ok.inj answered
  obtain rfl : text = sampleTemplate Descriptor.token := Except.ok.inj (found.symm.trans templated)
  have filledIn : Descriptor.substitute (sampleTemplate Descriptor.token)
      (.ofString "/p/share/jupyter/kernels/java") =
        .ok (sampleTemplate "/p/share/jupyter/kernels/java") := by
    decide +kernel
  have members : Json.read (sampleTemplate "/p/share/jupyter/kernels/java") =
      .ok (.object (sampleMembers "/p/share/jupyter/kernels/java")) := by
    cbv
  rw [Except.ok.inj (substituted.symm.trans filledIn), members] at read
  obtain rfl := Value.object.inj (Except.ok.inj read)
  refine installed fun n mem => ?_
  obtain rfl : n = .integer (-3) := List.mem_singleton.mp mem
  trivial

/-- A template that is a link through the installed directory, which is a link itself until it is
replaced. -/
def movedFiles : FileSystem :=
  ⟨Registry.directory
    [("src", Registry.directory
      [("kernel.json", .link (.ofString "../env/share/jupyter/kernels/java/../t.json"))]),
     ("elsewhere", Registry.directory [("dir", .dir []),
      ("t.json", .file (Bytes.ofString "\x7b\"v\":\"before\"\x7d") false)]),
     ("env", Registry.directory [("share", Registry.directory [("jupyter", Registry.directory
      [("kernels", Registry.directory
        [("t.json", .file (Bytes.ofString "\x7b\"v\":\"after\"\x7d") false),
         ("java", .link (.ofString "/elsewhere/dir"))])])])])], []⟩

/-- The template that is rendered is not the one that was there before the run. -/
theorem run_descriptor_moved :
    let args := ["--prefix", "env", "--replace", "--kernel-source", "src"].map Bytes.ofString
    let invocation : Invocation :=
      { under? := some (.ofString "env"), replace := true, kernelSource? := some (.ofString "src") }
    let ran := invocation.run Registry.bareHost false movedFiles
    parseArguments Registry.bareHost.source? args = .ok invocation ∧ ran.result = .ok () ∧
      Descriptor.readTemplate movedFiles (.ofString "src/kernel.json") =
        .ok "\x7b\"v\":\"before\"\x7d" ∧
      Descriptor.readTemplate ran.files (.ofString "/env/share/jupyter/kernels/java/kernel.json") =
        .ok "\x7b\n    \"env\": \x7b\x7d,\n    \"v\": \"after\"\n\x7d" := by
  decide +kernel

end Invocation

end KernelSpec
