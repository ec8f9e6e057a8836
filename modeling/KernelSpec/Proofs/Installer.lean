import KernelSpec.Installer
import KernelSpec.Proofs.Descriptor.Render
import KernelSpec.Proofs.FileSystem.Lookup
import KernelSpec.Proofs.Text.Bytes

/-! # The stages of an installation

An installation ends at the registry, at rendering, at writing, or not before its end (`Ends`). From
this follows what any registry is asked for, what the driver itself changes, and what is reported at
each of these ends (`install_stages`).
-/

namespace KernelSpec

open FileSystem KernelSpec.Path

/-- The registry, with a list of the calls beside its state, the latest last. -/
def Registry.recording {σ : Type} (registry : Registry σ) : Registry (σ × List RegistryCall) where
  install call state fs :=
    let (result, later, changed) := registry.install call state.1 fs
    (result, (later, state.2 ++ [call]), changed)

namespace InstallRequest

variable {σ : Type} {registry : Registry σ} {request : InstallRequest} {state : σ}
  {fs : FileSystem} {dir : Path}

/-- How an installation ends, given what the registry answered. -/
inductive Ends (request : InstallRequest) :
    Except InstallError Path × σ × FileSystem → Installation σ → Prop
  | refused {error : InstallError} {later : σ} {fs : FileSystem} :
      Ends request (.error error, later, fs) ⟨request.openingSteps, .error error, later, fs⟩
  | unrendered {dir : Path} {later : σ} {fs : FileSystem} {error : InstallError}
      (failed : Descriptor.render fs (request.source.child Descriptor.fileName) dir
        request.overrides = .error error) :
      Ends request (.ok dir, later, fs)
        ⟨request.openingSteps ++ [⟨"Copied", dir.display⟩], .error error, later, fs⟩
  | unwritten {dir : Path} {later : σ} {fs : FileSystem} {descriptor : Json.Value}
      {error : InstallError}
      (rendered : Descriptor.render fs (request.source.child Descriptor.fileName) dir
        request.overrides = .ok descriptor)
      (failed : Descriptor.write (dir.child Descriptor.fileName) descriptor fs = .error error) :
      Ends request (.ok dir, later, fs)
        ⟨request.openingSteps ++ [⟨"Copied", dir.display⟩] ++ request.envSteps, .error error,
          later, fs⟩
  | patched {dir : Path} {later : σ} {fs changed : FileSystem} {descriptor : Json.Value}
      (rendered : Descriptor.render fs (request.source.child Descriptor.fileName) dir
        request.overrides = .ok descriptor)
      (written : Descriptor.write (dir.child Descriptor.fileName) descriptor fs = .ok changed) :
      Ends request (.ok dir, later, fs)
        ⟨request.openingSteps ++ [⟨"Copied", dir.display⟩] ++
          (request.envSteps ++ [⟨"Patched", (dir.child Descriptor.fileName).display⟩]), .ok dir,
          later, changed⟩

theorem ends_install (registry : Registry σ) (request : InstallRequest) (state : σ)
    (fs : FileSystem) :
    Ends request (registry.install request.call state fs) (request.install registry state fs) := by
  unfold install
  generalize registry.install request.call state fs = answer
  obtain ⟨error | dir, later, copied⟩ := answer
  · exact .refused
  · cases rendered : Descriptor.render copied (request.source.child Descriptor.fileName) dir
        request.overrides with
    | error error =>
      have patched : request.patch dir copied = ([], .error error) := by rw [patch, rendered]
      simp only [patched, List.append_nil]
      exact .unrendered rendered
    | ok descriptor =>
      cases written : Descriptor.write (dir.child Descriptor.fileName) descriptor copied with
      | error error =>
        have patched : request.patch dir copied = (request.envSteps, .error error) := by
          simp only [patch, rendered, written]
        simp only [patched]
        exact .unwritten rendered written
      | ok changed =>
        have patched : request.patch dir copied = (request.envSteps ++
            [⟨"Patched", (dir.child Descriptor.fileName).display⟩], .ok changed) := by
          simp only [patch, rendered, written]
        simp only [patched]
        exact .patched rendered written

/-- An error from before the descriptor is written leaves the files as the registry left them. -/
theorem Ends.files_eq {asked : Except InstallError Path × σ × FileSystem} {outcome : Installation σ}
    (ends : Ends request asked outcome) {error : InstallError}
    (failed : outcome.result = .error error)
    (early : ∀ path, error ≠ .descriptorWriteFailed path) : outcome.files = asked.2.2 := by
  cases ends with
  | refused | unrendered => rfl
  | unwritten _ unwritten =>
    cases failed
    obtain ⟨_, _, rfl⟩ := mapError_eq_error_iff.mp unwritten
    exact absurd rfl (early _)
  | patched => cases failed

/-- An installation that succeeds copies, renders the template it then finds, and writes. -/
theorem install_eq_ok (done : (request.install registry state fs).result = .ok dir) :
    ∃ later copied descriptor, registry.install request.call state fs = (.ok dir, later, copied) ∧
      Descriptor.render copied (request.source.child Descriptor.fileName) dir request.overrides =
        .ok descriptor ∧
      Descriptor.write (dir.child Descriptor.fileName) descriptor copied =
        .ok (request.install registry state fs).files := by
  have ends := ends_install registry request state fs
  generalize registry.install request.call state fs = asked at ends ⊢
  generalize request.install registry state fs = outcome at ends done ⊢
  cases ends with
  | refused | unrendered | unwritten => cases done
  | patched rendered written =>
    cases done
    exact ⟨_, _, _, rfl, rendered, written⟩

/-- An installation leaves what the registry left, or that with the descriptor written. -/
theorem files_install (registry : Registry σ) (request : InstallRequest) (state : σ)
    (fs : FileSystem) :
    (request.install registry state fs).files = (registry.install request.call state fs).2.2 ∨
      ∃ dir descriptor, (registry.install request.call state fs).1 = .ok dir ∧
        Descriptor.write (dir.child Descriptor.fileName) descriptor
          (registry.install request.call state fs).2.2 =
            .ok (request.install registry state fs).files := by
  have ends := ends_install registry request state fs
  generalize registry.install request.call state fs = asked at ends ⊢
  generalize request.install registry state fs = outcome at ends ⊢
  cases ends with
  | refused | unrendered | unwritten => exact .inl rfl
  | patched _ written => exact .inr ⟨_, _, rfl, written⟩

/-! ## The registry -/

/-- The driver does not see the list, to which it adds one call. -/
theorem install_recording (registry : Registry σ) (request : InstallRequest) (state : σ)
    (calls : List RegistryCall) (fs : FileSystem) :
    request.install registry.recording (state, calls) fs =
      ⟨(request.install registry state fs).steps, (request.install registry state fs).result,
        ((request.install registry state fs).registry, calls ++ [request.call]),
        (request.install registry state fs).files⟩ := by
  cases answered : registry.install request.call state fs with
  | mk result rest =>
    obtain ⟨later, copied⟩ := rest
    have recorded : registry.recording.install request.call (state, calls) fs =
        (result, (later, calls ++ [request.call]), copied) := by
      simp only [Registry.recording, answered]
    unfold install
    rw [recorded, answered]
    cases result with
    | error => rfl
    | ok dir =>
      simp only
      cases patched : request.patch dir copied with
      | mk more result => cases result <;> rfl

/-! ## The files -/

/-- What the driver itself does to the files: it writes one file, the one that the path of the
descriptor leads to, which is in the directory unless a link is there. -/
structure Patches (dir : Path) (fs changed : FileSystem) (place : Loc) : Prop where
  leads : fs.writePlace (dir.child Descriptor.fileName) = .ok place
  inside : ∀ home, fs.locate dir = .ok home →
    (∀ target, fs.kind? (home ++ [Bytes.ofString Descriptor.fileName]) ≠ some (.link target)) →
    place = home ++ [Bytes.ofString Descriptor.fileName]
  file : ∃ content executable, changed.kind? place = some (.file content executable)
  others : ∀ loc, loc ≠ place → changed.kind? loc = fs.kind? loc
  cwd : changed.cwd = fs.cwd

theorem isName_fileName : IsName (Bytes.ofString Descriptor.fileName) := by
  decide

theorem patches_of_write {descriptor : Json.Value} {changed : FileSystem}
    (written : Descriptor.write (dir.child Descriptor.fileName) descriptor fs = .ok changed) :
    ∃ place, Patches dir fs changed place := by
  obtain ⟨place, led, same⟩ := bind_eq_ok_iff.mp (mapError_eq_ok_iff.mp written)
  cases same
  obtain ⟨_, _, _, writable⟩ := writePlace_eq_ok led
  exact ⟨place, led, fun _ => writePlace_place isName_fileName led, ⟨_, _, writable.kind?_put _⟩,
    fun _ => writable.kind?_put_of_ne trivial, rfl⟩

/-! ## The report -/

/-- All that can be reported of an installation to a directory. -/
def allSteps (request : InstallRequest) (dir : Path) : List Step :=
  [⟨"Scope", request.scope.display⟩, ⟨"Source", request.source.display⟩,
    ⟨"Copied", dir.display⟩] ++
  (request.overrides.map fun entry => ⟨"Env", entry.1 ++ "=" ++ entry.2⟩) ++
  [⟨"Patched", (dir.child Descriptor.fileName).display⟩]

/-- What is reported, given what the registry answered. -/
structure Reports (request : InstallRequest) (asked : Except InstallError Path × σ × FileSystem)
    (outcome : Installation σ) : Prop where
  part : ∀ dir, (∀ found, asked.1 = .ok found → found = dir) →
    outcome.steps <+: request.allSteps dir
  copied : (∃ detail, ⟨"Copied", detail⟩ ∈ outcome.steps) ↔ ∃ dir, asked.1 = .ok dir
  env : ∀ dir, asked.1 = .ok dir →
    (∃ descriptor, Descriptor.render asked.2.2 (request.source.child Descriptor.fileName) dir
      request.overrides = .ok descriptor) →
    outcome.steps.filter (fun step => step.label = "Env") =
      request.overrides.map fun entry => ⟨"Env", entry.1 ++ "=" ++ entry.2⟩
  noEnv : (∀ dir descriptor, asked.1 = .ok dir →
      Descriptor.render asked.2.2 (request.source.child Descriptor.fileName) dir
        request.overrides ≠ .ok descriptor) →
    outcome.steps.filter (fun step => step.label = "Env") = []
  patched : (∃ detail, ⟨"Patched", detail⟩ ∈ outcome.steps) ↔ ∃ dir, outcome.result = .ok dir

theorem envSteps_eq (request : InstallRequest) :
    request.envSteps = request.overrides.map fun entry => ⟨"Env", entry.1 ++ "=" ++ entry.2⟩ :=
  rfl

theorem allSteps_eq (request : InstallRequest) (dir : Path) :
    request.allSteps dir = request.openingSteps ++ [⟨"Copied", dir.display⟩] ++
      (request.envSteps ++ [⟨"Patched", (dir.child Descriptor.fileName).display⟩]) := by
  rw [allSteps, envSteps_eq, List.append_assoc]
  rfl

theorem label_of_mem_envSteps {step : Step} (mem : step ∈ request.envSteps) :
    step.label = "Env" := by
  obtain ⟨_, _, rfl⟩ := List.mem_map.mp mem
  rfl

theorem filter_envSteps (request : InstallRequest) :
    request.envSteps.filter (fun step => step.label = "Env") = request.envSteps :=
  List.filter_eq_self.mpr fun _ mem => decide_eq_true (label_of_mem_envSteps mem)

theorem not_mem_envSteps {label : String} (other : label ≠ "Env") (detail : String) :
    ⟨label, detail⟩ ∉ request.envSteps :=
  fun mem => other (label_of_mem_envSteps mem)

theorem Ends.reports {asked : Except InstallError Path × σ × FileSystem} {outcome : Installation σ}
    (ends : Ends request asked outcome) : Reports request asked outcome := by
  have noCopied := @not_mem_envSteps request "Copied" (by decide)
  have noPatched := @not_mem_envSteps request "Patched" (by decide)
  have opening : request.openingSteps.filter (fun step => step.label = "Env") = [] := rfl
  cases ends with
  | refused =>
    refine ⟨fun dir _ => ?_, ?_, fun dir found => ?_, fun _ => opening, ?_⟩
    · rw [allSteps_eq, List.append_assoc]
      exact List.prefix_append _ _
    · simp [openingSteps]
    · cases found
    · simp [openingSteps]
  | unrendered failed =>
    refine ⟨fun dir answered => ?_, ?_, ?_, fun _ => ?_, ?_⟩
    · obtain rfl := answered _ rfl
      rw [allSteps_eq]
      exact List.prefix_append _ _
    · simp [openingSteps]
    · rintro _ ⟨⟩ ⟨_, rendered⟩
      cases failed.symm.trans rendered
    · simp [opening]
    · simp [openingSteps]
  | unwritten rendered failed =>
    refine ⟨fun dir answered => ?_, ?_, fun _ _ _ => ?_, fun unrendered => ?_, ?_⟩
    · obtain rfl := answered _ rfl
      rw [allSteps_eq, ← List.append_assoc]
      exact List.prefix_append _ _
    · simp [openingSteps, noCopied]
    · rw [← envSteps_eq]
      simp [opening, filter_envSteps]
    · exact absurd rendered (unrendered _ _ rfl)
    · simp [openingSteps, noPatched]
  | patched rendered written =>
    refine ⟨fun dir answered => ?_, ?_, fun _ _ _ => ?_, fun unrendered => ?_, ?_⟩
    · obtain rfl := answered _ rfl
      rw [allSteps_eq]
    · simp [openingSteps, noCopied]
    · rw [← envSteps_eq]
      simp [opening, filter_envSteps]
    · exact absurd rendered (unrendered _ _ rfl)
    · simp [openingSteps, noPatched]

/-- A registry is asked once, for what the request says. Where it fails, or the descriptor cannot be
rendered, this is the result and the driver changes nothing; where it succeeds, nothing but the file
of the descriptor, also when writing fails. The report ends where the installation does. -/
theorem install_stages (registry : Registry σ) (request : InstallRequest) (state : σ)
    (fs : FileSystem) (ordered : request.overrides.Ordered) :
    let call := ⟨request.source, request.name, request.scope, request.replace⟩
    let asked := registry.install call state fs
    let outcome := request.install registry state fs
    let recorded := request.install registry.recording (state, []) fs
    (recorded.steps = outcome.steps ∧ recorded.result = outcome.result ∧
      recorded.registry = (asked.2.1, [call]) ∧ recorded.files = outcome.files) ∧
    (∀ error, asked.1 = .error error →
      outcome.result = .error error ∧ outcome.files = asked.2.2) ∧
    (∀ dir error, asked.1 = .ok dir →
      Descriptor.render asked.2.2 (request.source.child Descriptor.fileName) dir
        request.overrides = .error error →
      outcome.result = .error error ∧ outcome.files = asked.2.2) ∧
    (∀ dir, outcome.result = .ok dir →
      asked.1 = .ok dir ∧ ∃ place, Patches dir asked.2.2 outcome.files place) ∧
    (∀ error, outcome.result = .error error → (∀ path, error ≠ .descriptorWriteFailed path) →
      outcome.files = asked.2.2) ∧
    (∀ dir, asked.1 = .ok dir →
      outcome.files = asked.2.2 ∨ ∃ place, Patches dir asked.2.2 outcome.files place) ∧
    Reports request asked outcome ∧
    (request.overrides.map fun entry => Bytes.ofString entry.1).Pairwise (· < ·) := by
  intro call asked outcome recorded
  have ends : Ends request asked outcome := ends_install registry request state fs
  have listed : recorded = ⟨outcome.steps, outcome.result, (outcome.registry, [call]),
      outcome.files⟩ := install_recording registry request state [] fs
  rw [listed]
  clear_value asked outcome
  refine ⟨⟨rfl, rfl, ?_, rfl⟩, ?_, ?_, ?_, fun error => ends.files_eq, ?_, ends.reports, ?_⟩
  · cases ends <;> rfl
  · rintro error failed
    cases ends with
    | refused =>
      cases failed
      exact ⟨rfl, rfl⟩
    | unrendered | unwritten | patched => cases failed
  · rintro dir error found failed
    cases ends with
    | refused => cases found
    | unrendered failed' =>
      cases found
      cases failed'.symm.trans failed
      exact ⟨rfl, rfl⟩
    | unwritten rendered | patched rendered =>
      cases found
      cases rendered.symm.trans failed
  · rintro dir done
    cases ends with
    | refused | unrendered | unwritten => cases done
    | patched _ written =>
      cases done
      exact ⟨rfl, patches_of_write written⟩
  · rintro dir found
    cases ends with
    | refused | unrendered | unwritten => exact .inl rfl
    | patched _ written =>
      cases found
      exact .inr (patches_of_write written)
  · exact List.pairwise_map.mpr (ordered.imp Bytes.ofString_lt_ofString)

/-- A registry that copies nothing and always gives the same directory. -/
def fixedRegistry (dir : Path) : Registry Unit := ⟨fun _ state fs => (.ok dir, state, fs)⟩

/-- A template, and a directory without one. -/
def stagedFiles : FileSystem :=
  ⟨.dir [(Bytes.ofString "d", .dir []), (Bytes.ofString "src",
    .dir [(Bytes.ofString Descriptor.fileName, .file (Bytes.ofString "\x7b\x7d") false)])], []⟩

/-- All stages are passed, with two variables. -/
theorem install_stages_sample :
    let request : InstallRequest :=
      ⟨.ofString "/src", "java", .user, false, [("A", "1"), ("B", "")]⟩
    let outcome := request.install (fixedRegistry (.ofString "/d")) () stagedFiles
    let recorded := request.install (fixedRegistry (.ofString "/d")).recording ((), []) stagedFiles
    request.overrides.Ordered ∧ outcome.result = .ok (.ofString "/d") ∧
      recorded.registry.2 = [⟨.ofString "/src", "java", .user, false⟩] ∧
      (∃ place, Patches (.ofString "/d") stagedFiles outcome.files place) ∧
      outcome.steps.filter (fun step => step.label = "Env") =
        [⟨"Env", "A=1"⟩, ⟨"Env", "B="⟩] := by
  intro request outcome recorded
  have ordered : request.overrides.Ordered := by decide
  have done : outcome.result = .ok (.ofString "/d") := by decide +kernel
  obtain ⟨⟨_, _, asked, _⟩, _, _, patched, _, _, reports, _⟩ :=
    install_stages (fixedRegistry (.ofString "/d")) request () stagedFiles ordered
  refine ⟨ordered, done, congrArg Prod.snd asked, (patched _ done).2, ?_⟩
  obtain ⟨_, _, descriptor, answered, rendered, _⟩ := install_eq_ok done
  cases answered
  exact reports.env _ rfl ⟨descriptor, rendered⟩

end InstallRequest

end KernelSpec
