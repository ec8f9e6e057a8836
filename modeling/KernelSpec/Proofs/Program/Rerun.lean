import KernelSpec.Proofs.Program.Preservation

/-! # Running again

A run that replaces can be repeated (`run_run`): the second run prints what the first one printed
and leaves the very same files. It takes away the tree that the first run made and so comes back to
the files that the first run copied into, from where everything goes as before (`TreeCopied.again`).
This takes that each `..` of the destination is reached and that the kernel files are taken from
where they were taken. Otherwise the second run may leave other files or fail (`run_run_differs`).
-/

namespace KernelSpec

namespace Disk

open FileSystem KernelSpec.Path Steps

section Spare

variable {before fs : FileSystem} {p : Path} {front : List Segment} {dir : Loc} {name : Name}
  (spare : Spare before p front dir name)

include spare

theorem kind?_erase_spare (loc : Loc) :
    (before.erase (dir ++ [name])).kind? loc = before.kind? loc := by
  by_cases below : dir ++ [name] <+: loc
  · rw [kind?_erase_below before (by simp) below, kind?_of_missing spare.missing below]
  · exact kind?_erase before below

theorem extends_erase_spare : Extends before (before.erase (dir ++ [name])) :=
  ⟨rfl, fun loc _ found => (kind?_erase_spare spare loc).trans found⟩

theorem spare_erase : Spare (before.erase (dir ++ [name])) p front dir name where
  ends := spare.ends
  leads := spare.leads.congr (kind?_erase_spare spare)
  isDir := (kind?_erase_spare spare dir).trans spare.isDir
  missing := (kind?_erase_spare spare _).trans spare.missing

/-- The tree that was made at the place is taken away again. -/
theorem run_removePath_grown (short : name.length ≤ maxName) (valid : checkPath p = .ok ())
    (noSlash : p.endsInSlash = false) (grown : Grown before fs (dir ++ [name]))
    (isDir : fs.kind? (dir ++ [name]) = some .dir) :
    (removePath p).run fs = (.ok (), before.erase (dir ++ [name])) := by
  have leads : ∀ {new : FileSystem}, Extends before new → new.kind? (dir ++ [name]) = some .dir →
      new.lookupPlace p = .ok (.occupied (dir ++ [name])) := fun larger made =>
    resolveSegments_eq_ok_iff.mpr ⟨valid, spare.follows_made short larger made .kept⟩
  have led := leads (grown.extends spare.missing) isDir
  obtain ⟨node, rfl⟩ := grown.put
  rw [run_removePath_eq noSlash spare.ends led, erase_put before (by simp)]
  intro _ _
  rw [FileSystem.clear, put_put before]
  exact leads (extends_put spare.missing (.dir [])) (spare.writable.kind?_put _)

end Spare

/-- A tree is copied again to the place where it was taken away. -/
theorem run_copyTree_again {source place : Path} {fs mid changed : FileSystem} {loc dir : Loc}
    {name : Name} {front : List Segment} {result : Except Fault Unit}
    (walked : walkStart source fs = .ok loc) (isDir : fs.kind? loc = some .dir)
    (valid : checkPath (place.join ⟨[]⟩) = .ok ()) (raised : Extends fs mid)
    (spare : Spare mid place front dir name) (short : name.length ≤ maxName)
    (copied : (copyEntries (maxPath + 1) [(source, loc)] source place loc).run
      (mid.put (dir ++ [name]) (.dir [])) = (result, changed)) :
    (copyTree source place).run (mid.erase (dir ++ [name])) = (result, changed) := by
  have larger := raised.trans (extends_erase_spare spare)
  rw [run_copyTree_spare (walkStart_extend larger walked) (larger.kept _ _ isDir) valid
    (spare_erase spare) short]
  -- The directory is put where it was put the first time, so the copy starts from the same files.
  rw [put_erase (by simp) (Option.map_eq_none_iff.mp spare.missing), copied]

/-- After a copy, whatever has become of the files in the directory that was made for it, the
directory can be removed and the copy made again. -/
theorem TreeCopied.again {source place path : Path} {fs changed : FileSystem}
    (copied : TreeCopied source place fs (.ok ()) changed) {front : List Segment} {child : Name}
    (ends : place.segments = front ++ [.name child]) (noSlash : place.endsInSlash = false)
    (named : fs.WellNamed) (found : changed.canonicalize place = .ok path) :
    ∃ mid top, path = pathOf top ∧ top ≠ [] ∧ Grown mid changed top ∧
      changed.kind? top = some .dir ∧
      ∀ later, Grown mid later top → later.kind? top = some .dir →
        later.isDir source = true ∧ later.isDir place = true ∧
        (removePath place).run later = (.ok (), mid.erase top) ∧
        (copyTree source place).run (mid.erase top) = (.ok (), changed) := by
  obtain ⟨loc, located, rfl⟩ := locate_of_canonicalize found
  generalize done : Except.ok () = result at copied
  cases copied with
  | stopped => cases done
  | @entered start mid _ dir name _ walked isDir validSlash opened run =>
    subst done
    have filled := filled_opened opened ends named run
    obtain ⟨rfl, spare⟩ := opened.spare ends
    have short : name.length ≤ maxName := (ends ▸ opened).short
    cases (follows_of_locate located).unique filled.enters.leads
    refine ⟨mid, _, rfl, by simp, filled.grown, filled.enters.isDir, fun later grown stays => ?_⟩
    have raised := opened.raised.toExtends
    have larger := grown.extends spare.missing
    have whole := raised.trans larger
    have source := locate_extend whole (locate_of_walkStart walked isDir)
    have valid := (locate_eq_ok_iff.mp located).1
    exact ⟨isDir_iff.mpr ⟨start, source, whole.kept _ _ isDir⟩,
      (spare.enters short larger stays).isDir_path valid,
      run_removePath_grown spare short valid noSlash grown stays,
      run_copyTree_again walked isDir validSlash raised spare short run⟩

end Disk

namespace Registry

open FileSystem KernelSpec.Path Steps

/-- An installation that succeeded gives the same answer when it is repeated, whatever has become of
the files in the directory that it made. -/
theorem install_again {host : Host} {call : RegistryCall} {name : KernelName}
    (parsed : KernelName.parse call.name = .ok name) (isName : IsName (Bytes.ofString name.text))
    (replaces : call.replace = true) {fs copied : FileSystem} (named : fs.WellNamed)
    (reached : ∀ place, destination host call.scope name = .ok place →
      Reached (without fs place) place) {path : Path}
    (done : (jupyter host).install call () fs = (.ok path, (), copied)) :
    ∃ mid top, path = pathOf top ∧ top ≠ [] ∧ Grown mid copied top ∧
      copied.kind? top = some .dir ∧
      ∀ later, Grown mid later top → later.kind? top = some .dir →
        (jupyter host).install call () later = (.ok path, (), copied) := by
  obtain ⟨error, failed, _⟩ | ⟨kernels, cleared, result, found, room, _, tree, answered⟩ :=
    install_treeCopied parsed isName fun _ found _ => reached _ (destination_of_kernelsDir found)
  · rw [done] at failed
    cases failed
  · rw [done] at tree answered
    obtain ⟨rfl, canonical⟩ := answered path rfl
    obtain ⟨mid, top, rfl, notRoot, grown, isDir, again⟩ := tree.again (segments_place isName)
      (endsInSlash_place isName) (room.smaller.wellNamed named) canonical
    refine ⟨mid, top, rfl, notRoot, grown, isDir, fun later grown stays => ?_⟩
    obtain ⟨source, taken, removed, copies⟩ := again later grown stays
    have room := run_makeRoom_of_taken (pathExists_of_isDir taken) removed
    exact install_of_steps parsed source (destination_of_kernelsDir found) (replaces ▸ room)
      (run_copyInto copies canonical)

end Registry

namespace InstallRequest

open FileSystem KernelSpec.Path

variable {request : InstallRequest}

/-- What the registry answers is all that an installation takes from the files. -/
theorem install_congr {σ : Type} {registry : Registry σ} {state : σ} {fs other : FileSystem}
    (same : registry.install request.call state other = registry.install request.call state fs) :
    request.install registry state other = request.install registry state fs := by
  unfold install
  rw [same]

theorem install_install {host : Host} {name : KernelName} {fs : FileSystem} {dir : Path}
    (parsed : KernelName.parse request.call.name = .ok name)
    (isName : IsName (Bytes.ofString name.text)) (replaces : request.call.replace = true)
    (named : fs.WellNamed)
    (reached : ∀ place, Registry.destination host request.call.scope name = .ok place →
      Reached (Registry.without fs place) place)
    (done : (request.install (Registry.jupyter host) () fs).result = .ok dir) :
    request.install (Registry.jupyter host) ()
        (request.install (Registry.jupyter host) () fs).files =
      request.install (Registry.jupyter host) () fs := by
  obtain ⟨_, copied, descriptor, asked, _, written⟩ := install_eq_ok done
  obtain ⟨mid, top, rfl, notRoot, grown, isDir, again⟩ :=
    Registry.install_again parsed isName replaces named reached asked
  obtain ⟨grown, isDir⟩ := grown_write grown notRoot isDir written
  exact install_congr ((again _ grown isDir).trans asked.symm)

end InstallRequest

namespace Invocation

open FileSystem KernelSpec.Path

variable {invocation : Invocation} {host : Host} {colored : Bool} {fs : FileSystem}

theorem runInstall_congr {other : FileSystem} {scope : Scope}
    (resolved : invocation.location.resolve host = .ok scope)
    (same : (invocation.request host other scope).install (Registry.jupyter host) () other =
      (invocation.request host fs scope).install (Registry.jupyter host) () fs) :
    invocation.runInstall host colored other = invocation.runInstall host colored fs := by
  unfold runInstall
  rw [resolved]
  simp only [same]

/-- A run that replaces and succeeds can be repeated: the same is printed, the kernel is in the same
directory, and the files are the very same. -/
theorem run_run (installs : invocation.completions? = none) (replaces : invocation.replace = true)
    (named : fs.WellNamed)
    (reached : ∀ place, invocation.destination? host = some place →
      Reached (Registry.without fs place) place)
    (succeeded : (invocation.run host colored fs).result = .ok ())
    (sameSource : invocation.sourceDir host (invocation.run host colored fs).files =
      invocation.sourceDir host fs) :
    let ran := invocation.run host colored fs
    invocation.run host colored ran.files = ran ∧
      ∃ scope dir, invocation.location.resolve host = .ok scope ∧
        ∀ files ∈ [fs, ran.files], ((invocation.request host files scope).install
          (Registry.jupyter host) () files).result = .ok dir := by
  intro ran
  have runs : ∀ files, invocation.run host colored files =
      invocation.runInstall host colored files := by
    intro files
    rw [run, installs]
  have ranInstall : ran = invocation.runInstall host colored fs := runs fs
  obtain ⟨scope, dir, resolved, done, _, files⟩ := runInstall_eq_ok (runs fs ▸ succeeded)
  have java : KernelName.parse kernelName = .ok ⟨kernelName⟩ := by decide +kernel
  have reached : ∀ place, Registry.destination host scope ⟨kernelName⟩ = .ok place →
      Reached (Registry.without fs place) place := by
    intro place destined
    obtain ⟨kernels, found, rfl⟩ := map_eq_ok_iff.mp destined
    exact reached _ (destination?_eq_some resolved found)
  have again : (invocation.request host ran.files scope).install (Registry.jupyter host) ()
      ran.files = (invocation.request host fs scope).install (Registry.jupyter host) () fs := by
    have sameRequest : invocation.request host ran.files scope =
        invocation.request host fs scope := by
      rw [request, sameSource]
      rfl
    rw [sameRequest, ranInstall, files]
    exact InstallRequest.install_install java (by decide +kernel) replaces named reached done
  refine ⟨?_, scope, dir, resolved, ?_⟩
  · calc invocation.run host colored ran.files
        = invocation.runInstall host colored ran.files := runs ran.files
      _ = invocation.runInstall host colored fs := runInstall_congr resolved again
      _ = ran := ranInstall.symm
  · simp only [List.forall_mem_cons, again, done, true_and]
    exact List.forall_mem_nil _

/-- A kernel with a file that its replacement does not have, and a kernels directory that is a link
to where a program is. -/
def staleFiles : FileSystem :=
  ⟨Registry.directory
    [("java", Registry.directory [("kernel.json", .file (Bytes.ofString "\x7b\x7d") false)]),
     ("app", .dir []),
     ("q", Registry.directory [("share", Registry.directory [("jupyter", Registry.directory
      [("kernels", .link (.ofString "/app"))])])]),
     ("p", Registry.directory [("share", Registry.directory [("jupyter", Registry.directory
      [("kernels", Registry.directory [("java", Registry.directory
        [("stale", .file [] false)])])])])])], []⟩

/-- A kernel is replaced under a prefix with a `..` that is reached, and replaced again. -/
theorem run_run_sample :
    let invocation : Invocation := { under? := some (.ofString "q/../p"), replace := true }
    let ran := invocation.run Registry.bareHost false staleFiles
    ran.result = .ok () ∧ invocation.run Registry.bareHost false ran.files = ran := by
  intro invocation ran
  have succeeded : ran.result = .ok () := by decide +kernel
  refine ⟨succeeded, (run_run rfl rfl ?_ ?_ succeeded rfl).1⟩
  · exact Registry.wellNamed_of_objects (by decide +kernel)
  · intro place destined
    have found : invocation.destination? Registry.bareHost =
        some (.ofString "q/../p/share/jupyter/kernels/java") := by
      decide +kernel
    cases found.symm.trans destined
    decide +kernel

/-- The second run removes a file that the first one kept when a `..` of the prefix is not reached.
It fails when the first run has put a kernel beside the program, since it then takes the kernel
files from where it puts them. -/
theorem run_run_differs :
    let args := ["--prefix", "missing/../p", "--replace"].map Bytes.ofString
    let around : Invocation := { under? := some (.ofString "missing/../p"), replace := true }
    let ran := around.run Registry.bareHost false staleFiles
    let again := around.run Registry.bareHost false ran.files
    let host : Host := { Registry.bareHost with programDir := some (.ofString "/app") }
    let beside : Invocation := { under? := some (.ofString "q"), replace := true }
    let ranBeside := beside.run host false staleFiles
    parseArguments Registry.bareHost.source? args = .ok around ∧
      ran.result = .ok () ∧ again.result = .ok () ∧
      ran.files.kind? (Registry.sampleLoc ++ [Bytes.ofString "stale"]) = some (.file [] false) ∧
      again.files.kind? (Registry.sampleLoc ++ [Bytes.ofString "stale"]) = none ∧
      ranBeside.result = .ok () ∧ (beside.run host false ranBeside.files).result ≠ .ok () := by
  decide +kernel

end Invocation

end KernelSpec
