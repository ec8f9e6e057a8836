import KernelSpec.Proofs.FileSystem.TreeCopy
import KernelSpec.Proofs.Registry.Install

/-! # Where a kernel goes

A kernel goes to its own name in the kernels directory: a name that is accepted, and is neither `.`
nor `..`, is the name of one object of that directory in every file system. An installation changes
nothing but that object and missing directories above it, when the way to the kernels directory is
straight (`install_inside`). The names `.` and `..` are accepted too, and then the kernels directory
itself or the one above it is replaced; and where a `..` of the path is reached only after a missing
directory is made, the kernel that is then found is written to as it is (`install_outside`).

An installation that fails before anything is removed or copied leaves all files as they were. One
that fails later leaves all but what was at the destination (`install_keeps_of_error`), which may be
gone by then (`install_error_replaced`).
-/

namespace KernelSpec.Registry

open FileSystem KernelSpec.Path Steps

/-! ## Making room, then copying -/

/-- The files with room made at a place: what was there is taken away, though an empty directory
may be left where the path no longer leads. -/
structure Room (fs : FileSystem) (place : Path) (cleared : FileSystem) : Prop where
  larger : Extends (without fs place) cleared
  smaller : Extends cleared fs
  links : SameLinks (without fs place) cleared
  absent : ¬ cleared.isDir place = true
  removed : cleared = fs ∨
    ∃ loc, fs.lookupPlace place = .ok (.occupied loc) ∧ ClearedAt fs cleared loc

section Place

variable {fs : FileSystem} {kernels : Path} {child : Name} (isName : IsName child)

include isName

/-- A place has the last name of its path in the directory that the path above leads to. -/
theorem lookupPlace_place (nonempty : kernels.bytes ≠ []) {spot : Spot}
    (led : fs.lookupPlace (kernels.join ⟨child⟩) = .ok spot) :
    ∃ above, fs.locate kernels = .ok above ∧ spot.loc = above ++ [child] := by
  obtain ⟨valid, follows⟩ := resolveSegments_eq_ok_iff.mp led
  have valid := checkPath_of_join valid isName.not_mem nonempty
  rw [segments_place isName, startFrom_place isName] at follows
  obtain ⟨above, leads, isDir, spots⟩ := follows.above_kept
  refine ⟨above, locate_eq_ok_iff.mpr ⟨valid, (follows_lookupSegments_iff isDir).mpr leads⟩, ?_⟩
  obtain ⟨rfl, _⟩ | ⟨rfl, _⟩ := spots <;> rfl

end Place

theorem room_of_makeRoom {place : Path} {front : List Segment} {last : Name} {fs : FileSystem}
    (noSlash : place.endsInSlash = false) (ends : place.segments = front ++ [.name last])
    {replace : Bool} {cleared : FileSystem}
    (run : (makeRoom place replace).run fs = (.ok (), cleared)) : Room fs place cleared := by
  rw [run_makeRoom] at run
  split at run
  · next taken =>
    split at run
    · rw [Installing.ofDisk, run_adapt] at run
      obtain ⟨done, rfl⟩ := Prod.mk.inj run
      have removal : (Disk.removePath place).run fs =
          (.ok (), ((Disk.removePath place).run fs).2) :=
        Prod.ext (mapError_eq_ok_iff.mp done) rfl
      obtain ⟨fault, failed⟩ | ⟨loc, led, cleared⟩ := Disk.removePath_state noSlash fs
      · rw [failed] at removal
        cases removal
      · have notRoot := Disk.ne_nil_of_lookupPlace ends led
        have cleared := cleared notRoot
        have erased := clearedAt_erase fs notRoot
        have gone : without fs place = fs.erase loc := by
          rw [without, led]
          exact if_pos taken
        refine ⟨?_, cleared.extends, ?_, Disk.removePath_gone noSlash ends removal,
          .inr ⟨loc, led, cleared⟩⟩
        · rw [gone]
          exact cleared.extends_erase notRoot
        · rw [gone]
          exact erased.sameLinks cleared
    · cases run
  · next absent =>
    cases run
    have same := without_of_absent absent
    refine ⟨?_, .refl fs, ?_, mt pathExists_of_isDir absent, .inl rfl⟩
    · rw [same]
      exact .refl fs
    · rw [same]
      exact fun _ _ => Iff.rfl

/-- An installation fails and changes nothing, or copies the tree once room is made for it. -/
theorem install_copied {host : Host} {call : RegistryCall} {name : KernelName}
    (parsed : KernelName.parse call.name = .ok name) (isName : IsName (Bytes.ofString name.text))
    (fs : FileSystem) :
    let outcome := (jupyter host).install call () fs
    (∃ error, outcome.1 = .error error ∧ outcome.2.2 = fs) ∨
      ∃ kernels place cleared result, call.scope.kernelsDir host = .ok kernels ∧
        place = kernels.join ⟨Bytes.ofString name.text⟩ ∧ Room fs place cleared ∧
        (fs.pathExists place = true → call.replace = true) ∧
        (Disk.copyTree call.source place).run cleared = (result, outcome.2.2) ∧
        ∀ dir, outcome.1 = .ok dir →
          result = .ok () ∧ outcome.2.2.canonicalize place = .ok dir := by
  intro outcome
  have same : (outcome.1, outcome.2.2) = (installInto host call).run fs := rfl
  generalize outcome.1 = answer at same ⊢
  generalize outcome.2.2 = final at same ⊢
  obtain ⟨error, failed⟩ | ⟨_, place, parsed', destined, _, run⟩ := installInto_cases host call fs
  · cases same.trans failed
    exact .inl ⟨error, rfl, rfl⟩
  · cases parsed.symm.trans parsed'
    obtain ⟨kernels, found, rfl⟩ := map_eq_ok_iff.mp destined
    have ends : (kernels.child name.text).segments = _ := segments_place isName
    have noSlash : (kernels.child name.text).endsInSlash = false := endsInSlash_place isName
    obtain ⟨error, failed, rfl⟩ | ⟨_, cleared, made, copy⟩ :=
      run_bind_cases (run.symm.trans same.symm)
    · obtain rfl := makeRoom_error noSlash (by rw [ends, List.getLast?_concat]) failed
      exact .inl ⟨error, rfl, rfl⟩
    · right
      have room := room_of_makeRoom noSlash ends made
      have allowed : fs.pathExists (kernels.child name.text) = true → call.replace = true := by
        intro taken
        rw [run_makeRoom, if_pos taken] at made
        by_contra refused
        rw [if_neg refused] at made
        cases made
      rw [copyInto, Installing.ofDisk, run_adapt] at copy
      obtain ⟨answered, left⟩ := Prod.mk.inj copy
      cases steps : (Disk.copyTree call.source (kernels.child name.text) >>= fun _ =>
          Disk.ask (·.canonicalize (kernels.child name.text))).run cleared with
      | mk copied stop =>
        rw [steps] at answered left
        obtain rfl : stop = final := left
        obtain ⟨fault, stopped, rfl⟩ | ⟨_, mid, copied', asked⟩ := run_bind_cases steps
        · refine ⟨kernels, _, cleared, _, found, rfl, room, allowed, stopped, fun dir done => ?_⟩
          rw [← answered] at done
          cases done
        · obtain ⟨found', rfl⟩ := Prod.mk.inj asked
          refine ⟨kernels, _, cleared, _, found, rfl, room, allowed, copied', fun dir done => ?_⟩
          rw [← answered, mapError_eq_ok_iff] at done
          exact ⟨rfl, found'.trans done⟩

/-- An installation fails and changes nothing, or copies the tree to a place that is not a
directory, when each `..` of the destination is reached with the kernel taken away. -/
theorem install_treeCopied {host : Host} {call : RegistryCall} {name : KernelName}
    (parsed : KernelName.parse call.name = .ok name) (isName : IsName (Bytes.ofString name.text))
    {fs : FileSystem}
    (reached : ∀ kernels : Path, call.scope.kernelsDir host = .ok kernels →
      (fs.pathExists (kernels.join ⟨Bytes.ofString name.text⟩) = true → call.replace = true) →
      Reached (without fs (kernels.join ⟨Bytes.ofString name.text⟩))
        (kernels.join ⟨Bytes.ofString name.text⟩)) :
    let outcome := (jupyter host).install call () fs
    (∃ error, outcome.1 = .error error ∧ outcome.2.2 = fs) ∨
      ∃ kernels cleared result, call.scope.kernelsDir host = .ok kernels ∧
        Room fs (kernels.join ⟨Bytes.ofString name.text⟩) cleared ∧
        (fs.pathExists (kernels.join ⟨Bytes.ofString name.text⟩) = true → call.replace = true) ∧
        Disk.TreeCopied call.source (kernels.join ⟨Bytes.ofString name.text⟩) cleared result
          outcome.2.2 ∧
        ∀ dir, outcome.1 = .ok dir → result = .ok () ∧
          outcome.2.2.canonicalize (kernels.join ⟨Bytes.ofString name.text⟩) = .ok dir := by
  intro outcome
  obtain failed | ⟨kernels, _, cleared, result, found, rfl, room, allowed, copy, done⟩ :=
    install_copied parsed isName fs
  · exact .inl failed
  · have reached := (reached kernels found allowed).extend room.larger
    have copied := Disk.treeCopied reached (segments_place isName) room.absent copy
    exact .inr ⟨kernels, cleared, result, found, room, allowed, copied, done⟩

/-! ## Installations that fail -/

/-- Making room is refused before anything is removed. -/
theorem makeRoom_refused {place : Path} {replace : Bool} {fs changed : FileSystem}
    {error : InstallError} (failed : (makeRoom place replace).run fs = (.error error, changed))
    (other : ∀ path reason, error ≠ .copyFailed path reason) : changed = fs := by
  rw [run_makeRoom] at failed
  split at failed
  · split at failed
    · rw [Installing.ofDisk, run_adapt] at failed
      obtain ⟨_, _, rfl⟩ := mapError_eq_error_iff.mp (Prod.mk.inj failed).1
      exact absurd rfl (other place _)
    · cases failed
      rfl
  · cases failed

/-- Only removing and copying are reported as a failed copy, so any other error comes first. -/
theorem install_eq_self {host : Host} {call : RegistryCall} {fs : FileSystem} {error : InstallError}
    (failed : ((jupyter host).install call () fs).1 = .error error)
    (other : ∀ path reason, error ≠ .copyFailed path reason) :
    ((jupyter host).install call () fs).2.2 = fs := by
  change ((installInto host call).run fs).1 = _ at failed
  change ((installInto host call).run fs).2 = fs
  obtain ⟨_, run⟩ | ⟨name, place, _, _, _, run⟩ := installInto_cases host call fs
  · rw [run]
  · rw [run, run_bind] at failed ⊢
    cases room : (makeRoom place call.replace).run fs with
    | mk answer changed =>
      rw [room] at failed
      cases answer with
      | error refused =>
        cases failed
        exact makeRoom_refused room other
      | ok _ =>
        simp only at failed
        rw [copyInto, Installing.ofDisk, run_adapt] at failed
        simp only at failed
        obtain ⟨_, _, rfl⟩ := mapError_eq_error_iff.mp failed
        exact absurd rfl (other place _)

/-- An error other than a failed copy leaves the files as they were. Whatever the error, all that
was there is still there, except for what was at the destination, when each `..` of the destination
is reached with the kernel taken away. -/
theorem install_keeps_of_error {host : Host} {call : RegistryCall} {fs : FileSystem}
    {error : InstallError} (failed : ((jupyter host).install call () fs).1 = .error error) :
    let final := ((jupyter host).install call () fs).2.2
    ((∀ path reason, error ≠ .copyFailed path reason) → final = fs) ∧
      ∀ (name : KernelName) (kernels : Path), KernelName.parse call.name = .ok name →
        call.name ≠ "." → call.name ≠ ".." → call.scope.kernelsDir host = .ok kernels →
        fs.WellNamed →
        Reached (without fs (kernels.join ⟨Bytes.ofString name.text⟩))
          (kernels.join ⟨Bytes.ofString name.text⟩) →
        Extends (without fs (kernels.join ⟨Bytes.ofString name.text⟩)) final := by
  refine ⟨install_eq_self failed, fun name kernels parsed notHere notUp found named reached => ?_⟩
  have isName := KernelName.isName parsed notHere notUp
  obtain ⟨_, _, same⟩ | ⟨_, cleared, result, found', room, _, copied, _⟩ :=
    install_treeCopied parsed isName fun other found' _ => by
      cases found.symm.trans found'
      exact reached
  · rw [same]
    exact extends_without fs _
  · cases found.symm.trans found'
    exact room.larger.trans
      (copied.extends (segments_place isName) (room.smaller.wellNamed named))

/-- A kernel that is there stays when replacing is not asked for. When it is replaced and the copy
fails, here at a link that leads nowhere, all else stays. -/
theorem install_keeps_of_error_sample :
    let place := (Path.ofString "p/share/jupyter/kernels").join ⟨Bytes.ofString "java"⟩
    let fs := sampleFiles [("gone", .link (.ofString "nowhere"))]
    ((jupyter bareHost).install (sampleCall "src" false) () fs).2.2 = fs ∧
      Extends (without fs place)
        ((jupyter bareHost).install (sampleCall "src" true) () fs).2.2 := by
  intro place fs
  have refused : ((jupyter bareHost).install (sampleCall "src" false) () fs).1 =
      .error (.alreadyInstalled (.ofString "p/share/jupyter/kernels/java")) := by
    decide +kernel
  have stopped : ((jupyter bareHost).install (sampleCall "src" true) () fs).1 =
      .error (.copyFailed (.ofString "p/share/jupyter/kernels/java")
        (.copying (.walk (.ofString "src/gone") (.os .noEntry)))) := by
    decide +kernel
  have parsed : KernelName.parse (sampleCall "src" true).name = .ok ⟨"java"⟩ := by decide +kernel
  refine ⟨(install_keeps_of_error refused).1 (fun _ _ same => nomatch same), ?_⟩
  exact (install_keeps_of_error stopped).2 ⟨"java"⟩ _ parsed (by decide) (by decide) rfl
    (wellNamed_of_objects (by decide +kernel)) (by decide +kernel)

/-- A copy that fails, here at a link that leads nowhere, leaves what it has made. The kernel that
was to be replaced is gone, and where there was none there is a part of one. -/
theorem install_error_replaced :
    let fs := sampleFiles [("gone", .link (.ofString "nowhere"))]
    let outcome := (jupyter bareHost).install (sampleCall "src" true) () fs
    let added := (jupyter bareHost).install
      ⟨.ofString "src", "java", .under (.ofString "q"), false⟩ () fs
    let fault := Fault.walk (.ofString "src/gone") (.os .noEntry)
    outcome.1 =
        .error (.copyFailed (.ofString "p/share/jupyter/kernels/java") (.copying fault)) ∧
      fs.kind? (sampleLoc ++ [Bytes.ofString "kernel.json"]) = some (.file [] false) ∧
      outcome.2.2.kind? (sampleLoc ++ [Bytes.ofString "kernel.json"]) = none ∧
      added.1 = .error (.copyFailed (.ofString "q/share/jupyter/kernels/java") (.copying fault)) ∧
      fs.pathExists (.ofString "q/share/jupyter/kernels/java") = false ∧
      added.2.2.pathExists (.ofString "q/share/jupyter/kernels/java") = true := by
  decide +kernel

/-! ## The way to the kernels directory -/

/-- The kernels directory is at a location, also when the kernel in it is taken away, and each `..`
of its path is then reached. -/
structure Straight (fs : FileSystem) (kernels : Path) (child : Name) (dir : Loc) : Prop where
  before : Passes fs (startFrom kernels fs.cwd, kernels.segments) (dir, [])
  after : Passes (without fs (kernels.join ⟨child⟩)) (startFrom kernels fs.cwd, kernels.segments)
    (dir, [])
  reached : Reached (without fs (kernels.join ⟨child⟩)) kernels

section Straight

variable {fs : FileSystem} {kernels : Path} {child : Name} {dir : Loc} (isName : IsName child)

include isName

theorem Straight.reached_place (straight : Straight fs kernels child dir) :
    Reached (without fs (kernels.join ⟨child⟩)) (kernels.join ⟨child⟩) := by
  refine .of_follows fun front back up => ?_
  rw [startFrom_place isName]
  rw [segments_place isName] at up
  -- The last segment is a name, so a `..` is one of the kernels directory.
  obtain rfl | ⟨init, last, rfl⟩ := List.eq_nil_or_concat back
  · have lasts := (List.append_inj' up rfl).2
    cases lasts
  · rw [List.concat_eq_append, ← List.cons_append, ← List.append_assoc] at up
    exact straight.reached.follows (List.append_inj' up rfl).1

/-- What is removed to make room is the object of the kernels directory. -/
theorem Straight.outside (straight : Straight fs kernels child dir) {cleared : FileSystem}
    (room : Room fs (kernels.join ⟨child⟩) cleared) {loc : Loc}
    (outside : ¬ dir ++ [child] <+: loc) : cleared.kind? loc = fs.kind? loc := by
  obtain same | ⟨removed, led, was⟩ := room.removed
  · rw [same]
  · have follows := (resolveSegments_eq_ok_iff.mp led).2
    rw [segments_place isName, startFrom_place isName] at follows
    obtain ⟨above, leads, _, ⟨same, _⟩ | ⟨same, _⟩⟩ := follows.above_kept
    · cases same
    · cases same
      obtain same | ⟨_, step, _⟩ := (straight.before.onward leads.passes_followed).cases_head
      · cases same
        exact was.outside loc outside
      · cases step

theorem Straight.way (straight : Straight fs kernels child dir) {cleared : FileSystem}
    (room : Room fs (kernels.join ⟨child⟩) cleared) :
    Passes cleared (startFrom (kernels.join ⟨child⟩) cleared.cwd, kernels.segments) (dir, []) := by
  rw [startFrom_place isName, room.smaller.cwd.symm]
  exact straight.after.congr room.links

end Straight

/-- A path of names is straight where none of them is a link. -/
theorem Straight.of_names {fs : FileSystem} {kernels : Path} {names : List Name}
    (spelled : kernels.segments = names.map .name)
    (plain : ∀ part target, part <+: names →
      fs.kind? (startFrom kernels fs.cwd ++ part) ≠ some (.link target)) (child : Name) :
    Straight fs kernels child (startFrom kernels fs.cwd ++ names) where
  before := by
    rw [spelled]
    exact passes_names plain
  after := by
    rw [spelled]
    exact passes_names fun part target within linked =>
      plain part target within ((extends_without fs _).kept _ _ linked)
  reached := by
    refine .of_follows fun front back up => ?_
    have mem : Segment.up ∈ names.map .name := by
      rw [← spelled, up]
      simp
    obtain ⟨_, _, same⟩ := List.mem_map.mp mem
    cases same

theorem kernelsDir_ne_nil {host : Host} {scope : Scope} {kernels : Path}
    (found : scope.kernelsDir host = .ok kernels) : kernels.bytes ≠ [] := by
  obtain ⟨data, _, rfl⟩ := map_eq_ok_iff.mp found
  have nonempty : (ofString "kernels").bytes ≠ [] := by decide
  obtain ⟨between, bytes, _⟩ := join_bytes (q := ofString "kernels") (by decide) data
  rw [child, bytes]
  exact List.append_ne_nil_of_right_ne_nil _ nonempty

/-- An installation changes nothing but the kernel itself and missing directories above it. -/
theorem install_differsAt {host : Host} {call : RegistryCall} {name : KernelName} {kernels : Path}
    (parsed : KernelName.parse call.name = .ok name) (isName : IsName (Bytes.ofString name.text))
    (found : call.scope.kernelsDir host = .ok kernels) {fs : FileSystem} (named : fs.WellNamed)
    {dir : Loc} (straight : Straight fs kernels (Bytes.ofString name.text) dir) :
    DiffersAt fs ((jupyter host).install call () fs).2.2 (dir ++ [Bytes.ofString name.text]) := by
  obtain ⟨_, _, same⟩ | ⟨_, cleared, result, found', room, _, copied, _⟩ :=
    install_treeCopied parsed isName fun other found' _ => by
      cases found.symm.trans found'
      exact straight.reached_place isName
  · rw [same]
    exact fun _ _ => .inl rfl
  · cases found.symm.trans found'
    have reached := (straight.reached_place isName).extend room.larger
    intro loc outside
    rw [← straight.outside isName room outside]
    exact copied.differsAt reached (segments_place isName) (room.smaller.wellNamed named)
      (straight.way isName room) loc outside

/-- An accepted name other than `.` and `..` keeps an installation inside the kernels directory. -/
theorem install_inside {host : Host} {scope : Scope} {text : String} {name : KernelName}
    {kernels : Path} (accepted : KernelName.parse text = .ok name) (notHere : text ≠ ".")
    (notUp : text ≠ "..") (found : scope.kernelsDir host = .ok kernels) :
    let child := Bytes.ofString name.text
    let place := kernels.join ⟨child⟩
    destination host scope name = .ok place ∧ IsName child ∧
      place.segments = kernels.segments ++ [.name child] ∧
      (∀ (fs : FileSystem) (spot : Spot), fs.lookupPlace place = .ok spot →
        ∃ dir, fs.locate kernels = .ok dir ∧ spot.loc = dir ++ [child]) ∧
      ∀ (source : Path) (replace : Bool) (fs : FileSystem) (dir : Loc), fs.WellNamed →
        Straight fs kernels child dir →
        DiffersAt fs ((jupyter host).install ⟨source, text, scope, replace⟩ () fs).2.2
          (dir ++ [child]) := by
  intro child place
  have destined : destination host scope name = .ok place := by
    rw [destination, found]
    rfl
  have isName : IsName child := KernelName.isName accepted notHere notUp
  refine ⟨destined, isName, segments_place isName, fun fs spot led => ?_, ?_⟩
  · exact lookupPlace_place isName (kernelsDir_ne_nil found) led
  · intro source replace fs dir named straight
    have parsed : KernelName.parse (RegistryCall.mk source text scope replace).name = .ok name :=
      accepted
    exact install_differsAt parsed isName found named straight

/-- A kernel beside which another one and a running program keep files, and a link in it to a file
elsewhere. -/
def neighbourFiles : FileSystem :=
  ⟨directory [("src", directory [("kernel.json", .file (Bytes.ofString "new") false)]),
    ("secret", .file (Bytes.ofString "old") false),
    ("p", directory [("share", directory [("jupyter", directory
      [("kernels", directory [("java", directory [("kernel.json", .link (.ofString "/secret"))])]),
       ("runtime", .file [] false)])])])], []⟩

/-- Files outside of the kernels directory are lost to a kernel of the name `..`, and are written
through a link in the kernel when a `..` of the prefix is not reached. -/
theorem install_outside :
    let runtime := ["p", "share", "jupyter", "runtime"].map Bytes.ofString
    let above := (jupyter bareHost).install
      ⟨.ofString "src", "..", .under (.ofString "p"), true⟩ () neighbourFiles
    let around := (jupyter bareHost).install
      ⟨.ofString "src", "java", .under (.ofString "missing/../p"), true⟩ () neighbourFiles
    above.1 = .ok (.ofString "/p/share/jupyter") ∧
      neighbourFiles.kind? runtime = some (.file [] false) ∧ above.2.2.kind? runtime = none ∧
      around.1 = .ok (.ofString "/p/share/jupyter/kernels/java") ∧
      around.2.2.kind? [Bytes.ofString "secret"] = some (.file (Bytes.ofString "new") false) := by
  decide +kernel

/-- The kernel of the samples is replaced under a name in another case. -/
theorem install_inside_sample :
    KernelName.parse "Java" = .ok ⟨"java"⟩ ∧
      DiffersAt (sampleFiles [("kernel.json", .file [] false)])
        ((jupyter bareHost).install ⟨.ofString "src", "Java", .under (.ofString "p"), true⟩ ()
          (sampleFiles [("kernel.json", .file [] false)])).2.2 sampleLoc := by
  have accepted : KernelName.parse "Java" = .ok ⟨"java"⟩ := by decide +kernel
  have found : (Scope.under (.ofString "p")).kernelsDir bareHost =
      .ok (.ofString "p/share/jupyter/kernels") := rfl
  obtain ⟨_, _, _, _, changes⟩ := install_inside accepted (by decide) (by decide) found
  have linkFree : (sampleFiles [("kernel.json", .file [] false)]).LinkFree :=
    linkFree_of_isLink (by decide +kernel) (by decide +kernel)
  have spelled : (Path.ofString "p/share/jupyter/kernels").segments =
      sampleLoc.dropLast.map .name := by
    decide +kernel
  have straight : Straight (sampleFiles [("kernel.json", .file [] false)])
      (.ofString "p/share/jupyter/kernels") (Bytes.ofString "java") sampleLoc.dropLast :=
    .of_names spelled (fun _ target _ => linkFree _ target) _
  have named : (sampleFiles [("kernel.json", .file [] false)]).WellNamed :=
    wellNamed_of_objects (by decide +kernel)
  have last : sampleLoc.dropLast ++ [Bytes.ofString "java"] = sampleLoc := by decide +kernel
  exact ⟨accepted, last ▸ changes (.ofString "src") true _ _ named straight⟩

end KernelSpec.Registry
