import KernelSpec.Proofs.FileSystem.Walk
import KernelSpec.Proofs.Registry.Place

/-! # Replacing a kernel

What is at the place of a kernel is taken away for a new one, be it a file, a tree or a link, of
which the target stays (`install_replaces`). Nothing withstands being taken away here, as
`Disk.removeTree` says. Whether something is there is asked of what the path leads to. So a link
that leads nowhere is not taken away, and the copy finds it in its way.
-/

namespace KernelSpec.Registry

open FileSystem KernelSpec.Path Steps

/-- A tree and the place of a kernel do not overlap: without what is at the place, the kernels
directory and the tree are found, and a walk of the tree does not come to the place. -/
structure Separate (fs : FileSystem) (source kernels : Path) (child : Name) (loc dir : Loc) :
    Prop where
  above : (without fs (kernels.join ⟨child⟩)).locate kernels = .ok dir
  isDir : (without fs (kernels.join ⟨child⟩)).kind? dir = some .dir
  located : (without fs (kernels.join ⟨child⟩)).locate source = .ok loc
  outside : Outside (without fs (kernels.join ⟨child⟩)) (dir ++ [child]) loc

/-- A tree of files stands at a location as it is found under a path, and nothing else is new. -/
structure Replaced (fs changed : FileSystem) (source : Path) (top : Loc) : Prop where
  copied : ∀ names : List Name, (∀ name ∈ names, IsName name) →
    changed.kind? (top ++ names) = fs.pathKind? (source.below names)
  outside : ∀ spot, ¬ top <+: spot → changed.kind? spot = fs.kind? spot
  apart : ∀ spot, ¬ top <+: spot → ¬ spot <+: top → changed.get? spot = fs.get? spot

/-- A copy that has grown where a location was cleared has replaced what was there. -/
theorem replaced_of_grown {fs cleared changed : FileSystem} {source : Path} {top loc : Loc}
    (was : ClearedAt fs cleared top) (located : cleared.locate source = .ok loc)
    (outside : Outside cleared top loc) (grown : Grown cleared changed top)
    (mirrored : ∀ names : List Name, (∀ name ∈ names, IsName name) →
      changed.kind? (top ++ names) = cleared.pathKind? (source.below names)) :
    Replaced fs changed source top where
  copied names areNames := by
    rw [mirrored names areNames]
    refine (pathKind?_below_extend was.extends located areNames fun stop rest passes => ?_).symm
    exact (was.outside stop (outside names stop rest passes)).symm
  outside spot away := by rw [grown.outside away, was.outside spot away]
  apart spot notBelow notAbove := by
    obtain ⟨node, rfl⟩ := grown.put
    rw [get?_put_of_apart cleared node notBelow notAbove, was.apart spot notBelow notAbove]

section Place

variable {fs : FileSystem} {source kernels : Path} {child : Name} {loc dir : Loc}

theorem Separate.enters (separate : Separate fs source kernels child loc dir) :
    Enters (without fs (kernels.join ⟨child⟩)) kernels dir :=
  ⟨follows_of_locate separate.above, separate.isDir⟩

variable (isName : IsName child)

include isName

/-- An object of the kernels directory is what its path names. -/
theorem lookupPlace_of_enters (enters : Enters fs kernels dir)
    (valid : checkPath (kernels.join ⟨child⟩) = .ok ()) (short : child.length ≤ maxName)
    (there : fs.kind? (dir ++ [child]) ≠ none) :
    fs.lookupPlace (kernels.join ⟨child⟩) = .ok (.occupied (dir ++ [child])) := by
  refine resolveSegments_eq_ok_iff.mpr ⟨valid, ?_⟩
  rw [segments_place isName, startFrom_place isName]
  refine enters.leads.append_free ?_ (by simp)
  obtain ⟨entry, found⟩ := Option.ne_none_iff_exists'.mp there
  cases entry with
  | link target => exact .kept enters.isDir short found rfl
  | dir | file => exact .name enters.isDir short found (fun _ => Entry.noConfusion) (.done _)

/-- What is at the place is the object of the kernels directory. -/
theorem lookupPlace_of_pathExists (enters : Enters fs kernels dir)
    (taken : fs.pathExists (kernels.join ⟨child⟩) = true) :
    fs.lookupPlace (kernels.join ⟨child⟩) = .ok (.occupied (dir ++ [child])) := by
  obtain ⟨_, located, _⟩ := pathExists_iff.mp taken
  obtain ⟨held, led⟩ := lookupPlace_of_locate located
  have follows := (resolveSegments_eq_ok_iff.mp led).2
  rw [segments_place isName, startFrom_place isName] at follows
  obtain ⟨above, leads, _, ⟨same, _⟩ | ⟨same, _⟩⟩ := follows.above_kept
  · cases same
  · cases leads.unique enters.leads
    rw [led, same]

section Separate

variable (separate : Separate fs source kernels child loc dir)

include separate

theorem Separate.without_eq (taken : fs.pathExists (kernels.join ⟨child⟩) = true) :
    without fs (kernels.join ⟨child⟩) = fs.erase (dir ++ [child]) := by
  have enters := separate.enters.extend (extends_without fs _)
  rw [without, lookupPlace_of_pathExists isName enters taken]
  exact if_pos taken

/-- The place is free without what is at it. -/
theorem Separate.clearedAt
    (shown : fs.kind? (dir ++ [child]) ≠ none → fs.pathExists (kernels.join ⟨child⟩) = true) :
    ClearedAt fs (without fs (kernels.join ⟨child⟩)) (dir ++ [child]) ∧
      (without fs (kernels.join ⟨child⟩)).kind? (dir ++ [child]) = none := by
  have notRoot : dir ++ [child] ≠ [] := by simp
  by_cases taken : fs.pathExists (kernels.join ⟨child⟩) = true
  · rw [separate.without_eq isName taken]
    exact ⟨clearedAt_erase fs notRoot, kind?_erase_below fs notRoot List.prefix_rfl⟩
  · have missing : fs.kind? (dir ++ [child]) = none := by
      by_contra there
      exact taken (shown there)
    rw [without_of_absent taken]
    exact ⟨⟨rfl, fun _ _ _ => rfl, fun _ _ => rfl, fun _ below =>
      .inl (kind?_of_missing missing below)⟩, missing⟩

theorem Separate.run_makeRoom (valid : checkPath (kernels.join ⟨child⟩) = .ok ())
    (short : child.length ≤ maxName) :
    (makeRoom (kernels.join ⟨child⟩) true).run fs =
      (.ok (), without fs (kernels.join ⟨child⟩)) := by
  by_cases taken : fs.pathExists (kernels.join ⟨child⟩) = true
  · have led := lookupPlace_of_pathExists isName (separate.enters.extend (extends_without fs _))
      taken
    have gone := separate.without_eq isName taken
    have removed := Disk.run_removePath_eq (endsInSlash_place isName) (segments_place isName) led
      fun entries found => by
        -- The way to the kernels directory is there without the kernel, so it is there when the
        -- kernel is empty.
        have larger := (clearedAt_clear found).extends_erase (by simp)
        rw [← gone] at larger
        refine lookupPlace_of_enters isName (separate.enters.extend larger) valid short ?_
        rw [kind?, get?_clear found]
        exact Option.some_ne_none _
    rw [gone]
    exact run_makeRoom_of_taken taken removed
  · rw [Registry.run_makeRoom, if_neg taken, without_of_absent taken]

end Separate

/-- Nothing can be copied to a place whose path leads nowhere though something is there. -/
theorem run_copyTree_of_dangling (enters : Enters fs kernels dir)
    (valid : checkPath (kernels.join ⟨child⟩) = .ok ())
    (slashed : checkPath ((kernels.join ⟨child⟩).join ⟨[]⟩) = .ok ())
    (short : child.length ≤ maxName) (there : fs.kind? (dir ++ [child]) ≠ none)
    (absent : ¬ fs.pathExists (kernels.join ⟨child⟩) = true)
    (located : fs.locate source = .ok loc) (tree : fs.kind? loc = some .dir) :
    (Disk.copyTree source (kernels.join ⟨child⟩)).run fs = (.error (.os .alreadyExists), fs) := by
  have led : fs.lookupPlace ((kernels.join ⟨child⟩).join ⟨[]⟩) =
      .ok (.occupied (dir ++ [child])) := by
    have follows := (resolveSegments_eq_ok_iff.mp
      (lookupPlace_of_enters isName enters valid short there)).2
    refine resolveSegments_eq_ok_iff.mpr ⟨slashed, ?_⟩
    rw [segments_join_nil, startFrom, isAbsolute_join_nil]
    exact follows
  have notDir : ¬ fs.isDir ((kernels.join ⟨child⟩).join ⟨[]⟩) = true := by
    intro isDir
    obtain ⟨held, located, found⟩ := isDir_iff.mp isDir
    have leads := follows_of_locate located
    rw [segments_join_nil, startFrom, isAbsolute_join_nil] at leads
    exact absent (pathExists_of_isDir (Enters.isDir_path ⟨leads, found⟩ valid))
  have stopped := Disk.run_createDirs_of_taken
    (Disk.parent?_slash_ne_none (segments_place (p := kernels) isName)) led
  rw [if_neg notDir] at stopped
  rw [Disk.run_copyTree_of_dir (Disk.walkStart_of_locate located tree) tree, run_bind, stopped]

/-- The path of the copy of an object is valid if it is not too long. -/
theorem checkPath_copy (noNul : 0 ∉ child) (above : checkPath kernels = .ok ())
    {names : List Name} {spot : Loc} (finds : Finds fs source names spot)
    (fits : ((kernels.join ⟨child⟩).below names).bytes.length < maxPath) :
    checkPath ((kernels.join ⟨child⟩).below names) = .ok () := by
  have areNames : ∀ n ∈ child :: names, IsName n :=
    List.forall_mem_cons.mpr ⟨isName, finds.areNames⟩
  have other : (0 : UInt8) ≠ slash := by decide
  obtain ⟨clean, nonempty, _⟩ := checkPath_eq_ok_iff.mp above
  obtain ⟨found, _, _⟩ := checkPath_eq_ok_iff.mp (locate_eq_ok_iff.mp finds.located).1
  have namesClean := ((not_mem_below_iff finds.areNames other source).mp found).2
  change checkPath (kernels.below (child :: names)) = .ok ()
  refine checkPath_eq_ok_iff.mpr ⟨?_, ?_, fits.le⟩
  · rw [not_mem_below_iff areNames other]
    exact ⟨clean, List.forall_mem_cons.mpr ⟨noNul, namesClean⟩⟩
  · intro empty
    have part := prefix_below areNames kernels
    rw [empty] at part
    exact nonempty (List.prefix_nil.mp part)

/-- What a link at the place leads to is elsewhere. -/
theorem not_prefix_of_link {target : Path} {held : Loc}
    (linked : fs.kind? (dir ++ [child]) = some (.link target))
    (located : fs.locate (kernels.join ⟨child⟩) = .ok held) : ¬ dir ++ [child] <+: held := by
  have leads := follows_of_locate located
  have start := leads.isDir (by rw [segments_place isName]; simp)
  obtain ⟨entry, found, noLink⟩ := leads.there start
  rintro ⟨more, rfl⟩
  cases more with
  | nil =>
    rw [List.append_nil, linked] at found
    exact noLink target (Option.some.inj found).symm
  | cons inner rest =>
    have leaf : ∀ entries, fs.get? (dir ++ [child]) ≠ some (.dir entries) := by
      intro entries here
      rw [kind?, here] at linked
      cases linked
    rw [kind?, get?_append_eq_none leaf] at found
    cases found

end Place

theorem checkPath_slash {p : Path} (valid : checkPath p = .ok ())
    (fits : p.bytes.length < maxPath) : checkPath (p.join ⟨[]⟩) = .ok () := by
  obtain ⟨clean, nonempty, _⟩ := checkPath_eq_ok_iff.mp valid
  obtain ⟨between, bytes, way⟩ := join_bytes (q := ⟨[]⟩) (by simp) p
  rw [checkPath_eq_ok_iff, bytes, List.append_nil]
  obtain ⟨rfl, _⟩ | ⟨rfl, _⟩ := way
  · refine ⟨?_, by simp, ?_⟩
    · have other : (0 : UInt8) ≠ slash := by decide
      simp [clean, other]
    · rw [List.length_append, List.length_singleton]
      omega
  · rw [List.append_nil]
    exact ⟨clean, nonempty, fits.le⟩

section Install

variable {host : Host} {call : RegistryCall} {name : KernelName} {kernels : Path}
  {fs : FileSystem} {loc dir : Loc} (parsed : KernelName.parse call.name = .ok name)
  (isName : IsName (Bytes.ofString name.text)) (replaces : call.replace = true)
  (found : call.scope.kernelsDir host = .ok kernels)
  (separate : Separate fs call.source kernels (Bytes.ofString name.text) loc dir)
  (whole : Whole fs call.source loc) (tree : fs.kind? loc = some .dir)
  (short : (Bytes.ofString name.text).length ≤ maxName)
  (fits : ∀ names spot, Finds fs call.source names spot →
    ((kernels.join ⟨Bytes.ofString name.text⟩).below names).bytes.length < maxPath)

include parsed isName separate fits

theorem checkPath_copies {names : List Name} {spot : Loc}
    (finds : Finds fs call.source names spot) :
    checkPath ((kernels.join ⟨Bytes.ofString name.text⟩).below names) = .ok () :=
  checkPath_copy isName (KernelName.nul_not_mem parsed) (locate_eq_ok_iff.mp separate.above).1 finds
    (fits names spot finds)

include replaces found whole tree short

/-- A kernel is replaced, whatever its path leads to. -/
theorem install_of_shown (named : fs.WellNamed)
    (shown : fs.kind? (dir ++ [Bytes.ofString name.text]) ≠ none →
      fs.pathExists (kernels.join ⟨Bytes.ofString name.text⟩) = true) :
    let place := kernels.join ⟨Bytes.ofString name.text⟩
    let top := dir ++ [Bytes.ofString name.text]
    ∃ result changed, (jupyter host).install call () fs = (result, (), changed) ∧
      (FitsAlong (without fs place) (startFrom place fs.cwd) place.segments →
        result = .ok (pathOf top)) ∧
      (¬ FitsAlong (without fs place) (startFrom place fs.cwd) place.segments →
        result = .error (.copyFailed place (.copying (.os .nameTooLong)))) ∧
      Replaced fs changed call.source top := by
  intro place top
  obtain ⟨cleared, missing⟩ := separate.clearedAt isName shown
  have larger := cleared.extends
  have same : ∀ spot, ¬ dir ++ [Bytes.ofString name.text] <+: spot → fs.kind? spot =
      (without fs (kernels.join ⟨Bytes.ofString name.text⟩)).kind? spot :=
    fun spot away => (cleared.outside spot away).symm
  have apart : ¬ dir ++ [Bytes.ofString name.text] <+: loc := separate.outside [] loc [] .refl
  -- The tree is as whole without the kernel, since its walk does not come to the place.
  have wholeTree := (whole_iff larger missing same separate.located separate.outside).mp whole
  have top : Finds fs call.source [] loc := ⟨by simp, whole.located⟩
  have valid := checkPath_copies parsed isName separate fits top
  have ready : Disk.Ready (without fs (kernels.join ⟨Bytes.ofString name.text⟩)) [] call.source
      (kernels.join ⟨Bytes.ofString name.text⟩) loc :=
    ⟨wholeTree, fun _ _ _ _ _ mem => absurd mem List.not_mem_nil, fun names spot finds =>
      checkPath_copies parsed isName separate fits
        ((finds_iff larger same separate.located separate.outside).mpr finds)⟩
  obtain ⟨changed, copied, grown, enters, mirrored⟩ := Disk.run_copyTree_ready
    (separate.enters.spare isName missing) (cleared.wellNamed named) ready
    ((cleared.outside loc apart).trans tree) separate.outside short
    (checkPath_slash valid (fits [] loc top))
  have room := separate.run_makeRoom isName valid short
  have done := install_of_steps parsed (isDir_iff.mpr ⟨loc, whole.located, tree⟩)
    (destination_of_kernelsDir found) (replaces ▸ room) (run_copyInto copied rfl)
  -- The copy makes no links, so the paths on the way are as long as they were before it.
  have way : FitsAlong changed (startFrom place changed.cwd) (lookupSegments place) ↔
      FitsAlong (without fs place) (startFrom place fs.cwd) place.segments := by
    have links := grown.sameLinks missing
    rw [lookupSegments, endsInSlash_place isName, if_neg Bool.false_ne_true, List.append_nil,
      (grown.extends missing).cwd, ← cleared.cwd]
    exact ⟨fun fits => fits.congr links.symm, fun fits => fits.congr links⟩
  obtain ⟨answers, refuses⟩ := canonicalize_of_locate (enters.locate valid)
  rw [way] at answers refuses
  refine ⟨_, changed, done, fun fits => ?_, fun tooLong => ?_,
    replaced_of_grown cleared separate.located separate.outside grown mirrored⟩
  · rw [answers fits]
    rfl
  · rw [refuses tooLong]
    rfl

/-- A link that leads nowhere is not replaced. -/
theorem install_of_dangling
    (there : fs.kind? (dir ++ [Bytes.ofString name.text]) ≠ none)
    (absent : fs.pathExists (kernels.join ⟨Bytes.ofString name.text⟩) = false) :
    (jupyter host).install call () fs = (.error (.copyFailed
      (kernels.join ⟨Bytes.ofString name.text⟩) (.copying (.os .alreadyExists))), (), fs) := by
  have absent : ¬ fs.pathExists (kernels.join ⟨Bytes.ofString name.text⟩) = true := by
    simp [absent]
  have top : Finds fs call.source [] loc := ⟨by simp, whole.located⟩
  have valid := checkPath_copies parsed isName separate fits top
  have enters := separate.enters.extend (extends_without fs _)
  have room := separate.run_makeRoom isName valid short
  rw [without_of_absent absent] at room
  have stopped := run_copyTree_of_dangling isName enters valid
    (checkPath_slash valid (fits [] loc top)) short there absent whole.located tree
  refine install_of_steps parsed (isDir_iff.mpr ⟨loc, whole.located, tree⟩)
    (destination_of_kernelsDir found) (replaces ▸ room) ?_
  rw [copyInto, Installing.ofDisk, run_adapt, run_bind, stopped]
  rfl

end Install

/-- Replacing succeeds whatever is at the place, unless it is a link that leads nowhere. Then the
kernel is the tree, all else is as it was, and of a link that was there the target is left as it is.
Where the target is a directory above the place, that holds of all in it but the kernel. Success is
reported only if no absolute path on the way to the kernel, its own included, is too long; otherwise
the kernel is replaced and an error is given. -/
theorem install_replaces {host : Host} {call : RegistryCall} {name : KernelName} {kernels : Path}
    {fs : FileSystem} {loc dir : Loc} (parsed : KernelName.parse call.name = .ok name)
    (notHere : call.name ≠ ".") (notUp : call.name ≠ "..") (replaces : call.replace = true)
    (found : call.scope.kernelsDir host = .ok kernels) (named : fs.WellNamed)
    (separate : Separate fs call.source kernels (Bytes.ofString name.text) loc dir)
    (whole : Whole fs call.source loc) (tree : fs.kind? loc = some .dir)
    (short : (Bytes.ofString name.text).length ≤ maxName)
    (fits : ∀ names spot, Finds fs call.source names spot →
      ((kernels.join ⟨Bytes.ofString name.text⟩).below names).bytes.length < maxPath) :
    let place := kernels.join ⟨Bytes.ofString name.text⟩
    let top := dir ++ [Bytes.ofString name.text]
    let outcome := (jupyter host).install call () fs
    ((fs.kind? top ≠ none → fs.pathExists place = true) →
      (FitsAlong (without fs place) (startFrom place fs.cwd) place.segments →
        outcome.1 = .ok (pathOf top)) ∧
      (¬ FitsAlong (without fs place) (startFrom place fs.cwd) place.segments →
        outcome.1 = .error (.copyFailed place (.copying (.os .nameTooLong)))) ∧
      Replaced fs outcome.2.2 call.source top ∧
        ∀ target held, fs.kind? top = some (.link target) → fs.locate place = .ok held →
          ¬ top <+: held ∧ (¬ held <+: top → outcome.2.2.get? held = fs.get? held)) ∧
      (fs.kind? top ≠ none → fs.pathExists place = false →
        outcome = (.error (.copyFailed place (.copying (.os .alreadyExists))), (), fs)) := by
  intro place top outcome
  have isName := KernelName.isName parsed notHere notUp
  constructor
  · intro shown
    obtain ⟨result, changed, done, succeeds, fails, replaced⟩ :=
      install_of_shown parsed isName replaces found separate whole tree short fits named shown
    rw [show outcome = _ from done]
    refine ⟨succeeds, fails, replaced, fun target held linked located => ?_⟩
    have notBelow := not_prefix_of_link isName linked located
    exact ⟨notBelow, replaced.apart held notBelow⟩
  · exact install_of_dangling parsed isName replaces found separate whole tree short fits

/-- What is seen of all objects below a location is seen of those that are listed. -/
theorem below_of_objects {fs : FileSystem} {loc : Loc} {P : List Name → Entry → Prop}
    (notRoot : loc ≠ [])
    (listed : ∀ object ∈ fs.objects, loc <+: object.1 → P (object.1.drop loc.length) object.2) :
    ∀ names entry, fs.kind? (loc ++ names) = some entry → P names entry := by
  intro names entry found
  have holds := listed _ (mem_objects found (by simp [notRoot])) (List.prefix_append _ _)
  rwa [List.drop_left] at holds

/-- A source with a directory in it, and a kernel that is a link. -/
def storedFiles (target : String) : FileSystem :=
  ⟨directory [("src", directory [("kernel.json", .file (Bytes.ofString "new") false),
      ("lib", directory [("kernel.jar", .file [] false)])]),
    ("store", directory [("kernel.json", .file (Bytes.ofString "old") false)]),
    ("p", directory [("share", directory [("jupyter", directory [("kernels",
      directory [("java", .link (.ofString target))])])])])], []⟩

/-- The kernels directory of the samples. -/
def sampleKernels : Path := .ofString "p/share/jupyter/kernels"

theorem separate_storedFiles :
    Separate (storedFiles "/store") (.ofString "src") sampleKernels (Bytes.ofString "java")
      [Bytes.ofString "src"] sampleLoc.dropLast := by
  have linkFree : (without (storedFiles "/store")
      (sampleKernels.join ⟨Bytes.ofString "java"⟩)).LinkFree :=
    linkFree_of_isLink (by decide +kernel) (by decide +kernel)
  refine ⟨by decide +kernel, by decide +kernel, by decide +kernel, ?_⟩
  exact LinksDown.outside (fun spot target _ linked => absurd linked (linkFree spot target))
    (by decide +kernel) (by decide +kernel)

theorem whole_storedFiles :
    Whole (storedFiles "/store") (.ofString "src") [Bytes.ofString "src"] ∧
      ∀ names spot, Finds (storedFiles "/store") (.ofString "src") names spot →
        ((sampleKernels.join ⟨Bytes.ofString "java"⟩).below names).bytes.length < maxPath := by
  have below : ∀ names entry,
      (storedFiles "/store").kind? ([Bytes.ofString "src"] ++ names) = some entry →
      isLink entry = false ∧ checkPath ((Path.ofString "src").below names) = .ok () ∧
        (∀ name ∈ names, IsName name ∧ name.length ≤ maxName) ∧
        ((sampleKernels.join ⟨Bytes.ofString "java"⟩).below names).bytes.length < maxPath :=
    below_of_objects (List.cons_ne_nil _ _) (by decide +kernel)
  have located : (storedFiles "/store").locate (.ofString "src") = .ok [Bytes.ofString "src"] := by
    decide +kernel
  have tree : (storedFiles "/store").kind? [Bytes.ofString "src"] = some .dir := by decide +kernel
  have plain : ∀ names target,
      (storedFiles "/store").kind? ([Bytes.ofString "src"] ++ names) ≠ some (.link target) :=
    fun names target linked => nomatch (below names _ linked).1
  refine ⟨.of_plain plain located fun names there => ?_, fun names spot finds => ?_⟩
  · obtain ⟨entry, kind⟩ := Option.ne_none_iff_exists'.mp there
    exact ⟨(below names entry kind).2.1, (below names entry kind).2.2.1⟩
  · obtain ⟨_, follows⟩ := follows_below finds.areNames located finds.located
    obtain ⟨entry, kind, _⟩ := follows.there tree
    rw [finds.place_eq plain located] at kind
    exact (below names entry kind).2.2.2

/-- The link is replaced by a copy of the source, and what it led to stays. -/
theorem install_replaces_linked :
    let fs := storedFiles "/store"
    let outcome := (jupyter bareHost).install (sampleCall "src" true) () fs
    fs.kind? sampleLoc = some (.link (.ofString "/store")) ∧
      outcome.1 = .ok (pathOf sampleLoc) ∧ Replaced fs outcome.2.2 (.ofString "src") sampleLoc ∧
      outcome.2.2.get? [Bytes.ofString "store"] = fs.get? [Bytes.ofString "store"] := by
  have parsed : KernelName.parse (sampleCall "src" true).name = .ok ⟨"java"⟩ := by decide +kernel
  have found : (sampleCall "src" true).scope.kernelsDir bareHost = .ok sampleKernels := rfl
  have last : sampleLoc.dropLast ++ [Bytes.ofString "java"] = sampleLoc := by decide +kernel
  have linked : (storedFiles "/store").kind? sampleLoc = some (.link (.ofString "/store")) := by
    decide +kernel
  have shown : (storedFiles "/store").pathExists (sampleKernels.join ⟨Bytes.ofString "java"⟩) =
      true := by
    decide +kernel
  have leads : (storedFiles "/store").locate (sampleKernels.join ⟨Bytes.ofString "java"⟩) =
      .ok [Bytes.ofString "store"] := by
    decide +kernel
  have named : (storedFiles "/store").WellNamed := wellNamed_of_objects (by decide +kernel)
  have tree : (storedFiles "/store").kind? [Bytes.ofString "src"] = some .dir := by decide +kernel
  have free : Follows (without (storedFiles "/store") (sampleKernels.join ⟨Bytes.ofString "java"⟩))
      .followed maxLinks [] (sampleKernels.join ⟨Bytes.ofString "java"⟩).segments
      (.vacant sampleLoc.dropLast (Bytes.ofString "java")) :=
    follows_of_resolveFrom (by decide +kernel)
  have results := install_replaces parsed (by decide) (by decide) rfl found named
    separate_storedFiles whole_storedFiles.1 tree (by decide) whole_storedFiles.2
  rw [last] at results
  obtain ⟨succeeds, _, replaced, kept⟩ := results.1 fun _ => shown
  exact ⟨linked, succeeds (free.fitsFrom_iff.mp (by decide +kernel)), replaced,
    (kept _ _ linked leads).2 (by decide +kernel)⟩

/-- A kernel whose link leads back out to another way to the kernels directory. -/
def detourFiles : FileSystem :=
  ⟨directory [("src", directory []),
    ("store", directory [("java", directory []), ("way", .link (.ofString "/p"))]),
    ("p", directory [("share", directory [("jupyter", directory [("kernels",
      directory [("java", .link (.ofString "/store/java")), ("way", .file [] false)])])])])], []⟩

/-- A link that leads nowhere is in the way of the copy. A kernel of the name `.` is not replaced
either, nor is one whose own link is on the way to the kernels directory. -/
theorem install_not_replaced :
    let install := fun name scope fs =>
      ((jupyter bareHost).install ⟨.ofString "src", name, .under (.ofString scope), true⟩ () fs).1
    let detour := "p/share/jupyter/kernels/java/../way"
    (storedFiles "nowhere").kind? sampleLoc = some (.link (.ofString "nowhere")) ∧
      install "java" "p" (storedFiles "nowhere") =
        .error (.copyFailed (sampleKernels.child "java") (.copying (.os .alreadyExists))) ∧
      install "." "p" (storedFiles "/store") =
        .error (.copyFailed (sampleKernels.child ".") (.removing (.os .invalidArgument))) ∧
      detourFiles.locate (.ofString (detour ++ "/share/jupyter/kernels")) =
        .ok sampleLoc.dropLast ∧
      install "java" detour detourFiles =
        .error (.copyFailed (.ofString (detour ++ "/share/jupyter/kernels/java"))
          (.copying (.os .alreadyExists))) := by
  decide +kernel

end KernelSpec.Registry
