import KernelSpec.Proofs.FileSystem.Absolute
import KernelSpec.Proofs.FileSystem.Copy
import KernelSpec.Proofs.FileSystem.Directories
import KernelSpec.Proofs.FileSystem.Edit

/-! # New trees

`Grown` says that all that is new in a file system is one tree, without links. What is made at a
path whose last name is free in a directory that exists (`Spare`) is such a tree: the path leads to
its free place or nowhere, and no directory is missing above it. So is what is written into a tree
that has grown (`Grown.writeFile`).
-/

namespace KernelSpec

namespace FileSystem

open KernelSpec.Path

/-- One new tree stands where nothing was: it has no links, and everything has a name. -/
structure Grown (before fs : FileSystem) (top : Loc) : Prop where
  put : ∃ node, fs = before.put top node
  noLink : ∀ loc target, top <+: loc → fs.kind? loc ≠ some (.link target)
  named : fs.WellNamed

section Grown

variable {before mid fs : FileSystem} {top loc : Loc}

theorem Grown.outside (grown : Grown before fs top) (outside : ¬ top <+: loc) :
    fs.kind? loc = before.kind? loc := by
  obtain ⟨node, rfl⟩ := grown.put
  exact kind?_put before node outside

theorem Grown.extends (grown : Grown before fs top) (missing : before.kind? top = none) :
    Extends before fs := by
  obtain ⟨node, rfl⟩ := grown.put
  exact extends_put missing node

theorem Grown.sameLinks (grown : Grown before fs top) (missing : before.kind? top = none) :
    SameLinks before fs := by
  intro loc target
  by_cases below : top <+: loc
  · rw [kind?_of_missing missing below]
    exact iff_of_false nofun (grown.noLink loc target below)
  · rw [grown.outside below]

/-- A tree that is new in a new tree. -/
theorem Grown.trans {name : Name} (first : Grown before mid top) (notRoot : top ≠ [])
    (second : Grown mid fs (top ++ [name])) : Grown before fs top where
  put := by
    obtain ⟨node, rfl⟩ := first.put
    obtain ⟨new, rfl⟩ := second.put
    exact ⟨_, put_append before notRoot node new name []⟩
  noLink loc target below := by
    by_cases deeper : top ++ [name] <+: loc
    · exact second.noLink loc target deeper
    · rw [second.outside deeper]
      exact first.noLink loc target below
  named := second.named

/-- Writing in a new tree. -/
theorem Grown.write (grown : Grown before fs top) (notRoot : top ≠ []) {place : Loc}
    (writable : Writable fs place) (below : top <+: place) {new : Node} (plain : IsPlain new) :
    Grown before (fs.put place new) top where
  put := by
    obtain ⟨node, rfl⟩ := grown.put
    obtain ⟨more, rfl⟩ := below
    cases more with
    | nil =>
      rw [List.append_nil]
      exact ⟨new, put_put before top node new⟩
    | cons name rest => exact ⟨_, put_append before notRoot node new name rest⟩
  noLink loc target inside := by
    by_cases here : loc = place
    · rw [here, writable.kind?_put]
      exact fun same => plain.entry_ne target (Option.some.inj same)
    · rw [writable.kind?_put_of_ne plain here]
      exact grown.noLink loc target inside
  named := writable.wellNamed_put grown.named plain

/-- The path of a location has the names of the location. -/
theorem segments_pathOf {loc : Loc} (areNames : ∀ name ∈ loc, IsName name) :
    (pathOf loc).segments = loc.map .name := by
  have spelled : segments ⟨loc.flatMap fun name => slash :: name⟩ = loc.map .name := by
    induction loc using List.reverseRecOn with
    | nil => rfl
    | append_singleton names name ih =>
      obtain ⟨earlier, isName⟩ := List.forall_mem_append.mp areNames
      rw [List.flatMap_append, List.flatMap_singleton, segments_append, ih earlier, List.map_append,
        isName name (List.mem_singleton_self name)]
      rfl
  unfold pathOf
  split
  · next root =>
    rw [List.isEmpty_iff.mp root]
    rfl
  · exact spelled

theorem isAbsolute_pathOf (loc : Loc) : (pathOf loc).isAbsolute = true := by
  cases loc <;> rfl

/-- A file in the directory of a new tree is written into the tree. -/
theorem Grown.writeFile (grown : Grown before fs top) (notRoot : top ≠ [])
    (isDir : fs.kind? top = some .dir) {name : Name} (isName : IsName name) {content : Bytes}
    {changed : FileSystem} (done : writeFile ((pathOf top).join ⟨name⟩) content fs = .ok changed) :
    Grown before changed top ∧ changed.kind? top = some .dir := by
  obtain ⟨place, led, done⟩ := bind_eq_ok_iff.mp done
  cases done
  obtain ⟨spot, found, rfl, writable⟩ := writePlace_eq_ok led
  obtain ⟨_, _, follows⟩ := lookupWritten_eq_ok found
  have areNames := grown.named top (by rw [isDir]; exact Option.some_ne_none _)
  rw [segments_join isName.not_mem, isName, segments_pathOf areNames, startFrom,
    isAbsolute_join isName.not_mem, isAbsolute_pathOf] at follows
  have last : Follows fs .written maxLinks ([] ++ top) ([name].map .name) spot :=
    follows.of_names isDir (by simp)
  have place : spot.loc = top ++ [name] :=
    last.names fun below target => grown.noLink _ target (List.prefix_append _ _)
  have different : top ≠ spot.loc := by
    rw [place]
    simp
  have plain : IsPlain (.file content (fs.isExecutable spot.loc)) := trivial
  refine ⟨grown.write notRoot writable (place ▸ List.prefix_append _ _) plain, ?_⟩
  rw [writable.kind?_put_of_ne plain different, isDir]

end Grown

/-- The path leads to a directory. -/
structure Enters (fs : FileSystem) (p : Path) (loc : Loc) : Prop where
  leads : Follows fs .followed maxLinks (startFrom p fs.cwd) p.segments (.occupied loc)
  isDir : fs.kind? loc = some .dir

theorem Enters.extend {fs other : FileSystem} {p : Path} {loc : Loc} (enters : Enters fs p loc)
    (larger : Extends fs other) : Enters other p loc where
  leads := by
    rw [larger.cwd]
    exact enters.leads.extend larger
  isDir := larger.kept _ _ enters.isDir

theorem Enters.locate {fs : FileSystem} {p : Path} {loc : Loc} (enters : Enters fs p loc)
    (valid : checkPath p = .ok ()) : fs.locate p = .ok loc :=
  locate_eq_ok_iff.mpr ⟨valid, (follows_lookupSegments_iff enters.isDir).mpr enters.leads⟩

theorem Enters.isDir_path {fs : FileSystem} {p : Path} {loc : Loc} (enters : Enters fs p loc)
    (valid : checkPath p = .ok ()) : fs.isDir p = true :=
  isDir_iff.mpr ⟨loc, enters.locate valid, enters.isDir⟩

/-- The last segment of the path is a name that is free in the directory the others lead to. -/
structure Spare (fs : FileSystem) (p : Path) (front : List Segment) (dir : Loc) (name : Name) :
    Prop where
  ends : p.segments = front ++ [.name name]
  leads : Follows fs .followed maxLinks (startFrom p fs.cwd) front (.occupied dir)
  isDir : fs.kind? dir = some .dir
  missing : fs.kind? (dir ++ [name]) = none

/-- A name that is free in a directory. -/
theorem Enters.spare {fs : FileSystem} {p : Path} {loc : Loc} (enters : Enters fs p loc)
    {name : Name} (isName : IsName name) (missing : fs.kind? (loc ++ [name]) = none) :
    Spare fs (p.join ⟨name⟩) p.segments loc name where
  ends := by rw [segments_join isName.not_mem, isName]
  leads := by
    rw [startFrom, isAbsolute_join isName.not_mem]
    exact enters.leads
  isDir := enters.isDir
  missing := missing

section Spare

variable {fs : FileSystem} {p : Path} {front : List Segment} {dir : Loc} {name : Name}
  (spare : Spare fs p front dir name)

include spare

theorem Spare.isName : IsName name := by
  apply isName_of_mem_segments (p := p)
  rw [spare.ends]
  simp

theorem Spare.writable : Writable fs (dir ++ [name]) :=
  .vacant spare.isDir spare.missing spare.isName

/-- The path leads to its free place, or nowhere. -/
theorem Spare.unique {last : LastLink} {spot : Spot}
    (follows : Follows fs last maxLinks (startFrom p fs.cwd) p.segments spot) :
    spot = .vacant dir name := by
  rw [spare.ends] at follows
  obtain ⟨mid, first, _, _, _, second⟩ := follows.above
  cases first.unique spare.leads
  cases second with
  | vacant => rfl
  | name _ _ found | kept _ _ found | link _ _ found =>
    rw [spare.missing] at found
    cases found

theorem Spare.not_located (loc : Loc) : fs.locate p ≠ .ok loc := by
  intro located
  cases spare.unique (follows_of_locate located)

theorem Spare.not_isDir : ¬ fs.isDir p = true := by
  intro isDir
  obtain ⟨loc, located, _⟩ := isDir_iff.mp isDir
  exact spare.not_located loc located

theorem Spare.makeDir {changed : FileSystem} (done : fs.makeDir p = .ok changed) :
    changed = fs.put (dir ++ [name]) (.dir []) ∧ name.length ≤ maxName := by
  obtain ⟨_, _, follows, rfl⟩ := Disk.makeDir_vacant done
  cases spare.unique follows
  rw [spare.ends] at follows
  obtain ⟨_, _, _, short, _⟩ := follows.above
  exact ⟨rfl, short⟩

theorem Spare.writePlace {place : Loc} (led : fs.writePlace p = .ok place) :
    place = dir ++ [name] := by
  obtain ⟨spot, found, rfl, _⟩ := writePlace_eq_ok led
  obtain ⟨_, _, follows⟩ := lookupWritten_eq_ok found
  cases spare.unique follows
  rfl

theorem Spare.follows_vacant (short : name.length ≤ maxName) (last : LastLink) :
    Follows fs last maxLinks (startFrom p fs.cwd) p.segments (.vacant dir name) := by
  rw [spare.ends]
  exact spare.leads.append_free (.vacant spare.isDir short spare.missing) (by simp)

theorem Spare.writePlace_eq (short : name.length ≤ maxName) (valid : checkPath p = .ok ())
    (noSlash : p.endsInSlash = false) : fs.writePlace p = .ok (dir ++ [name]) := by
  have led : fs.lookupWritten p = .ok (.vacant dir name) := by
    refine bind_eq_ok_iff.mpr ⟨(), valid, mapError_eq_ok_iff.mpr ?_⟩
    rw [noSlash]
    exact (spare.follows_vacant short .written).resolveFrom_eq
  exact bind_eq_ok_iff.mpr ⟨_, led, rfl⟩

/-- A file is copied with its content, since it is not at the place it is copied to. -/
theorem Spare.copyFile {object : Path} {changed : FileSystem}
    (done : copyFile object p fs = .ok changed) :
    ∃ origin content executable, fs.locate object = .ok origin ∧
      fs.kind? origin = some (.file content executable) ∧
      changed = fs.put (dir ++ [name]) (.file content executable) := by
  obtain ⟨origin, located, done⟩ := bind_eq_ok_iff.mp done
  obtain ⟨⟨content, executable⟩, read, done⟩ := bind_eq_ok_iff.mp done
  obtain ⟨place, led, done⟩ := bind_eq_ok_iff.mp done
  obtain rfl := spare.writePlace led
  obtain ⟨_, again, read⟩ := bind_eq_ok_iff.mp read
  cases located.symm.trans again
  have isFile : fs.kind? origin = some (.file content executable) := by
    rw [kind?]
    split at read
    · next found =>
      cases read
      rw [found]
      rfl
    · cases read
  have kept : (fs.put (dir ++ [name]) (.file [] executable)).get? origin =
      some (.file content executable) := by
    have kind := (extends_put spare.missing (.file [] executable)).kept _ _ isFile
    obtain ⟨node, found, same⟩ := Option.map_eq_some_iff.mp kind
    cases node with
    | link | dir => cases same
    | file =>
      cases same
      exact found
  refine ⟨origin, content, executable, located, isFile, ?_⟩
  simp only [kept] at done
  cases done
  exact put_put fs _ _ _

/-- What is put at the place is a new tree. -/
theorem Spare.grown (named : fs.WellNamed) {new : Node} (plain : IsPlain new) :
    Grown fs (fs.put (dir ++ [name]) new) (dir ++ [name]) where
  put := ⟨new, rfl⟩
  noLink loc target below := by
    by_cases here : loc = dir ++ [name]
    · rw [here, spare.writable.kind?_put]
      exact fun same => plain.entry_ne target (Option.some.inj same)
    · rw [spare.writable.kind?_put_of_ne plain here, kind?_of_missing spare.missing below]
      exact nofun
  named := spare.writable.wellNamed_put named plain

/-- A directory that is made at the place is empty. -/
theorem Spare.empty (below : Name) (rest : Loc) :
    (fs.put (dir ++ [name]) (.dir [])).kind? (dir ++ [name] ++ below :: rest) = none := by
  rw [kind?_put_dir spare.isDir spare.missing, if_neg (by simp)]
  exact kind?_of_missing spare.missing (List.prefix_append _ _)

/-- The path leads to a directory that is made at the place. -/
theorem Spare.follows_made (short : name.length ≤ maxName) {new : FileSystem}
    (larger : Extends fs new) (made : new.kind? (dir ++ [name]) = some .dir) (last : LastLink) :
    Follows new last maxLinks (startFrom p new.cwd) p.segments (.occupied (dir ++ [name])) := by
  rw [spare.ends, larger.cwd]
  refine (spare.leads.extend larger).append_free ?_ (by simp)
  exact .name (larger.kept _ _ spare.isDir) short made (fun _ => Entry.noConfusion) (.done _)

theorem Spare.enters (short : name.length ≤ maxName) {new : FileSystem}
    (larger : Extends fs new) (made : new.kind? (dir ++ [name]) = some .dir) :
    Enters new p (dir ++ [name]) :=
  ⟨spare.follows_made short larger made .followed, made⟩

end Spare

/-- The free spot that a path leads to is its last name in the directory above. -/
theorem Opened.spare {before fs : FileSystem} {p : Path} {dir : Loc} {name last : Name}
    {front : List Segment} (opened : Opened before (startFrom p before.cwd) p.segments fs dir name)
    (ends : p.segments = front ++ [.name last]) : name = last ∧ Spare fs p front dir name := by
  have follows := opened.leads
  rw [ends] at follows
  obtain ⟨above, first, isDir, ⟨same, missing⟩ | ⟨same, _⟩⟩ := follows.above_kept
  · cases same
    rw [← opened.raised.cwd] at first
    exact ⟨rfl, ends, first, isDir, missing⟩
  · cases same

theorem Opened.short {before fs : FileSystem} {start dir : Loc} {name last : Name}
    {front : List Segment} (opened : Opened before start (front ++ [.name last]) fs dir name) :
    last.length ≤ maxName := by
  obtain ⟨_, _, _, short, _⟩ := opened.leads.above
  exact short

end FileSystem

namespace Disk

open FileSystem KernelSpec.Path Steps

section Spare

variable {fs : FileSystem} {p : Path} {front : List Segment} {dir : Loc} {name : Name}
  (spare : Spare fs p front dir name)

include spare

/-- The directories above the place exist, so none is made. -/
theorem keeps_ensureDir_above {q : Path} (part : q.segments <+: front)
    (absolute : q.isAbsolute = p.isAbsolute) : Keeps (· = fs) (ensureDir q) := by
  obtain ⟨more, whole⟩ := part
  rintro _ rfl
  cases run : (ensureDir q).run _ with
  | mk result changed =>
    cases result with
    | error => exact ensureDir_error run
    | ok =>
      obtain made | ⟨same, _⟩ := ensureDir_ok run
      · obtain ⟨_, _, follows, _⟩ := makeDir_vacant made
        have follows := follows.followed fun _ target linked => by
          rw [Spot.loc, follows.vacancy.2] at linked
          cases linked
        have leads := spare.leads
        rw [← whole, startFrom, ← absolute] at leads
        obtain rfl | more := eq_or_ne more []
        · rw [List.append_nil] at leads
          cases follows.unique leads
        · obtain ⟨_, _, _, first, _⟩ := leads.split more
          cases follows.unique first
      · exact same

theorem keeps_parent_dirs {parent : Path} (found : p.parent? = some parent) (fuel : Nat) :
    Keeps (· = fs) (ensureDirs (selfAndParents fuel parent)) := by
  refine keeps_selfAndParents
    (fun q => q.segments <+: front ∧ q.isAbsolute = p.isAbsolute) ?_ ?_ ?_ fuel
  · rintro q parent ⟨part, absolute⟩ found
    obtain ⟨higher, same⟩ := segments_parent? found
    exact ⟨higher.trans part, same.trans absolute⟩
  · rintro q ⟨part, absolute⟩
    exact keeps_ensureDir_above spare part absolute
  · obtain ⟨dots, _, whole⟩ := segments_parent?_of_name found spare.ends
    exact ⟨⟨dots, whole⟩, (segments_parent? found).2⟩

theorem parent?_ne_none : p.parent? ≠ none :=
  parent?_ne_none_of_mem (show .name name ∈ p.segments by simp [spare.ends])

/-- The directory at the place is made, or nothing. -/
theorem createDirs_spare {changed : FileSystem} {result : Except Fault Unit}
    (run : (createDirs p).run fs = (result, changed)) :
    (∃ fault, result = .error fault ∧ changed = fs) ∨
      result = .ok () ∧ name.length ≤ maxName ∧ changed = fs.put (dir ++ [name]) (.dir []) := by
  obtain ⟨parent, found⟩ := Option.ne_none_iff_exists'.mp (parent?_ne_none spare)
  have kept := keeps_parent_dirs spare found p.bytes.length fs rfl
  rw [createDirs, selfAndParents, found] at run
  obtain once | ⟨failed, ⟨raised, above, again⟩ | ⟨fault, above, rfl⟩⟩ := ensureDirs_cons run
  · cases result with
    | error fault => exact .inl ⟨fault, rfl, ensureDir_error once⟩
    | ok =>
      obtain made | ⟨_, there⟩ := ensureDir_ok once
      · obtain ⟨same, short⟩ := spare.makeDir made
        exact .inr ⟨rfl, short, same⟩
      · exact absurd there spare.not_isDir
  · rw [above] at kept
    obtain rfl : raised = fs := kept
    cases failed.symm.trans again
    exact .inl ⟨_, rfl, rfl⟩
  · rw [above] at kept
    exact .inl ⟨fault, rfl, kept⟩

/-- The file is copied to the place, or nothing is done. -/
theorem copyLeaf_spare {object : Path} {changed : FileSystem} {result : Except Fault Unit}
    (run : (copyLeaf object p).run fs = (result, changed)) :
    (∃ fault, result = .error fault ∧ changed = fs) ∨
      ∃ origin content executable, fs.locate object = .ok origin ∧
        fs.kind? origin = some (.file content executable) ∧
        changed = fs.put (dir ++ [name]) (.file content executable) := by
  obtain ⟨parent, found⟩ := Option.ne_none_iff_exists'.mp (parent?_ne_none spare)
  have kept := keeps_parent_dirs spare found (parent.bytes.length + 1) fs rfl
  unfold copyLeaf at run
  rw [found] at run
  obtain ⟨fault, above, rfl⟩ | ⟨_, mid, above, copy⟩ := run_bind_cases run
  · rw [createDirs] at above
    rw [above] at kept
    exact .inl ⟨fault, rfl, kept⟩
  · rw [createDirs] at above
    rw [above] at kept
    obtain rfl : mid = fs := kept
    rw [run_ofOperation] at copy
    cases done : FileSystem.copyFile object p mid with
    | error fault =>
      rw [done] at copy
      cases copy
      exact .inl ⟨fault, rfl, rfl⟩
    | ok =>
      rw [done] at copy
      cases copy
      exact .inr (spare.copyFile done)

/-- The path above the place leads to its directory. -/
theorem run_createDirs_parent (valid : checkPath p = .ok ()) {parent : Path}
    (found : p.parent? = some parent) : (createDirs parent).run fs = (.ok (), fs) := by
  by_cases top : parent.parent? = none
  · rw [createDirs, selfAndParents, top]
    rfl
  · apply run_createDirs_of_isDir
    obtain ⟨dots, here, whole⟩ := segments_parent?_of_name found spare.ends
    have nonempty : parent.bytes ≠ [] := by
      intro empty
      apply top
      rw [parent?, empty]
      rfl
    have leads := spare.leads
    rw [← whole, startFrom, ← (segments_parent? found).2] at leads
    have enters : Enters fs parent dir := ⟨leads.of_dots here, spare.isDir⟩
    exact enters.isDir_path (checkPath_of_part valid (parent?_bytes found) nonempty)

/-- A file is copied to a place that is free. -/
theorem run_copyLeaf_spare (short : name.length ≤ maxName) (valid : checkPath p = .ok ())
    (noSlash : p.endsInSlash = false) {object : Path} {loc : Loc} {content : Bytes}
    {executable : Bool} (located : fs.locate object = .ok loc)
    (isFile : fs.kind? loc = some (.file content executable)) :
    ((copyLeaf object p).run fs).1 = .ok () := by
  obtain ⟨parent, found⟩ := Option.ne_none_iff_exists'.mp (parent?_ne_none spare)
  have node : fs.get? loc = some (.file content executable) := by
    obtain ⟨node, there, same⟩ := Option.map_eq_some_iff.mp isFile
    cases node with
    | dir | link => cases same
    | file =>
      cases same
      exact there
  have read : fs.readFile object = .ok (content, executable) := by
    refine bind_eq_ok_iff.mpr ⟨loc, located, ?_⟩
    rw [node]
    rfl
  have copied : ∃ changed, FileSystem.copyFile object p fs = .ok changed := by
    rw [FileSystem.copyFile, located, read, spare.writePlace_eq short valid noSlash]
    simp only [bind, Except.bind]
    split <;> exact ⟨_, rfl⟩
  obtain ⟨changed, copied⟩ := copied
  unfold copyLeaf
  rw [found]
  simp only
  rw [run_bind_of_ok (run_createDirs_parent spare valid found), run_ofOperation, copied]

end Spare

end Disk

end KernelSpec
