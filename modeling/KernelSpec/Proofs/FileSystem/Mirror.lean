import KernelSpec.Proofs.FileSystem.TreeCopy

/-! # Exact copies

A copy of a tree to a place that is not a directory is exact when the walk of the source never comes
to that place (`TreeCopied.mirrors`): under each list of names, the place has what the source has,
with links followed, and nothing where the source has nothing. The walk reads the source while the
copy grows, so the argument is that what grows at the place changes nothing for paths below the
source (`Grown.pathKind?_below`).
-/

namespace KernelSpec

namespace FileSystem

open KernelSpec.Path

/-- What a path names, with links followed. -/
def pathKind? (fs : FileSystem) (p : Path) : Option Entry := (fs.stat? p).map Node.entry

section Entry

variable {fs other : FileSystem} {p object : Path} {loc : Loc} {names : List Name}

theorem pathKind?_of_locate (located : fs.locate p = .ok loc) : fs.pathKind? p = fs.kind? loc := by
  rw [pathKind?, stat?, located]
  rfl

theorem pathKind?_eq_some_iff {entry : Entry} :
    fs.pathKind? p = some entry ↔ ∃ loc, fs.locate p = .ok loc ∧ fs.kind? loc = some entry := by
  cases located : fs.locate p with
  | error => simp [pathKind?, stat?, located]
  | ok loc => simp [pathKind?_of_locate located]

/-- More objects make no difference to a path on whose way there are none of them. -/
theorem locate_extend_iff (larger : Extends fs other)
    (same : ∀ stop rest, Passes fs (startFrom p fs.cwd, lookupSegments p) (stop, rest) →
      other.kind? stop = fs.kind? stop) : other.locate p = .ok loc ↔ fs.locate p = .ok loc := by
  refine ⟨fun located => ?_, locate_extend larger⟩
  obtain ⟨valid, follows⟩ := locate_eq_ok_iff.mp located
  rw [larger.cwd] at follows
  refine locate_eq_ok_iff.mpr ⟨valid, ?_⟩
  exact follows.within (fun loc (stays : other.kind? loc = fs.kind? loc) => stays.symm)
    (fun loc target linked => (larger.kept loc _ linked).trans linked.symm) same

theorem lookupSegments_below (areNames : ∀ name ∈ names, IsName name) (nonempty : names ≠ [])
    (p : Path) : lookupSegments (p.below names) = p.segments ++ names.map .name := by
  obtain ⟨init, last, rfl⟩ := (List.eq_nil_or_concat names).resolve_left nonempty
  have isName : IsName last := areNames last (by simp)
  have noSlash : (p.below (init.concat last)).endsInSlash = false := by
    rw [below, List.concat_eq_append, List.foldl_concat]
    refine endsInSlash_join isName.not_mem _ fun empty => ?_
    have spelled : IsName [] := empty ▸ isName
    cases spelled
  rw [lookupSegments, noSlash, segments_below areNames]
  exact List.append_nil _

/-- The names lead from an object to what is found under them. -/
theorem follows_below (areNames : ∀ name ∈ names, IsName name)
    (located : fs.locate object = .ok loc) {place : Loc}
    (found : fs.locate (object.below names) = .ok place) :
    ∃ links, Follows fs .followed links loc (names.map .name) (.occupied place) := by
  obtain rfl | nonempty := eq_or_ne names []
  · cases located.symm.trans found
    exact ⟨0, .done loc⟩
  · have follows := follows_of_locate found
    rw [segments_below areNames, startFrom, isAbsolute_below areNames] at follows
    obtain ⟨mid, links, _, first, second⟩ := follows.split (by simpa using nonempty)
    cases first.unique (follows_of_locate located)
    exact ⟨links, second⟩

/-- What is found under names is at the end of their way. -/
theorem passes_below (areNames : ∀ name ∈ names, IsName name)
    (located : fs.locate object = .ok loc) {place : Loc}
    (found : fs.locate (object.below names) = .ok place) :
    Passes fs (loc, names.map .name) (place, []) := by
  obtain ⟨_, follows⟩ := follows_below areNames located found
  exact follows.passes_followed

theorem locate_below_iff (larger : Extends fs other) (located : fs.locate object = .ok loc)
    (areNames : ∀ name ∈ names, IsName name)
    (same : ∀ stop rest, Passes fs (loc, names.map .name) (stop, rest) →
      other.kind? stop = fs.kind? stop) {place : Loc} :
    other.locate (object.below names) = .ok place ↔ fs.locate (object.below names) = .ok place := by
  obtain rfl | nonempty := eq_or_ne names []
  · change other.locate object = .ok place ↔ fs.locate object = .ok place
    rw [located, locate_extend larger located]
  · refine locate_extend_iff larger fun stop rest passes => ?_
    rw [lookupSegments_below areNames nonempty, startFrom, isAbsolute_below areNames] at passes
    exact (follows_of_locate located).way_append
      (fun loc isDir => (larger.kept loc _ isDir).trans isDir.symm) same passes

theorem pathKind?_below_extend (larger : Extends fs other) (located : fs.locate object = .ok loc)
    (areNames : ∀ name ∈ names, IsName name)
    (same : ∀ stop rest, Passes fs (loc, names.map .name) (stop, rest) →
      other.kind? stop = fs.kind? stop) :
    other.pathKind? (object.below names) = fs.pathKind? (object.below names) := by
  refine Option.ext fun entry => ?_
  rw [pathKind?_eq_some_iff, pathKind?_eq_some_iff]
  refine exists_congr fun place => ?_
  rw [locate_below_iff larger located areNames same]
  refine and_congr_right fun found => ?_
  rw [same place [] (passes_below areNames located found)]

/-- What is below an object is in a directory, under a name that the directory has. -/
theorem kind?_of_entry?_below {name : Name} (areNames : ∀ n ∈ name :: names, IsName n)
    (located : fs.locate object = .ok loc) {entry : Entry}
    (found : fs.pathKind? (object.below (name :: names)) = some entry) :
    fs.kind? loc = some .dir ∧ fs.kind? (loc ++ [name]) ≠ none := by
  obtain ⟨place, led, _⟩ := pathKind?_eq_some_iff.mp found
  have follows := follows_of_locate led
  rw [segments_below areNames, startFrom, isAbsolute_below areNames] at follows
  obtain ⟨mid, fewer, _, first, second⟩ := follows.split (by simp)
  cases first.unique (follows_of_locate located)
  refine ⟨second.isDir (by simp), ?_⟩
  generalize ended : Spot.occupied place = spot at second
  rw [List.map_cons] at second
  generalize names.map Segment.name = rest at second
  cases second with
  | vacant => cases ended
  | name _ _ found | kept _ _ found | link _ _ found =>
    rw [found]
    exact Option.some_ne_none _

end Entry

/-- What is at a location and below it is what a path names and what is below that, with links
followed. -/
def Mirrored (fs : FileSystem) (source : Path) (top : Loc) : Prop :=
  ∀ names : List Name, (∀ name ∈ names, IsName name) →
    fs.kind? (top ++ names) = fs.pathKind? (source.below names)

/-- No way down from a location comes to a place or below it. -/
def Outside (fs : FileSystem) (top loc : Loc) : Prop :=
  ∀ (names : List Name) stop rest, Passes fs (loc, names.map .name) (stop, rest) → ¬ top <+: stop

section Outside

variable {fs other : FileSystem} {top loc : Loc}

theorem Outside.congr (outside : Outside fs top loc) (same : SameLinks fs other) :
    Outside other top loc :=
  fun names stop rest passes => outside names stop rest (passes.congr same.symm)

theorem Outside.mono {lower : Loc} (outside : Outside fs top loc) (below : top <+: lower) :
    Outside fs lower loc :=
  fun names stop rest passes within => outside names stop rest passes (below.trans within)

theorem Outside.step {name : Name} {place : Loc} (outside : Outside fs top loc)
    (passes : Passes fs (loc, [.name name]) (place, [])) : Outside fs top place := by
  intro names stop rest onward
  exact outside (name :: names) stop rest ((passes.append (names.map .name)).trans onward)

/-- The links in a tree lead down from where they are. -/
def LinksDown (fs : FileSystem) (tree : Loc) : Prop :=
  ∀ place target, tree <+: place → fs.kind? place = some (.link target) →
    target.isAbsolute = false ∧ .up ∉ target.segments

theorem Step.stays_below (down : LinksDown fs loc) {start stop : Loc × List Segment}
    (step : Step fs start stop) (inside : loc <+: start.1) (noUp : .up ∉ start.2) :
    loc <+: stop.1 ∧ .up ∉ stop.2 := by
  cases step with
  | here => exact ⟨inside, fun up => noUp (List.mem_cons_of_mem _ up)⟩
  | up => exact absurd List.mem_cons_self noUp
  | name =>
    exact ⟨inside.trans (List.prefix_append _ _), fun up => noUp (List.mem_cons_of_mem _ up)⟩
  | @link _ _ target _ found =>
    obtain ⟨relative, goesDown⟩ := down _ target (inside.trans (List.prefix_append _ _)) found
    refine ⟨by rwa [startFrom, relative], fun up => ?_⟩
    obtain up | up := List.mem_append.mp up
    · rw [lookupSegments] at up
      obtain up | up := List.mem_append.mp up
      · exact goesDown up
      · split at up <;> simp at up
    · exact noUp (List.mem_cons_of_mem _ up)

theorem Passes.stays_below (down : LinksDown fs loc) {start stop : Loc × List Segment}
    (passes : Passes fs start stop) (inside : loc <+: start.1) (noUp : .up ∉ start.2) :
    loc <+: stop.1 ∧ .up ∉ stop.2 := by
  induction passes with
  | refl => exact ⟨inside, noUp⟩
  | tail _ step ih =>
    obtain ⟨inside, noUp⟩ := ih
    exact step.stays_below down inside noUp

/-- Ways stay inside a tree whose links lead down. -/
theorem LinksDown.outside (down : LinksDown fs loc) (notAbove : ¬ loc <+: top)
    (notBelow : ¬ top <+: loc) : Outside fs top loc := by
  intro names stop rest passes within
  obtain ⟨below, _⟩ := passes.stays_below down List.prefix_rfl (by simp)
  obtain above | above := List.prefix_or_prefix_of_prefix below within
  · exact notAbove above
  · exact notBelow above

end Outside

/-- What grows at a place changes nothing for paths that do not come there. -/
theorem Grown.pathKind?_below {before fs : FileSystem} {top loc : Loc} (grown : Grown before fs top)
    (missing : before.kind? top = none) {object : Path}
    (located : before.locate object = .ok loc) (outside : Outside before top loc)
    {names : List Name} (areNames : ∀ name ∈ names, IsName name) :
    fs.pathKind? (object.below names) = before.pathKind? (object.below names) :=
  pathKind?_below_extend (grown.extends missing) located areNames fun stop rest passes =>
    grown.outside (outside names stop rest passes)

end FileSystem

namespace Disk

open FileSystem KernelSpec.Path Steps

theorem mem_namesIn {fs : FileSystem} {dir : Loc} {name : Name} (isDir : fs.kind? dir = some .dir)
    (found : fs.kind? (dir ++ [name]) ≠ none) : name ∈ namesIn dir fs := by
  obtain ⟨entries, here⟩ := kind?_eq_dir_iff.mp isDir
  rw [kind?, get?_concat here] at found
  obtain ⟨node, listed⟩ := Option.ne_none_iff_exists'.mp (mt Option.map_eq_none_iff.mpr found)
  rw [namesIn, here]
  exact List.mem_eraseDups.mpr (List.mem_map_of_mem (Node.mem_of_find? listed))

/-- Where the walk comes to under a name is where the path of that name leads, if it leads
anywhere. -/
theorem walkTo_unique {fs : FileSystem} {trail : Trail} {object : Path} {loc place : Loc}
    {name : Name} (isName : IsName name) (located : fs.locate object = .ok loc)
    (walked : walkTo trail (object.join ⟨name⟩) (loc ++ [name]) fs = .ok place) :
    (∀ found, fs.locate (object.join ⟨name⟩) = .ok found → found = place) ∧
      Passes fs (loc, [.name name]) (place, []) := by
  obtain ⟨_, leads⟩ | ⟨rfl, entry, there, noLink⟩ := walkTo_cases walked
  · obtain ⟨_, _, follows⟩ := follows_name_of_locate isName located leads
    exact ⟨fun found again => Except.ok.inj (again.symm.trans leads), follows.passes_followed⟩
  · have noLink : ∀ target, fs.kind? (loc ++ [name]) ≠ some (.link target) := by
      intro target linked
      rw [there] at linked
      exact noLink target (Option.some.inj linked)
    refine ⟨fun found leads => ?_, .single (.name noLink)⟩
    obtain ⟨_, _, follows⟩ := follows_name_of_locate isName located leads
    cases follows with
    | name _ _ _ _ done =>
      cases done
      rfl
    | link _ _ linked => exact absurd linked (noLink _)
    | kept _ _ linked => exact absurd linked (noLink _)

/-- What a copy starts with is a directory that its path leads to. -/
theorem TreeCopied.located {source place : Path} {fs changed : FileSystem}
    (copied : TreeCopied source place fs (.ok ()) changed) :
    ∃ loc, fs.locate source = .ok loc ∧ fs.kind? loc = some .dir := by
  generalize done : Except.ok () = result at copied
  cases copied with
  | stopped => cases done
  | entered walked isDir => exact ⟨_, locate_of_walkStart walked isDir, isDir⟩

/-- Copying to a free place that the walk does not come to makes an exact copy there. -/
def Mirrors (fuel : Nat) : Prop :=
  ∀ {trail : Trail} {object base : Path} {loc dir : Loc} {name : Name} {front : List Segment}
    {fs changed : FileSystem}, Spare fs base front dir name → fs.WellNamed →
    (∀ found, fs.locate object = .ok found → found = loc) → Outside fs (dir ++ [name]) loc →
    (copyFrom fuel trail object base base loc).run fs = (.ok (), changed) →
    ∀ {names : List Name}, (∀ n ∈ names, IsName n) →
      changed.kind? (dir ++ [name] ++ names) = fs.pathKind? (object.below names)

/-- A directory is copied exactly when each of its objects is. -/
theorem Mirrors.entries {fuel : Nat} (mirrors : Mirrors fuel) {trail : Trail} {object base : Path}
    {loc dir : Loc} {name : Name} {front : List Segment} {fs changed : FileSystem}
    (spare : Spare fs base front dir name) (short : name.length ≤ maxName) (named : fs.WellNamed)
    (located : fs.locate object = .ok loc) (isDir : fs.kind? loc = some .dir)
    (outside : Outside fs (dir ++ [name]) loc)
    (run : (copyEntries fuel trail object base loc).run (fs.put (dir ++ [name]) (.dir [])) =
      (.ok (), changed)) {names : List Name} (areNames : ∀ n ∈ names, IsName n) :
    changed.kind? (dir ++ [name] ++ names) = fs.pathKind? (object.below names) := by
  have filled := Grows.filled_made (grows fuel) spare short named run
  cases names with
  | nil =>
    rw [List.append_nil, filled.enters.isDir, ← isDir]
    exact (pathKind?_of_locate located).symm
  | cons inner names =>
    obtain ⟨isName, later⟩ := List.forall_mem_cons.mp areNames
    -- The names are those that the source has once the directory is made for the copy.
    by_cases mem : inner ∈ namesIn loc (fs.put (dir ++ [name]) (.dir []))
    · obtain ⟨start, stop, grown, enters, free, copy, same⟩ := filled.each rfl inner mem
      have larger := grown.extends spare.missing
      rw [same, ← grown.pathKind?_below spare.missing located outside areNames]
      unfold copyEntry at copy
      obtain ⟨_, _, failed⟩ | ⟨place, _, asked, copy⟩ := run_bind_cases copy
      · cases failed
      · obtain ⟨walked, rfl⟩ := Prod.mk.inj asked
        obtain ⟨unique, passes⟩ := walkTo_unique isName (locate_extend larger located) walked
        have outside := ((outside.congr (grown.sameLinks spare.missing)).step passes).mono
          (List.prefix_append _ [inner])
        rw [List.append_cons]
        exact mirrors (enters.spare isName free) grown.named unique outside copy later
    · rw [filled.others inner mem, spare.empty]
      cases found : fs.pathKind? (object.below (inner :: names)) with
      | none => rfl
      | some entry =>
        obtain ⟨_, there⟩ := kind?_of_entry?_below areNames located found
        obtain ⟨entry, there⟩ := Option.ne_none_iff_exists'.mp there
        have larger := extends_put spare.missing (.dir [])
        refine absurd (mem_namesIn (larger.kept _ _ isDir) ?_) mem
        rw [larger.kept _ _ there]
        exact Option.some_ne_none _

theorem mirrors (fuel : Nat) : Mirrors fuel := by
  induction fuel with
  | zero =>
    intro _ _ _ _ _ _ _ _ _ _ _ _ _ run
    cases run
  | succ fuel ih =>
    intro trail object base loc dir name front fs changed spare named unique outside run names
      areNames
    rw [run_copyFrom] at run
    split at run
    · next isDir =>
      obtain ⟨_, _, failed⟩ | ⟨opened, _, asked, rest⟩ := run_bind_cases run
      · cases failed
      · obtain ⟨opens, rfl⟩ := Prod.mk.inj asked
        have located := mapError_eq_ok_iff.mp opens
        obtain rfl := unique opened located
        obtain ⟨_, _, failed⟩ | ⟨_, mid, made, rest⟩ := run_bind_cases rest
        · cases failed
        · obtain ⟨_, failed, _⟩ | ⟨_, short, rfl⟩ := createDirs_spare spare made
          · cases failed
          · exact ih.entries spare short named located (any_isDir_iff.mp isDir) outside rest
              areNames
    · obtain ⟨_, failed, _⟩ | ⟨origin, content, executable, located, isFile, rfl⟩ :=
        copyLeaf_spare spare run
      · cases failed
      · cases names with
        | nil =>
          rw [List.append_nil, spare.writable.kind?_put]
          exact isFile.symm.trans (pathKind?_of_locate located).symm
        | cons inner names =>
          have plain : IsPlain (.file content executable) := trivial
          rw [spare.writable.kind?_put_of_ne plain (by simp),
            kind?_of_missing spare.missing (List.prefix_append _ _)]
          cases found : fs.pathKind? (object.below (inner :: names)) with
          | none => rfl
          | some entry =>
            have isDir := (kind?_of_entry?_below areNames located found).1
            rw [isFile] at isDir
            cases isDir

/-- A tree is copied exactly to a place that its walk does not come to. -/
theorem TreeCopied.mirrors {source place : Path} {fs changed : FileSystem}
    (copied : TreeCopied source place fs (.ok ()) changed) {front : List Segment} {child : Name}
    (ends : place.segments = front ++ [.name child]) (named : fs.WellNamed) {loc dir : Loc}
    (located : fs.locate source = .ok loc)
    (way : Passes fs (startFrom place fs.cwd, front) (dir, []))
    (outside : Outside fs (dir ++ [child]) loc) : Mirrored changed source (dir ++ [child]) := by
  intro names areNames
  generalize done : Except.ok () = result at copied
  cases copied with
  | stopped => cases done
  | @entered start mid _ above new _ walked isDir _ opened run =>
    subst done
    cases (locate_of_walkStart walked isDir).symm.trans located
    have filled := filled_opened opened ends named run
    obtain ⟨rfl, spare⟩ := opened.spare ends
    obtain ⟨rfl, _⟩ := (ends ▸ opened).eq_of_way way
    have larger := opened.raised.toExtends
    have located := locate_extend larger located
    have isDir := larger.kept _ _ isDir
    have outside := outside.congr opened.raised.sameLinks
    rw [filled.grown.pathKind?_below spare.missing located outside areNames]
    exact Mirrors.entries (Disk.mirrors _) spare (ends ▸ opened).short (opened.raised.named named)
      located isDir outside run areNames

end Disk

end KernelSpec
