import KernelSpec.Proofs.FileSystem.Growth

/-! # Copies of trees

A copy to a place where nothing is makes one new tree there, or nothing (`grows`): each object is
copied to a free name in the directory that was made for the objects it is among (`Filled`). A whole
tree is copied to a path whose directories may be missing (`treeCopied`); when each `..` of the path
is reached, everything that was there before stays what it was (`TreeCopied.extends`), and what is
new is at the place and above it (`TreeCopied.differsAt`).
-/

namespace KernelSpec

theorem Entries.nodup_eraseDups (names : List Name) : names.eraseDups.Nodup := by
  match names with
  | [] => simp
  | name :: names =>
    rw [List.eraseDups_cons]
    refine List.nodup_cons.mpr ⟨?_, nodup_eraseDups _⟩
    rw [List.mem_eraseDups]
    simp
termination_by names.length
decreasing_by exact Nat.lt_succ_of_le (List.length_filter_le _ _)

namespace FileSystem

/-- Nothing differs but what is at a location and below it, and directories above it that were
missing. -/
def DiffersAt (fs other : FileSystem) (top : Loc) : Prop :=
  ∀ loc, ¬ top <+: loc → other.kind? loc = fs.kind? loc ∨
    fs.kind? loc = none ∧ loc <+: top ∧ other.kind? loc = some .dir

theorem Raised.differsAt {fs other : FileSystem} {top : Loc} (raised : Raised fs other top) :
    DiffersAt fs other top := by
  intro loc _
  cases was : fs.kind? loc with
  | some entry => exact .inl (raised.kept loc entry was)
  | none =>
    by_cases missing : other.kind? loc = none
    · exact .inl missing
    · obtain ⟨above, isDir⟩ := raised.made loc was missing
      exact .inr ⟨rfl, above, isDir⟩

end FileSystem

namespace Disk

open FileSystem KernelSpec.Path Steps

theorem nodup_namesIn (dir : Loc) (fs : FileSystem) : (namesIn dir fs).Nodup := by
  unfold namesIn
  split
  · exact Entries.nodup_eraseDups _
  · exact List.nodup_nil

/-- What comes of making objects in a directory one after another. On success each was made by its
step in the tree that had grown so far, and has stayed as it was made; otherwise one step failed. -/
structure Filled (base : Path) (top : Loc) (step : Name → Disk Unit) (names : List Name)
    (before fs : FileSystem) (result : Except Fault Unit) (changed : FileSystem) : Prop where
  grown : Grown before changed top
  enters : Enters changed base top
  others : ∀ name, name ∉ names → ∀ rest,
    changed.kind? (top ++ name :: rest) = fs.kind? (top ++ name :: rest)
  each : result = .ok () → ∀ name ∈ names, ∃ start stop, Grown before start top ∧
    Enters start base top ∧ start.kind? (top ++ [name]) = none ∧
    (step name).run start = (.ok (), stop) ∧
    ∀ rest, changed.kind? (top ++ name :: rest) = stop.kind? (top ++ name :: rest)
  stopped : ∀ fault, result = .error fault → ∃ name ∈ names, ∃ start stop, Grown before start top ∧
    Enters start base top ∧ start.kind? (top ++ [name]) = none ∧
    (step name).run start = (.error fault, stop)

/-- A step grows a tree at its name or changes nothing, so all of them fill the directory. -/
theorem filled_forM {base : Path} {top : Loc} {step : Name → Disk Unit} {names : List Name}
    {before fs changed : FileSystem} {result : Except Fault Unit}
    (one : ∀ name ∈ names, ∀ {fs changed : FileSystem} {result : Except Fault Unit},
      fs.WellNamed → Enters fs base top → fs.kind? (top ++ [name]) = none →
      (step name).run fs = (result, changed) →
      (∃ fault, result = .error fault ∧ changed = fs) ∨ Grown fs changed (top ++ [name]))
    (nodup : names.Nodup) (notRoot : top ≠ []) (grown : Grown before fs top)
    (enters : Enters fs base top) (free : ∀ name ∈ names, fs.kind? (top ++ [name]) = none)
    (run : (names.forM step).run fs = (result, changed)) :
    Filled base top step names before fs result changed := by
  -- The names that are left are free, since each step only grew a tree at its own name.
  induction names generalizing fs with
  | nil =>
    cases run
    exact ⟨grown, enters, fun _ _ _ => rfl, (fun _ _ mem => nomatch mem),
      fun _ failed => nomatch failed⟩
  | cons name names ih =>
    obtain ⟨fresh, nodup⟩ := List.nodup_cons.mp nodup
    obtain ⟨missing, free⟩ := List.forall_mem_cons.mp free
    obtain ⟨first, later⟩ := List.forall_mem_cons.mp one
    have apart : ∀ {mid : FileSystem}, Grown fs mid (top ++ [name]) → ∀ other, other ≠ name →
        ∀ rest, mid.kind? (top ++ other :: rest) = fs.kind? (top ++ other :: rest) := by
      intro mid more other different rest
      refine more.outside fun below => different ?_
      rw [List.prefix_append_right_inj, List.cons_prefix_cons] at below
      exact below.1.symm
    obtain ⟨fault, failed, rfl⟩ | ⟨_, mid, made, rest⟩ := run_bind_cases run
    · have stopped : ∀ other, (Except.error fault : Except Fault Unit) = .error other →
          ∃ inner ∈ name :: names, ∃ start stop, Grown before start top ∧
            Enters start base top ∧ start.kind? (top ++ [inner]) = none ∧
            (step inner).run start = (.error other, stop) := by
        rintro _ ⟨⟩
        exact ⟨name, List.mem_cons_self, fs, changed, grown, enters, missing, failed⟩
      obtain ⟨_, _, rfl⟩ | more := first grown.named enters missing failed
      · exact ⟨grown, enters, fun _ _ _ => rfl, (fun done => nomatch done), stopped⟩
      · refine ⟨grown.trans notRoot more, enters.extend (more.extends missing), ?_,
          (fun done => nomatch done), stopped⟩
        exact fun other absent => apart more other (List.ne_of_not_mem_cons absent)
    · obtain ⟨_, failed, _⟩ | more := first grown.named enters missing made
      · cases failed
      · have filled := ih (fun other mem => later other mem) nodup (grown.trans notRoot more)
          (enters.extend (more.extends missing)) (fun other mem => ?_) rest
        · refine ⟨filled.grown, filled.enters, fun other absent rest => ?_,
            fun done other mem => ?_, fun fault failed => ?_⟩
          · obtain ⟨different, absent⟩ := not_or.mp (mt List.mem_cons.mpr absent)
            rw [filled.others other absent, apart more other different]
          · obtain rfl | mem := List.mem_cons.mp mem
            · exact ⟨fs, mid, grown, enters, missing, made, filled.others other fresh⟩
            · exact filled.each done other mem
          · obtain ⟨other, mem, stop⟩ := filled.stopped fault failed
            exact ⟨other, List.mem_cons_of_mem name mem, stop⟩
        · rw [apart more other (fun same => fresh (same ▸ mem)) [], free other mem]

/-- Copying to a place where nothing is makes a new tree there, or nothing. -/
def Grows (fuel : Nat) : Prop :=
  ∀ {trail : Trail} {object base : Path} {loc dir : Loc} {name : Name} {front : List Segment}
    {fs changed : FileSystem} {result : Except Fault Unit}, Spare fs base front dir name →
    fs.WellNamed → (copyFrom fuel trail object base base loc).run fs = (result, changed) →
    (∃ fault, result = .error fault ∧ changed = fs) ∨ Grown fs changed (dir ++ [name])

theorem Grows.filled {fuel : Nat} (grows : Grows fuel) {trail : Trail} {object base : Path}
    {loc top : Loc} {before fs changed : FileSystem} {result : Except Fault Unit}
    (notRoot : top ≠ []) (grown : Grown before fs top) (enters : Enters fs base top)
    (empty : ∀ name, fs.kind? (top ++ [name]) = none)
    (run : (copyEntries fuel trail object base loc).run fs = (result, changed)) :
    Filled base top (copyEntry fuel trail object base loc) (namesIn loc fs) before fs result
      changed := by
  unfold copyEntries at run
  rw [run_get_bind] at run
  refine filled_forM ?_ (nodup_namesIn loc fs) notRoot grown enters (fun name _ => empty name) run
  intro name mem fs changed result named enters missing run
  unfold copyEntry at run
  obtain ⟨fault, asked, rfl⟩ | ⟨place, mid, asked, copy⟩ := run_bind_cases run
  · exact .inl ⟨fault, rfl, (Prod.mk.inj asked).2.symm⟩
  · obtain ⟨_, rfl⟩ := Prod.mk.inj asked
    exact grows (enters.spare (isName_of_mem_namesIn grown.named mem) missing) named copy

/-- The objects of a directory are copied into a directory that is made for them. -/
theorem Grows.filled_made {fuel : Nat} (grows : Grows fuel) {trail : Trail} {object base : Path}
    {loc dir : Loc} {name : Name} {front : List Segment} {fs changed : FileSystem}
    {result : Except Fault Unit} (spare : Spare fs base front dir name)
    (short : name.length ≤ maxName) (named : fs.WellNamed)
    (run : (copyEntries fuel trail object base loc).run (fs.put (dir ++ [name]) (.dir [])) =
      (result, changed)) :
    Filled base (dir ++ [name]) (copyEntry fuel trail object base loc)
      (namesIn loc (fs.put (dir ++ [name]) (.dir []))) fs (fs.put (dir ++ [name]) (.dir [])) result
      changed := by
  have grown : Grown fs (fs.put (dir ++ [name]) (.dir [])) (dir ++ [name]) :=
    spare.grown named rfl
  have enters := spare.enters short (grown.extends spare.missing)
    (spare.writable.kind?_put (.dir []))
  exact grows.filled (by simp) grown enters (fun below => spare.empty below []) run

theorem grows (fuel : Nat) : Grows fuel := by
  induction fuel with
  | zero =>
    intro _ _ _ _ _ _ _ _ _ _ _ _ run
    cases run
    exact .inl ⟨_, rfl, rfl⟩
  | succ fuel ih =>
    intro trail object base loc dir name front fs changed result spare named run
    rw [run_copyFrom] at run
    split at run
    · obtain ⟨fault, asked, rfl⟩ | ⟨opened, mid, asked, rest⟩ := run_bind_cases run
      · exact .inl ⟨fault, rfl, (Prod.mk.inj asked).2.symm⟩
      · obtain ⟨_, rfl⟩ := Prod.mk.inj asked
        obtain ⟨fault, made, rfl⟩ | ⟨_, mid, made, rest⟩ := run_bind_cases rest
        · obtain ⟨_, _, same⟩ | ⟨done, _⟩ := createDirs_spare spare made
          · exact .inl ⟨fault, rfl, same⟩
          · cases done
        · obtain ⟨_, failed, _⟩ | ⟨_, short, rfl⟩ := createDirs_spare spare made
          · cases failed
          · exact .inr (ih.filled_made spare short named rest).grown
    · obtain failed | ⟨_, _, _, _, _, rfl⟩ := copyLeaf_spare spare run
      · exact .inl failed
      · exact .inr (spare.grown named trivial)

/-! ## The walk -/

section Walk

variable {fs : FileSystem} {object : Path} {place loc : Loc}

/-- The walk comes to what it meets, or through a link to what the link leads to. -/
theorem walkTo_cases {trail : Trail} (walked : walkTo trail object place fs = .ok loc) :
    (∃ target, fs.kind? place = some (.link target)) ∧ fs.locate object = .ok loc ∨
      loc = place ∧ ∃ entry, fs.kind? place = some entry ∧ ∀ target, entry ≠ .link target := by
  rw [walkTo] at walked
  split at walked
  · next target found =>
    refine .inl ⟨⟨target, by rw [kind?, found]; rfl⟩, ?_⟩
    unfold followLink at walked
    split at walked
    · cases walked
    · next located =>
      split at walked
      · cases walked
      · cases walked
        exact located
  · next node other found =>
    cases walked
    refine .inr ⟨rfl, node.entry, by rw [kind?, found]; rfl, fun target same => ?_⟩
    cases node with
    | link target => exact other target rfl
    | file | dir => cases same
  · cases walked

theorem walkTo_nil {target : Path} (isLink : fs.kind? place = some (.link target))
    (located : fs.locate object = .ok loc) : walkTo [] object place fs = .ok loc := by
  obtain ⟨node, found, same⟩ := Option.map_eq_some_iff.mp isLink
  cases node with
  | file | dir => cases same
  | link =>
    rw [walkTo, found]
    simp only [followLink, located]
    cases Option.any Node.isDir (fs.get? loc) <;> rfl

theorem walkTo_self {trail : Trail} {entry : Entry} (found : fs.kind? place = some entry)
    (noLink : ∀ target, entry ≠ .link target) : walkTo trail object place fs = .ok place := by
  obtain ⟨node, there, rfl⟩ := Option.map_eq_some_iff.mp found
  rw [walkTo, there]
  cases node with
  | link target => exact absurd rfl (noLink target)
  | file | dir => rfl

theorem walkStart_eq_ok (walked : walkStart object fs = .ok loc) :
    ∃ place, fs.lookupLink object = .ok (.occupied place) ∧
      walkTo [] object place fs = .ok loc := by
  unfold walkStart at walked
  split at walked
  · cases walked
  · cases walked
  · next place led => exact ⟨place, led, walked⟩

/-- The walk starts at the directory that the path leads to. -/
theorem locate_of_walkStart (walked : walkStart object fs = .ok loc)
    (isDir : fs.kind? loc = some .dir) : fs.locate object = .ok loc := by
  obtain ⟨place, led, walked⟩ := walkStart_eq_ok walked
  obtain ⟨_, located⟩ | ⟨rfl, _⟩ := walkTo_cases walked
  · exact located
  · obtain ⟨valid, follows⟩ := resolveSegments_eq_ok_iff.mp led
    refine locate_eq_ok_iff.mpr ⟨valid, follows.followed fun _ target linked => ?_⟩
    rw [Spot.loc, isDir] at linked
    cases linked

/-- The walk starts at the directory that its path leads to. -/
theorem walkStart_of_locate (located : fs.locate object = .ok loc)
    (isDir : fs.kind? loc = some .dir) : walkStart object fs = .ok loc := by
  obtain ⟨valid, follows⟩ := locate_eq_ok_iff.mp located
  obtain ⟨held, kept⟩ := follows.keep
  have led : fs.lookupLink object = .ok (.occupied held) :=
    resolveSegments_eq_ok_iff.mpr ⟨valid, kept⟩
  rw [walkStart, led]
  by_cases linked : ∃ target, fs.kind? held = some (.link target)
  · obtain ⟨target, found⟩ := linked
    exact walkTo_nil found located
  · obtain rfl : held = loc :=
      Spot.occupied.inj ((kept.followed fun _ => not_exists.mp linked).unique follows)
    exact walkTo_self isDir fun _ => Entry.noConfusion

/-- The walk starts where it started when more objects are made. -/
theorem walkStart_extend {other : FileSystem} (larger : Extends fs other)
    (walked : walkStart object fs = .ok loc) : walkStart object other = .ok loc := by
  obtain ⟨place, led, walked⟩ := walkStart_eq_ok walked
  obtain ⟨valid, follows⟩ := resolveSegments_eq_ok_iff.mp led
  have led : other.lookupLink object = .ok (.occupied place) := by
    refine resolveSegments_eq_ok_iff.mpr ⟨valid, ?_⟩
    rw [larger.cwd]
    exact follows.extend larger
  rw [walkStart, led]
  obtain ⟨⟨target, found⟩, located⟩ | ⟨rfl, entry, found, noLink⟩ := walkTo_cases walked
  · exact walkTo_nil (larger.kept _ _ found) (locate_extend larger located)
  · exact walkTo_self (larger.kept _ _ found) noLink

end Walk

/-! ## Copying a tree -/

/-- What comes of copying a tree to a place that is not a directory: it stops with no more than
directories made, or the place becomes a new directory that is filled. -/
inductive TreeCopied (source place : Path) (fs : FileSystem) :
    Except Fault Unit → FileSystem → Prop
  | stopped {fault : Fault} {q : Path} {result : Except Fault Unit} {changed : FileSystem}
      (part : q.segments <+: place.segments) (absolute : q.isAbsolute = place.isAbsolute)
      (made : DirsMade q fs result changed) : TreeCopied source place fs (.error fault) changed
  | entered {loc : Loc} {mid changed : FileSystem} {dir : Loc} {name : Name}
      {result : Except Fault Unit} (walked : walkStart source fs = .ok loc)
      (isDir : fs.kind? loc = some .dir) (valid : checkPath (place.join ⟨[]⟩) = .ok ())
      (opened : Opened fs (startFrom place fs.cwd) place.segments mid dir name)
      (copied : (copyEntries (maxPath + 1) [(source, loc)] source place loc).run
        (mid.put (dir ++ [name]) (.dir [])) = (result, changed)) :
      TreeCopied source place fs result changed

section Tree

variable {source place : Path} {fs changed : FileSystem} {result : Except Fault Unit}
  {front : List Segment} {child : Name}

theorem TreeCopied.unchanged (fault : Fault) : TreeCopied source place fs (.error fault) fs :=
  .stopped List.prefix_rfl rfl (DirsMade.unchanged fun done : Except.error fault = .ok () =>
    nomatch done)

theorem parent?_slash_ne_none (ends : place.segments = front ++ [.name child]) :
    (place.join ⟨[]⟩).parent? ≠ none :=
  parent?_ne_none_of_mem
    (show .name child ∈ (place.join ⟨[]⟩).segments by simp [segments_join_nil, ends])

theorem segments_ne_nil (ends : place.segments = front ++ [.name child]) : place.bytes ≠ [] := by
  intro empty
  rw [segments, empty] at ends
  have lengths := congrArg List.length ends
  simp [splitSlash, segmentOf?] at lengths

/-- The target of a copied tree is its place with a slash, which leads where the place leads. -/
theorem isDir_of_slash (nonempty : place.bytes ≠ [])
    (isDir : fs.isDir (place.join ⟨[]⟩) = true) : fs.isDir place = true := by
  obtain ⟨loc, located, found⟩ := isDir_iff.mp isDir
  have valid := checkPath_of_join (locate_eq_ok_iff.mp located).1 List.not_mem_nil nonempty
  have follows := follows_of_locate located
  rw [segments_join_nil, startFrom, isAbsolute_join_nil] at follows
  exact isDir_iff.mpr
    ⟨loc, locate_eq_ok_iff.mpr ⟨valid, (follows_lookupSegments_iff found).mpr follows⟩, found⟩

/-- The directory of the place is made new. -/
theorem createDirs_place (reached : Reached fs place)
    (ends : place.segments = front ++ [.name child]) (absent : ¬ fs.isDir place = true)
    (run : (createDirs (place.join ⟨[]⟩)).run fs = (.ok (), changed)) :
    ∃ mid dir name, Opened fs (startFrom place fs.cwd) place.segments mid dir name ∧
      changed = mid.put (dir ++ [name]) (.dir []) := by
  have same := segments_join_nil place
  have reached : Reached fs (place.join ⟨[]⟩) :=
    reached.of_prefix (same ▸ List.prefix_rfl) (isAbsolute_join_nil place)
  generalize done : Except.ok () = result at run
  cases dirsMade_createDirs reached run with
  | unchanged there =>
    obtain isDir | dots := there done.symm
    · exact absurd (isDir_of_slash (segments_ne_nil ends) isDir) absent
    · have last : Segment.name child = .here := dots _ (by rw [same, ends]; simp)
      cases last
  | @chain part rest mid dir name split opened dots =>
    obtain rfl : rest = [] := by
      obtain rfl | ⟨others, last, rfl⟩ := List.eq_nil_or_concat rest
      · rfl
      · have isHere := dots done.symm last (by simp)
        rw [same, ends, List.concat_eq_append, ← List.append_assoc] at split
        have lasts := (List.append_inj' split rfl).2
        rw [isHere] at lasts
        cases lasts
    rw [same, List.append_nil] at split
    rw [startFrom, isAbsolute_join_nil, ← split] at opened
    exact ⟨mid, dir, name, opened, rfl⟩

/-- A file is never copied to a path that ends in a slash. -/
theorem copyLeaf_slash {object target : Path} (slash : target.endsInSlash = true)
    (notTop : target.parent? ≠ none) (run : (copyLeaf object target).run fs = (result, changed)) :
    ∃ fault parent made, result = .error fault ∧ target.parent? = some parent ∧
      (createDirs parent).run fs = (made, changed) := by
  obtain ⟨parent, found⟩ := Option.ne_none_iff_exists'.mp notTop
  unfold copyLeaf at run
  rw [found] at run
  obtain ⟨fault, above, failed⟩ | ⟨_, mid, above, copy⟩ := run_bind_cases run
  · exact ⟨fault, parent, _, failed, found, above⟩
  · rw [run_ofOperation] at copy
    cases done : FileSystem.copyFile object target mid with
    | error fault =>
      rw [done] at copy
      cases copy
      exact ⟨fault, parent, _, rfl, found, above⟩
    | ok =>
      obtain ⟨_, _, led, _⟩ := copyFile_eq_ok done
      obtain ⟨_, found, _⟩ := writePlace_eq_ok led
      obtain ⟨_, noSlash, _⟩ := lookupWritten_eq_ok found
      rw [slash] at noSlash
      cases noSlash

theorem treeCopied (reached : Reached fs place)
    (ends : place.segments = front ++ [.name child]) (absent : ¬ fs.isDir place = true)
    (run : (copyTree source place).run fs = (result, changed)) :
    TreeCopied source place fs result changed := by
  have notTop : (place.join ⟨[]⟩).parent? ≠ none := parent?_slash_ne_none ends
  unfold copyTree copyWithin at run
  obtain ⟨fault, asked, rfl⟩ | ⟨loc, mid, asked, copy⟩ := run_bind_cases run
  · obtain ⟨_, rfl⟩ := Prod.mk.inj asked
    exact .unchanged fault
  · obtain ⟨walked, rfl⟩ := Prod.mk.inj asked
    rw [run_copyFrom] at copy
    split at copy
    · next isDir =>
      obtain ⟨fault, asked, rfl⟩ | ⟨_, mid, asked, rest⟩ := run_bind_cases copy
      · obtain ⟨_, rfl⟩ := Prod.mk.inj asked
        exact .unchanged fault
      · obtain ⟨opens, rfl⟩ := Prod.mk.inj asked
        have isDir := any_isDir_iff.mp isDir
        cases (mapError_eq_ok_iff.mp opens).symm.trans (locate_of_walkStart walked isDir)
        obtain ⟨fault, failed, rfl⟩ | ⟨_, mid, made, rest⟩ := run_bind_cases rest
        · have same := segments_join_nil place
          have part : (place.join ⟨[]⟩).segments <+: place.segments := same ▸ List.prefix_rfl
          have absolute := isAbsolute_join_nil place
          exact .stopped part absolute
            (dirsMade_createDirs (reached.of_prefix part absolute) failed)
        · obtain ⟨mid, dir, name, opened, rfl⟩ := createDirs_place reached ends absent made
          exact .entered walked isDir (checkPath_of_createDirs notTop made) opened rest
    · obtain ⟨fault, parent, made, rfl, found, above⟩ :=
        copyLeaf_slash (endsInSlash_join_nil (segments_ne_nil ends)) notTop copy
      obtain ⟨part, absolute⟩ := segments_parent? found
      rw [segments_join_nil] at part
      rw [isAbsolute_join_nil] at absolute
      exact .stopped part absolute (dirsMade_createDirs (reached.of_prefix part absolute) above)

/-- The copy of a directory starts by making one. -/
theorem run_copyTree_of_dir {loc : Loc} (walked : walkStart source fs = .ok loc)
    (isDir : fs.kind? loc = some .dir) :
    (copyTree source place).run fs = (createDirs (place.join ⟨[]⟩) >>= fun _ =>
      copyEntries (maxPath + 1) [(source, loc)] source place loc).run fs := by
  have asked : (ask (walkStart source)).run fs = (.ok loc, fs) := by
    rw [run_ask, walked]
  have opens : (ask (openDir source)).run fs = (.ok loc, fs) := by
    rw [run_ask, openDir, locate_of_walkStart walked isDir]
    rfl
  unfold copyTree copyWithin
  rw [run_bind_of_ok asked, run_copyFrom, if_pos (any_isDir_iff.mpr isDir), run_bind_of_ok opens]

/-- A directory is made at a free place, and the objects of the tree are copied into it. -/
theorem run_copyTree_spare {loc dir : Loc} {name : Name} (walked : walkStart source fs = .ok loc)
    (isDir : fs.kind? loc = some .dir) (valid : checkPath (place.join ⟨[]⟩) = .ok ())
    (spare : Spare fs place front dir name) (short : name.length ≤ maxName) :
    (copyTree source place).run fs =
      (copyEntries (maxPath + 1) [(source, loc)] source place loc).run
        (fs.put (dir ++ [name]) (.dir [])) := by
  have made : fs.makeDir (place.join ⟨[]⟩) = .ok (fs.put (dir ++ [name]) (.dir [])) := by
    refine makeDir_of_vacant valid ?_
    rw [segments_join_nil, startFrom, isAbsolute_join_nil]
    exact spare.follows_vacant short .kept
  have created := run_createDirs (parent?_slash_ne_none spare.ends) made
  rw [run_copyTree_of_dir walked isDir, run_bind_of_ok created]

/-- The directory of the place is filled. -/
theorem filled_opened {fuel : Nat} {trail : Trail} {object : Path} {mid : FileSystem}
    {loc dir : Loc} {name : Name}
    (opened : Opened fs (startFrom place fs.cwd) place.segments mid dir name)
    (ends : place.segments = front ++ [.name child]) (named : fs.WellNamed)
    (run : (copyEntries fuel trail object place loc).run (mid.put (dir ++ [name]) (.dir [])) =
      (result, changed)) :
    Filled place (dir ++ [name]) (copyEntry fuel trail object place loc)
      (namesIn loc (mid.put (dir ++ [name]) (.dir []))) mid (mid.put (dir ++ [name]) (.dir []))
      result changed := by
  obtain ⟨rfl, spare⟩ := opened.spare ends
  exact Grows.filled_made (grows fuel) spare (ends ▸ opened).short (opened.raised.named named) run

/-- Nothing that was there is changed by a copy to a place that is not a directory. -/
theorem TreeCopied.extends (copied : TreeCopied source place fs result changed)
    (ends : place.segments = front ++ [.name child]) (named : fs.WellNamed) :
    Extends fs changed := by
  cases copied with
  | stopped _ _ made => exact made.extends
  | entered _ _ _ opened run =>
    exact opened.raised.toExtends.trans
      ((filled_opened opened ends named run).grown.extends opened.leads.vacancy.2)

/-- Nothing differs but what is at a place and below it, and missing directories above it. -/
theorem TreeCopied.differsAt (copied : TreeCopied source place fs result changed)
    (reached : Reached fs place) (ends : place.segments = front ++ [.name child])
    (named : fs.WellNamed) {dir : Loc}
    (way : Passes fs (startFrom place fs.cwd, front) (dir, [])) :
    DiffersAt fs changed (dir ++ [child]) := by
  cases copied with
  | stopped part absolute made => exact (made.raised reached part absolute ends way).differsAt
  | entered _ _ _ opened run =>
    have grown := (filled_opened opened ends named run).grown
    rw [ends] at opened
    obtain ⟨rfl, rfl⟩ := opened.eq_of_way way
    intro loc outside
    rw [grown.outside outside]
    exact (opened.raised.mono (List.prefix_append _ _)).differsAt loc outside

/-- A place that a tree was copied to is a new directory, and its path names it. -/
theorem TreeCopied.canonicalize (copied : TreeCopied source place fs (.ok ()) changed)
    (ends : place.segments = front ++ [.name child]) (named : fs.WellNamed) {path : Path}
    (found : changed.canonicalize place = .ok path) :
    ∃ mid dir, Opened fs (startFrom place fs.cwd) place.segments mid dir child ∧
      Grown mid changed (dir ++ [child]) ∧ changed.kind? (dir ++ [child]) = some .dir ∧
      path = pathOf (dir ++ [child]) := by
  obtain ⟨loc, located, rfl⟩ := locate_of_canonicalize found
  generalize done : Except.ok () = result at copied
  cases copied with
  | stopped => cases done
  | @entered _ mid _ dir name _ _ _ _ opened run =>
    have filled := filled_opened opened ends named run
    obtain ⟨rfl, _⟩ := opened.spare ends
    cases (follows_of_locate located).unique filled.enters.leads
    exact ⟨mid, dir, opened, filled.grown, filled.enters.isDir, rfl⟩

end Tree

end Disk

end KernelSpec
