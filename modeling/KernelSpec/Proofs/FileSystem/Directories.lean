import KernelSpec.Proofs.FileSystem.Lookup
import KernelSpec.Proofs.FileSystem.Run

/-! # Making missing directories

The directories of a path are made from the written path: a directory is made for each part of it
that leads nowhere. When every `..` of the path is reached (`Reached`), that is a chain of new
directories that ends in a new, empty one (`dirsMade_createDirs`). Otherwise a directory that is
made for the sake of a `..` may open the way to something that was there before.
-/

namespace KernelSpec

namespace FileSystem

open KernelSpec.Path

/-- Each `..` of the path is reached: the part of the path up to it leads somewhere. -/
def Reached (fs : FileSystem) (p : Path) : Prop :=
  ∀ part ∈ p.segments.inits, part.getLast? = some .up →
    (resolveFrom fs maxLinks .followed (startFrom p fs.cwd) part).isOk = true

instance (fs : FileSystem) (p : Path) : Decidable (Reached fs p) :=
  inferInstanceAs (Decidable (∀ part ∈ p.segments.inits, _))

theorem Reached.follows {fs : FileSystem} {p : Path} (reached : Reached fs p)
    {front back : List Segment} (up : p.segments = front ++ .up :: back) :
    ∃ loc, Follows fs .followed maxLinks (startFrom p fs.cwd) (front ++ [.up]) (.occupied loc) := by
  have part : front ++ [.up] ∈ p.segments.inits := by
    refine (List.mem_inits _ _).mpr ?_
    rw [up]
    exact ⟨back, by simp⟩
  have isOk := reached _ part List.getLast?_concat
  cases found : resolveFrom fs maxLinks .followed (startFrom p fs.cwd) (front ++ [.up]) with
  | error errno =>
    rw [found] at isOk
    cases isOk
  | ok spot =>
    have follows := resolveFrom_eq_ok_iff.mp found
    obtain ⟨mid, fewer, _, _, back⟩ := follows.split (by simp)
    cases back with
    | up isDir done =>
      cases done
      exact ⟨_, follows⟩

theorem Reached.of_follows {fs : FileSystem} {p : Path}
    (follows : ∀ front back, p.segments = front ++ .up :: back → ∃ loc,
      Follows fs .followed maxLinks (startFrom p fs.cwd) (front ++ [.up]) (.occupied loc)) :
    Reached fs p := by
  intro part mem ends
  obtain ⟨back, whole⟩ := (List.mem_inits _ _).mp mem
  obtain ⟨front, rfl⟩ := List.getLast?_eq_some_iff.mp ends
  obtain ⟨loc, follows⟩ := follows front back (by rw [← whole]; simp)
  rw [follows.resolveFrom_eq]
  rfl

theorem Reached.of_prefix {fs : FileSystem} {p q : Path} (reached : Reached fs p)
    (part : q.segments <+: p.segments) (absolute : q.isAbsolute = p.isAbsolute) :
    Reached fs q := by
  obtain ⟨more, whole⟩ := part
  refine .of_follows fun front back up => ?_
  have split : p.segments = front ++ .up :: (back ++ more) := by
    rw [← whole, up]
    simp
  rw [startFrom, absolute]
  exact reached.follows split

theorem Reached.extend {fs other : FileSystem} (larger : Extends fs other) {p : Path}
    (reached : Reached fs p) : Reached other p := by
  refine .of_follows fun front back up => ?_
  obtain ⟨loc, follows⟩ := reached.follows up
  rw [larger.cwd]
  exact ⟨loc, follows.extend larger⟩

/-- Nothing but directories has been made, on the way down to a location. -/
structure Raised (before fs : FileSystem) (top : Loc) : Prop extends Extends before fs where
  made : ∀ loc, before.kind? loc = none → fs.kind? loc ≠ none →
    loc <+: top ∧ fs.kind? loc = some .dir
  named : before.WellNamed → fs.WellNamed

theorem Raised.refl (fs : FileSystem) (top : Loc) : Raised fs fs top where
  toExtends := .refl fs
  made _ missing found := absurd missing found
  named := id

theorem Raised.mono {before fs : FileSystem} {top lower : Loc} (raised : Raised before fs top)
    (above : top <+: lower) : Raised before fs lower where
  toExtends := raised.toExtends
  made loc missing found :=
    let ⟨within, isDir⟩ := raised.made loc missing found
    ⟨within.trans above, isDir⟩
  named := raised.named

theorem Raised.sameLinks {before fs : FileSystem} {top : Loc} (raised : Raised before fs top) :
    SameLinks before fs := by
  intro loc target
  refine ⟨raised.kept loc _, fun found => ?_⟩
  cases was : before.kind? loc with
  | none =>
    have made := (raised.made loc was (by rw [found]; exact Option.some_ne_none _)).2
    rw [found] at made
    cases made
  | some entry => rw [← found, raised.kept loc entry was]

theorem kind?_put_dir {fs : FileSystem} {dir : Loc} {name : Name}
    (isDir : fs.kind? dir = some .dir) (missing : fs.kind? (dir ++ [name]) = none) (loc : Loc) :
    (fs.put (dir ++ [name]) (.dir [])).kind? loc =
      if loc = dir ++ [name] then some .dir else fs.kind? loc := by
  obtain ⟨entries, parent⟩ := kind?_eq_dir_iff.mp isDir
  by_cases below : dir ++ [name] <+: loc
  · obtain ⟨more, rfl⟩ := below
    rw [kind?, get?_put_append fs _ parent]
    cases more with
    | nil => simp [Node.get?, Node.entry]
    | cons next more =>
      rw [if_neg (by simp), kind?_of_missing missing (List.prefix_append _ _)]
      rfl
  · rw [FileSystem.kind?_put fs _ below, if_neg]
    rintro rfl
    exact below List.prefix_rfl

theorem Raised.put {before fs : FileSystem} {dir : Loc} (raised : Raised before fs dir)
    {name : Name} (isDir : fs.kind? dir = some .dir) (missing : fs.kind? (dir ++ [name]) = none)
    (isName : IsName name) :
    Raised before (fs.put (dir ++ [name]) (.dir [])) (dir ++ [name]) where
  toExtends := raised.toExtends.trans (extends_put missing _)
  made loc wasMissing found := by
    rw [kind?_put_dir isDir missing] at found ⊢
    split at found
    · next here =>
      rw [if_pos here, here]
      exact ⟨List.prefix_rfl, rfl⟩
    · next other =>
      rw [if_neg other]
      obtain ⟨above, made⟩ := raised.made loc wasMissing found
      exact ⟨above.trans (List.prefix_append _ _), made⟩
  named wellNamed :=
    (Writable.vacant isDir missing isName).wellNamed_put (raised.named wellNamed) rfl

/-- Directories have been made so that the segments lead to a spot that is free, and was. -/
structure Opened (before : FileSystem) (start : Loc) (part : List Segment) (fs : FileSystem)
    (dir : Loc) (name : Name) : Prop where
  raised : Raised before fs dir
  fresh : before.kind? (dir ++ [name]) = none
  leads : Follows fs .kept maxLinks start part (.vacant dir name)
  isName : IsName name

/-- In an empty directory, segments without `..` lead nowhere but to the directory itself and to the
free spots in it. -/
theorem Follows.of_empty {fs : FileSystem} {last : LastLink} {links : Nat} {dir : Loc}
    {segments : List Segment} {spot : Spot} (follows : Follows fs last links dir segments spot)
    (empty : ∀ name, fs.kind? (dir ++ [name]) = none) (noUp : .up ∉ segments) :
    (∃ name, spot = .vacant dir name) ∨ ∀ segment ∈ segments, segment = .here := by
  induction follows with
  | done => exact .inr (by simp)
  | here _ _ ih =>
    obtain vacant | here := ih empty fun mem => noUp (List.mem_cons_of_mem _ mem)
    · exact .inl vacant
    · exact .inr (by simpa using here)
  | up => exact absurd List.mem_cons_self noUp
  | vacant => exact .inl ⟨_, rfl⟩
  | name _ _ found | kept _ _ found | link _ _ found =>
    rw [empty] at found
    cases found

end FileSystem

namespace Disk

open FileSystem KernelSpec.Path Steps

theorem run_ensureDir (p : Path) (fs : FileSystem) :
    (ensureDir p).run fs =
      match fs.makeDir p with
      | .ok changed => (.ok (), changed)
      | .error fault =>
        (if fault = .os .alreadyExists && fs.isDir p then .ok () else .error fault, fs) := by
  simp only [ensureDir, ExceptT.run, ExceptT.mk]
  cases fs.makeDir p with
  | ok changed => rfl
  | error fault =>
    simp only
    split <;> rfl

/-- A directory that is made sure of is made, or is there already. -/
theorem ensureDir_ok {p : Path} {fs changed : FileSystem}
    (run : (ensureDir p).run fs = (.ok (), changed)) :
    fs.makeDir p = .ok changed ∨ changed = fs ∧ fs.isDir p = true := by
  rw [run_ensureDir] at run
  split at run
  · next made =>
    cases run
    exact .inl made
  · obtain ⟨result, rfl⟩ := Prod.mk.inj run
    split at result
    · next there => exact .inr ⟨rfl, (Bool.and_eq_true_iff.mp there).2⟩
    · cases result

theorem ensureDir_error {p : Path} {fs changed : FileSystem} {fault : Fault}
    (run : (ensureDir p).run fs = (.error fault, changed)) : changed = fs := by
  rw [run_ensureDir] at run
  split at run
  · cases run
  · exact (Prod.mk.inj run).2.symm

/-- The parents are made only when a parent is missing, and then the directory is tried again. -/
theorem ensureDirs_cons {p : Path} {parents : List Path} {fs changed : FileSystem}
    {result : Except Fault Unit}
    (run : (ensureDirs (p :: parents)).run fs = (result, changed)) :
    (ensureDir p).run fs = (result, changed) ∨
      (ensureDir p).run fs = (.error (.os .noEntry), fs) ∧
        ((∃ raised, (ensureDirs parents).run fs = (.ok (), raised) ∧
            (ensureDir p).run raised = (result, changed)) ∨
          ∃ fault, (ensureDirs parents).run fs = (.error fault, changed) ∧
            result = .error fault) := by
  rw [ensureDirs, run_tryCatch] at run
  cases first : (ensureDir p).run fs with
  | mk answer same =>
    rw [first] at run
    cases answer with
    | ok _ => exact .inl run
    | error fault =>
      obtain rfl := ensureDir_error first
      simp only at run
      split at run
      · next missing =>
        subst missing
        refine .inr ⟨rfl, ?_⟩
        obtain ⟨fault, above, failed⟩ | ⟨_, raised, above, run⟩ := run_bind_cases run
        · exact .inr ⟨fault, above, failed⟩
        · exact .inl ⟨raised, above, run⟩
      · exact .inl run

theorem makeDir_vacant {p : Path} {fs changed : FileSystem} (done : fs.makeDir p = .ok changed) :
    ∃ dir name, Follows fs .kept maxLinks (startFrom p fs.cwd) p.segments (.vacant dir name) ∧
      changed = fs.put (dir ++ [name]) (.dir []) := by
  obtain ⟨spot, led, done⟩ := bind_eq_ok_iff.mp done
  cases spot with
  | occupied loc => cases done
  | vacant dir name =>
    cases done
    exact ⟨dir, name, (resolveSegments_eq_ok_iff.mp led).2, rfl⟩

theorem makeDir_of_vacant {p : Path} {fs : FileSystem} {dir : Loc} {name : Name}
    (valid : checkPath p = .ok ())
    (follows : Follows fs .kept maxLinks (startFrom p fs.cwd) p.segments (.vacant dir name)) :
    fs.makeDir p = .ok (fs.put (dir ++ [name]) (.dir [])) :=
  bind_eq_ok_iff.mpr ⟨_, resolveSegments_eq_ok_iff.mpr ⟨valid, follows⟩, rfl⟩

/-- A path that a directory is made sure of is valid. -/
theorem checkPath_of_ensureDir {p : Path} {fs changed : FileSystem}
    (run : (ensureDir p).run fs = (.ok (), changed)) : checkPath p = .ok () := by
  obtain made | ⟨_, there⟩ := ensureDir_ok run
  · obtain ⟨spot, led, _⟩ := bind_eq_ok_iff.mp made
    exact (resolveSegments_eq_ok_iff.mp led).1
  · obtain ⟨loc, located, _⟩ := isDir_iff.mp there
    exact (locate_eq_ok_iff.mp located).1

theorem checkPath_of_createDirs {p : Path} {fs changed : FileSystem} (notTop : p.parent? ≠ none)
    (run : (createDirs p).run fs = (.ok (), changed)) : checkPath p = .ok () := by
  obtain ⟨parent, found⟩ := Option.ne_none_iff_exists'.mp notTop
  rw [createDirs, selfAndParents, found] at run
  obtain run | ⟨_, ⟨_, _, run⟩ | ⟨_, _, failed⟩⟩ := ensureDirs_cons run
  · exact checkPath_of_ensureDir run
  · exact checkPath_of_ensureDir run
  · cases failed

/-- Where nothing is missing above, a directory is made in one step. -/
theorem run_createDirs {p : Path} {fs changed : FileSystem} (notTop : p.parent? ≠ none)
    (made : fs.makeDir p = .ok changed) : (createDirs p).run fs = (.ok (), changed) := by
  obtain ⟨parent, found⟩ := Option.ne_none_iff_exists'.mp notTop
  rw [createDirs, selfAndParents, found]
  change (tryCatch (ensureDir p) _ : Disk Unit).run fs = _
  rw [run_tryCatch, run_ensureDir, made]

/-- Where something is, no directory is made. -/
theorem run_createDirs_of_taken {p : Path} {fs : FileSystem} {held : Loc}
    (notTop : p.parent? ≠ none) (led : fs.lookupPlace p = .ok (.occupied held)) :
    (createDirs p).run fs =
      (if fs.isDir p then .ok () else .error (.os .alreadyExists), fs) := by
  obtain ⟨parent, found⟩ := Option.ne_none_iff_exists'.mp notTop
  have taken : fs.makeDir p = .error (.os .alreadyExists) := by
    rw [makeDir, led]
    rfl
  rw [createDirs, selfAndParents, found]
  change (tryCatch (ensureDir p) _ : Disk Unit).run fs = _
  rw [run_tryCatch, run_ensureDir, taken]
  cases fs.isDir p <;> rfl

/-- A directory that is there is not made again. -/
theorem run_createDirs_of_isDir {p : Path} {fs : FileSystem} (isDir : fs.isDir p = true) :
    (createDirs p).run fs = (.ok (), fs) := by
  cases found : p.parent? with
  | none =>
    rw [createDirs, selfAndParents, found]
    rfl
  | some parent =>
    obtain ⟨loc, located, _⟩ := isDir_iff.mp isDir
    obtain ⟨held, led⟩ := lookupPlace_of_locate located
    rw [run_createDirs_of_taken (by rw [found]; exact Option.some_ne_none _) led, if_pos isDir]

end Disk

namespace FileSystem

open KernelSpec.Path

theorem follows_dots {fs : FileSystem} {last : LastLink} {links : Nat} {loc : Loc}
    (isDir : fs.kind? loc = some .dir) {dots : List Segment}
    (here : ∀ segment ∈ dots, segment = .here) :
    Follows fs last links loc dots (.occupied loc) := by
  induction dots with
  | nil => exact .done loc
  | cons segment dots ih =>
    obtain ⟨rfl, later⟩ := List.forall_mem_cons.mp here
    exact .here isDir (ih later)

/-- A `.` at the end leads nowhere else. -/
theorem Follows.of_dots {fs : FileSystem} {links : Nat} {loc place : Loc}
    {segments dots : List Segment}
    (follows : Follows fs .followed links loc (segments ++ dots) (.occupied place))
    (here : ∀ segment ∈ dots, segment = .here) :
    Follows fs .followed links loc segments (.occupied place) := by
  obtain rfl | more := eq_or_ne dots []
  · rwa [List.append_nil] at follows
  · obtain ⟨mid, _, _, first, second⟩ := follows.split more
    have stays : Follows fs .followed 0 mid dots (.occupied mid) :=
      follows_dots (second.isDir more) here
    cases second.unique stays
    exact first

section Opened

variable {before fs : FileSystem} {start dir : Loc} {name : Name} {part : List Segment}
  (opened : Opened before start part fs dir name)

include opened

theorem Opened.kind?_made (loc : Loc) :
    (fs.put (dir ++ [name]) (.dir [])).kind? loc =
      if loc = dir ++ [name] then some .dir else fs.kind? loc := by
  obtain ⟨isDir, missing⟩ := opened.leads.vacancy
  exact kind?_put_dir isDir missing loc

/-- Nothing is in the new directory. -/
theorem Opened.empty (other : Name) :
    (fs.put (dir ++ [name]) (.dir [])).kind? (dir ++ [name] ++ [other]) = none := by
  rw [opened.kind?_made, if_neg (by simp)]
  exact kind?_of_missing opened.leads.vacancy.2 (List.prefix_append _ _)

/-- A directory that is made at the free spot is raised from what was there before. -/
theorem Opened.made : Raised before (fs.put (dir ++ [name]) (.dir [])) (dir ++ [name]) := by
  obtain ⟨isDir, missing⟩ := opened.leads.vacancy
  exact opened.raised.put isDir missing opened.isName

theorem Opened.follows_made {dots : List Segment} (here : ∀ segment ∈ dots, segment = .here) :
    Follows (fs.put (dir ++ [name]) (.dir [])) .followed maxLinks start (part ++ dots)
      (.occupied (dir ++ [name])) := by
  have leads : Follows (fs.put (dir ++ [name]) (.dir [])) .kept maxLinks start part
      (.occupied (dir ++ [name])) := opened.leads.put_vacant fun _ => Entry.noConfusion
  have isDir : (fs.put (dir ++ [name]) (.dir [])).kind? (dir ++ [name]) = some .dir := by
    rw [opened.kind?_made, if_pos rfl]
  have leads := leads.followed fun _ target found => by
    rw [Spot.loc, isDir] at found
    cases found
  by_cases ends : dots = []
  · rwa [ends, List.append_nil]
  · exact leads.append_free (follows_dots isDir here) ends

/-- No `..` comes after a directory that was made, when all of them were reached before. -/
theorem Opened.up_not_mem {p : Path} (reached : Reached before p)
    (begins : startFrom p before.cwd = start) {dots extra : List Segment}
    (here : ∀ segment ∈ dots, segment = .here) (whole : p.segments = part ++ dots ++ extra) :
    .up ∉ extra := by
  intro up
  obtain ⟨front, back, rfl⟩ := List.mem_iff_append.mp up
  have split : p.segments = (part ++ dots ++ front) ++ .up :: back := by
    rw [whole]
    simp
  obtain ⟨loc, follows⟩ := reached.follows split
  rw [List.append_assoc, begins] at follows
  obtain ⟨mid, _, _, first, second⟩ := follows.split (by simp)
  have there := second.isDir (by simp)
  have same := (first.extend opened.made.toExtends).unique (opened.follows_made here)
  rw [Spot.occupied.inj same, opened.fresh] at there
  cases there

/-- A path goes on in the new directory: to a free spot in it, or no further. -/
theorem Opened.next {p : Path} (reached : Reached before p)
    (begins : startFrom p before.cwd = start) {dots extra : List Segment}
    (here : ∀ segment ∈ dots, segment = .here) (whole : p.segments = part ++ dots ++ extra)
    {last : LastLink} {links : Nat} {more : List Segment} {spot : Spot}
    (noUp : .up ∉ more)
    (follows : Follows (fs.put (dir ++ [name]) (.dir [])) last links start (p.segments ++ more)
      spot) :
    (∃ free, spot = .vacant (dir ++ [name]) free) ∨ ∀ segment ∈ extra, segment = .here := by
  rw [whole, List.append_assoc] at follows
  by_cases ends : extra ++ more = []
  · rw [(List.append_eq_nil_iff.mp ends).1]
    exact .inr (by simp)
  · obtain ⟨mid, _, _, first, second⟩ := follows.split ends
    cases first.unique (opened.follows_made here)
    obtain vacant | onlyDots := second.of_empty opened.empty fun up => by
      obtain up | up := List.mem_append.mp up
      · exact opened.up_not_mem reached begins here whole up
      · exact noUp up
    · exact .inl vacant
    · exact .inr (List.forall_mem_append.mp onlyDots).1

end Opened

/-- The free spot is where the way to its directory ends. -/
theorem Opened.eq_of_way {before fs : FileSystem} {start above dir : Loc} {front : List Segment}
    {new name : Name} (opened : Opened before start (front ++ [.name name]) fs above new)
    (way : Passes before (start, front) (dir, [])) : above = dir ∧ new = name := by
  obtain ⟨_, leads, _, ⟨same, _⟩ | ⟨same, _⟩⟩ := opened.leads.above_kept
  · cases same
    have onward := way.onward (leads.passes_followed.congr opened.raised.sameLinks.symm)
    obtain same | ⟨_, step, _⟩ := onward.cases_head
    · cases same
      exact ⟨rfl, rfl⟩
    · cases step
  · cases same

end FileSystem

namespace Disk

open FileSystem KernelSpec.Path Steps

/-- What comes of making the directories of a path: nothing is made, or a chain of directories that
reaches the end of the path on success. -/
inductive DirsMade (p : Path) (fs : FileSystem) : Except Fault Unit → FileSystem → Prop
  | unchanged {result : Except Fault Unit} (there : result = .ok () →
      fs.isDir p = true ∨ ∀ segment ∈ p.segments, segment = .here) : DirsMade p fs result fs
  | chain {result : Except Fault Unit} {part rest : List Segment} {mid : FileSystem} {dir : Loc}
      {name : Name} (split : p.segments = part ++ rest)
      (opened : Opened fs (startFrom p fs.cwd) part mid dir name)
      (ends : result = .ok () → ∀ segment ∈ rest, segment = .here) :
      DirsMade p fs result (mid.put (dir ++ [name]) (.dir []))

theorem dirsMade_ensureDir {p : Path} {fs changed : FileSystem} {result : Except Fault Unit}
    (run : (ensureDir p).run fs = (result, changed)) : DirsMade p fs result changed := by
  cases result with
  | error fault =>
    obtain rfl := ensureDir_error run
    exact .unchanged fun failed => nomatch failed
  | ok _ =>
    obtain made | ⟨rfl, there⟩ := ensureDir_ok run
    · obtain ⟨dir, name, leads, rfl⟩ := makeDir_vacant made
      have isName := leads.isName_of_vacant fun _ => isName_of_mem_segments
      refine .chain (List.append_nil _).symm ⟨.refl fs dir, leads.vacancy.2, leads, isName⟩ ?_
      simp
    · exact .unchanged fun _ => .inl there

/-- The last directory is made in the new one above it. -/
theorem DirsMade.next {p q : Path} {fs raised changed : FileSystem} {result : Except Fault Unit}
    (reached : Reached fs p) (found : p.parent? = some q)
    (failed : (ensureDir p).run fs = (.error (.os .noEntry), fs))
    (above : DirsMade q fs (.ok ()) raised)
    (run : (ensureDir p).run raised = (result, changed)) : DirsMade p fs result changed := by
  obtain ⟨⟨extra, whole⟩, absolute⟩ := segments_parent? found
  cases above with
  | unchanged =>
    obtain ⟨rfl, rfl⟩ := Prod.mk.inj (failed.symm.trans run)
    exact .unchanged (by simp)
  | @chain part dots mid dir name split opened ends =>
    have here := ends rfl
    have begins : startFrom p fs.cwd = startFrom q fs.cwd := by rw [startFrom, startFrom, absolute]
    have whole : p.segments = part ++ dots ++ extra := by rw [← whole, split]
    have cwd : (mid.put (dir ++ [name]) (.dir [])).cwd = fs.cwd := opened.made.cwd
    have opened : Opened fs (startFrom p fs.cwd) part mid dir name := begins ▸ opened
    cases result with
    | error fault =>
      obtain rfl := ensureDir_error run
      rw [List.append_assoc] at whole
      exact .chain whole opened (by simp)
    | ok _ =>
      obtain made | ⟨rfl, there⟩ := ensureDir_ok run
      · obtain ⟨under, free, leads, rfl⟩ := makeDir_vacant made
        rw [cwd] at leads
        rw [← List.append_nil p.segments] at leads
        obtain ⟨_, same⟩ | onlyDots := opened.next reached rfl here whole List.not_mem_nil leads
        all_goals rw [List.append_nil] at leads
        · cases same
          have fresh := kind?_of_missing opened.fresh (List.prefix_append _ [free])
          have isName := leads.isName_of_vacant fun _ => isName_of_mem_segments
          exact .chain (List.append_nil _).symm ⟨opened.made, fresh, leads, isName⟩ (by simp)
        · -- The path names the new directory itself, so there is nothing to make.
          have leads := leads.followed fun _ target linked => by
            rw [Spot.loc, leads.vacancy.2] at linked
            cases linked
          rw [whole, List.append_assoc] at leads
          cases leads.unique (opened.follows_made (List.forall_mem_append.mpr ⟨here, onlyDots⟩))
      · obtain ⟨loc, located, _⟩ := isDir_iff.mp there
        have leads := (locate_eq_ok_iff.mp located).2
        rw [cwd, lookupSegments] at leads
        have noUp : .up ∉ if p.endsInSlash then [Segment.here] else [] := by split <;> simp
        obtain ⟨_, same⟩ | onlyDots := opened.next reached rfl here whole noUp leads
        · cases same
        · rw [List.append_assoc] at whole
          exact .chain whole opened fun _ => List.forall_mem_append.mpr ⟨here, onlyDots⟩

theorem dirsMade_single {p : Path} {fs changed : FileSystem} {result : Except Fault Unit}
    (run : (ensureDirs [p]).run fs = (result, changed)) : DirsMade p fs result changed := by
  obtain run | ⟨_, ⟨raised, above, run⟩ | ⟨fault, above, _⟩⟩ := ensureDirs_cons run
  · exact dirsMade_ensureDir run
  · cases above
    exact dirsMade_ensureDir run
  · cases above

theorem dirsMade_ensureDirs {p q : Path} {fs changed : FileSystem} {result : Except Fault Unit}
    (reached : Reached fs p) {fuel : Nat} (found : p.parent? = some q)
    (run : (ensureDirs (p :: selfAndParents fuel q)).run fs = (result, changed)) :
    DirsMade p fs result changed := by
  induction fuel generalizing p q changed result with
  | zero => exact dirsMade_single run
  | succ fuel ih =>
    rw [selfAndParents] at run
    cases higher : q.parent? with
    | none =>
      rw [higher] at run
      exact dirsMade_single run
    | some parent =>
      rw [higher] at run
      obtain ⟨⟨extra, whole⟩, absolute⟩ := segments_parent? found
      have above : Reached fs q := reached.of_prefix ⟨extra, whole⟩ absolute
      obtain run | ⟨failed, ⟨raised, made, run⟩ | ⟨fault, made, rfl⟩⟩ := ensureDirs_cons run
      · exact dirsMade_ensureDir run
      · exact (ih above higher made).next reached found failed run
      · cases ih above higher made with
        | unchanged => exact .unchanged fun failed => nomatch failed
        | @chain part rest mid dir name split opened ends =>
          have begins : startFrom q fs.cwd = startFrom p fs.cwd := by
            rw [startFrom, startFrom, absolute]
          rw [begins] at opened
          rw [split, List.append_assoc] at whole
          exact .chain whole.symm opened fun failed => nomatch failed

theorem DirsMade.extends {p : Path} {fs changed : FileSystem} {result : Except Fault Unit}
    (made : DirsMade p fs result changed) : Extends fs changed := by
  cases made with
  | unchanged => exact .refl fs
  | chain _ opened => exact opened.made.toExtends

/-- The directories that are made for a part of a path are above the place that its last name has,
or at it. -/
theorem DirsMade.raised {p q : Path} {fs changed : FileSystem} {result : Except Fault Unit}
    (made : DirsMade q fs result changed) (reached : Reached fs p)
    (part : q.segments <+: p.segments) (absolute : q.isAbsolute = p.isAbsolute)
    {front : List Segment} {name : Name} (ends : p.segments = front ++ [.name name]) {dir : Loc}
    (way : Passes fs (startFrom p fs.cwd, front) (dir, [])) :
    Raised fs changed (dir ++ [name]) := by
  cases made with
  | unchanged => exact .refl fs _
  | @chain first rest mid above new split opened _ =>
    obtain ⟨more, whole⟩ := part
    have begins : startFrom q fs.cwd = startFrom p fs.cwd := by rw [startFrom, startFrom, absolute]
    rw [begins] at opened
    rw [split, List.append_assoc] at whole
    obtain ended | ⟨init, last, ended⟩ := List.eq_nil_or_concat (rest ++ more)
    · -- All of the path was made: the last directory is at the place.
      rw [ended, List.append_nil, ends] at whole
      rw [whole] at opened
      obtain ⟨rfl, rfl⟩ := opened.eq_of_way way
      exact opened.made
    · rw [ended, List.concat_eq_append, ends, ← List.append_assoc] at whole
      obtain ⟨rfl, same⟩ := List.append_inj' whole rfl
      cases same
      have noUp : .up ∉ init := by
        have split : p.segments = first ++ [] ++ (init ++ [.name name]) := by
          rw [List.append_nil, ends, List.append_assoc]
        intro up
        exact opened.up_not_mem reached rfl (by simp) split (List.mem_append_left _ up)
      have passes := (opened.leads.passes fun _ target linked => by
        rw [Spot.loc, opened.leads.vacancy.2] at linked
        cases linked).congr opened.raised.sameLinks.symm
      have onward := way.onward (passes.append init)
      have within := onward.down opened.fresh List.prefix_rfl noUp
      exact opened.made.mono (within.trans (List.prefix_append _ _))

theorem dirsMade_selfAndParents {p : Path} {fs changed : FileSystem} {result : Except Fault Unit}
    (reached : Reached fs p) {fuel : Nat}
    (run : (ensureDirs (selfAndParents (fuel + 1) p)).run fs = (result, changed)) :
    DirsMade p fs result changed := by
  rw [selfAndParents] at run
  cases found : p.parent? with
  | none =>
    rw [found] at run
    cases run
    exact .unchanged fun _ => .inr (segments_of_parent?_eq_none found)
  | some q =>
    rw [found] at run
    exact dirsMade_ensureDirs reached found run

/-- What comes of making a directory with all that is missing above it, when each `..` of its path
is reached. -/
theorem dirsMade_createDirs {p : Path} {fs changed : FileSystem} {result : Except Fault Unit}
    (reached : Reached fs p) (run : (createDirs p).run fs = (result, changed)) :
    DirsMade p fs result changed :=
  dirsMade_selfAndParents reached run

end Disk

end KernelSpec
