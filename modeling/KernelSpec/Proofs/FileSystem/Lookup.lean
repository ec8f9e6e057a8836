import KernelSpec.Proofs.FileSystem.Write

/-! # Lookups put together

The segments of a path can be followed in two parts (`Follows.append`, `Follows.split`), lead to one
spot only (`Follows.unique`), and lead to the same object when more objects are made
(`Follows.extend`). A spot that is free is where an object is once it is put there
(`Follows.put_vacant`). Two file systems that differ only off the way of a path have the same object
under it (`Follows.within`).
-/

namespace KernelSpec.FileSystem

open KernelSpec.Path

section Parts

variable {fs : FileSystem} {last : LastLink} {links : Nat} {loc : Loc} {spot : Spot}

theorem Follows.isDir {segments : List Segment} (follows : Follows fs last links loc segments spot)
    (more : segments ≠ []) : fs.kind? loc = some .dir := by
  cases follows with
  | done => exact absurd rfl more
  | here isDir | up isDir | vacant isDir | name isDir | kept isDir | link isDir => exact isDir

/-- More links may be followed than are. -/
theorem Follows.weaken {segments : List Segment} (follows : Follows fs last links loc segments spot)
    {more : Nat} (le : links ≤ more) : Follows fs last more loc segments spot := by
  induction follows generalizing more with
  | done => exact .done _
  | here isDir _ ih => exact .here isDir (ih le)
  | up isDir _ ih => exact .up isDir (ih le)
  | vacant isDir short missing => exact .vacant isDir short missing
  | name isDir short found noLink _ ih => exact .name isDir short found noLink (ih le)
  | kept isDir short found keeps => exact .kept isDir short found keeps
  | link isDir short found goesOn written _ ih =>
    cases more with
    | zero => exact absurd le (Nat.not_succ_le_zero _)
    | succ more => exact .link isDir short found goesOn written (ih (Nat.succ_le_succ_iff.mp le))

/-- Segments lead to one spot, however many links may be followed. -/
theorem Follows.unique {other : Nat} {segments : List Segment} {spot' : Spot}
    (follows : Follows fs last links loc segments spot)
    (follows' : Follows fs last other loc segments spot') : spot = spot' := by
  have first := (follows.weaken (Nat.le_max_left links other)).resolveFrom_eq
  have second := (follows'.weaken (Nat.le_max_right links other)).resolveFrom_eq
  exact Except.ok.inj (first.symm.trans second)

/-- What is named by other rules for the last link is found when that link is followed, unless it is
the link itself. -/
theorem Follows.followed {segments : List Segment}
    (follows : Follows fs last links loc segments spot)
    (through : last = .kept → ∀ target, fs.kind? spot.loc ≠ some (.link target)) :
    Follows fs .followed links loc segments spot := by
  induction follows with
  | done => exact .done _
  | here isDir _ ih => exact .here isDir (ih through)
  | up isDir _ ih => exact .up isDir (ih through)
  | vacant isDir short missing => exact .vacant isDir short missing
  | name isDir short found noLink _ ih => exact .name isDir short found noLink (ih through)
  | kept _ _ found keeps => exact absurd found (through keeps _)
  | link isDir short found _ _ _ ih => exact .link isDir short found nofun nofun (ih through)

theorem Follows.append {first second : List Segment} {mid : Loc} {others : Nat}
    (front : Follows fs .followed links loc first (.occupied mid))
    (back : Follows fs last others mid second spot) (more : second ≠ []) :
    Follows fs last (links + others) loc (first ++ second) spot := by
  generalize reached : Spot.occupied mid = middle at front
  induction front with
  | done =>
    cases reached
    exact back.weaken (Nat.le_add_left _ _)
  | here isDir _ ih => exact .here isDir (ih reached)
  | up isDir _ ih => exact .up isDir (ih reached)
  | vacant => cases reached
  | name isDir short found noLink _ ih => exact .name isDir short found noLink (ih reached)
  | kept _ _ _ keeps => cases keeps
  | @link links _ _ _ rest _ isDir short found _ _ _ ih =>
    have goesOn : rest ++ second ≠ [] := List.append_ne_nil_of_right_ne_nil _ more
    rw [Nat.succ_add, List.cons_append]
    refine .link isDir short found (fun _ => goesOn) (fun _ ends => absurd ends goesOn) ?_
    rw [← List.append_assoc]
    exact ih reached

/-- The second part of a way may take no links, and then the first may take them all. -/
theorem Follows.append_free {first second : List Segment} {mid : Loc}
    (front : Follows fs .followed links loc first (.occupied mid))
    (back : Follows fs last 0 mid second spot) (more : second ≠ []) :
    Follows fs last links loc (first ++ second) spot :=
  front.append back more

theorem Follows.split {fs : FileSystem} {last : LastLink} {links : Nat} {loc : Loc} {spot : Spot}
    {first second : List Segment} (follows : Follows fs last links loc (first ++ second) spot)
    (more : second ≠ []) :
    ∃ mid fewer, fewer ≤ links ∧ Follows fs .followed links loc first (.occupied mid) ∧
      Follows fs last fewer mid second spot := by
  match first with
  | [] => exact ⟨loc, links, le_rfl, .done loc, follows⟩
  | segment :: first =>
    rw [List.cons_append] at follows
    generalize whole : first ++ second = rest at follows
    cases follows with
    | here isDir tail =>
      subst whole
      obtain ⟨mid, fewer, le, front, back⟩ := tail.split more
      exact ⟨mid, fewer, le, .here isDir front, back⟩
    | up isDir tail =>
      subst whole
      obtain ⟨mid, fewer, le, front, back⟩ := tail.split more
      exact ⟨mid, fewer, le, .up isDir front, back⟩
    | name isDir short found noLink tail =>
      subst whole
      obtain ⟨mid, fewer, le, front, back⟩ := tail.split more
      exact ⟨mid, fewer, le, .name isDir short found noLink front, back⟩
    | link isDir short found _ _ tail =>
      subst whole
      rw [← List.append_assoc] at tail
      obtain ⟨mid, fewer, le, front, back⟩ := tail.split more
      exact ⟨mid, fewer, le.trans (Nat.le_succ _), .link isDir short found nofun nofun front, back⟩
    | vacant | kept => exact absurd (List.append_eq_nil_iff.mp whole).2 more
termination_by (links, first.length)

/-- Where the second part of a way fails, the whole way fails. -/
theorem Follows.resolveFrom_append {first second : List Segment} {mid : Loc} {errno : Errno}
    (front : Follows fs .followed links loc first (.occupied mid))
    (fails : ∀ fewer, resolveFrom fs fewer last mid second = .error errno) (more : second ≠ []) :
    resolveFrom fs links last loc (first ++ second) = .error errno := by
  generalize reached : Spot.occupied mid = middle at front
  induction front with
  | done =>
    cases reached
    exact fails _
  | here isDir _ ih => exact (resolveFrom_here isDir).trans (ih reached)
  | up isDir _ ih => exact (resolveFrom_up isDir).trans (ih reached)
  | vacant => cases reached
  | @name _ _ _ _ _ entry isDir short found noLink _ ih =>
    rw [List.cons_append, resolveFrom_name isDir short, found]
    cases entry with
    | link target => exact absurd rfl (noLink target)
    | dir | file => exact ih reached
  | kept _ _ _ keeps => cases keeps
  | @link _ _ _ _ rest _ isDir short found _ _ _ ih =>
    have goesOn : (rest ++ second).isEmpty = false :=
      List.isEmpty_eq_false_iff.mpr (List.append_ne_nil_of_right_ne_nil _ more)
    rw [List.cons_append, resolveFrom_name isDir short, found]
    simp only [goesOn, Bool.false_and, Bool.false_eq_true, if_false, followLink, Bool.and_false]
    rw [← List.append_assoc]
    exact ih reached

/-- Names that are followed are not too long. -/
theorem Follows.short {segments : List Segment}
    (follows : Follows fs last links loc segments spot) {name : Name}
    (mem : .name name ∈ segments) : name.length ≤ maxName := by
  induction follows with
  | done => cases mem
  | here _ _ ih | up _ _ ih => exact ih ((List.mem_cons.mp mem).resolve_left Segment.noConfusion)
  | vacant _ short | kept _ short =>
    cases List.mem_singleton.mp mem
    exact short
  | name _ short _ _ _ ih =>
    obtain same | mem := List.mem_cons.mp mem
    · cases same
      exact short
    · exact ih mem
  | link _ short _ _ _ _ ih =>
    obtain same | mem := List.mem_cons.mp mem
    · cases same
      exact short
    · exact ih (List.mem_append_right _ mem)

/-- A `.` at the end asks for a directory. -/
theorem follows_concat_here_iff {segments : List Segment} {place : Loc} :
    Follows fs last links loc (segments ++ [.here]) (.occupied place) ↔
      Follows fs .followed links loc segments (.occupied place) ∧ fs.kind? place = some .dir := by
  constructor
  · intro follows
    obtain ⟨mid, fewer, _, front, back⟩ := follows.split (by simp)
    cases back with
    | here isDir done =>
      cases done
      exact ⟨front, isDir⟩
  · rintro ⟨front, isDir⟩
    exact front.append_free (.here isDir (.done place)) (by simp)

/-- Where nothing is a link, names lead straight down. -/
theorem Follows.names {names : List Name}
    (follows : Follows fs last links loc (names.map .name) spot)
    (plain : ∀ below target, fs.kind? (loc ++ below) ≠ some (.link target)) :
    spot.loc = loc ++ names := by
  induction names generalizing loc with
  | nil =>
    cases follows
    exact (List.append_nil loc).symm
  | cons name names ih =>
    rw [List.map_cons] at follows
    generalize ended : names.map Segment.name = rest at follows
    cases follows with
    | vacant =>
      obtain rfl := List.map_eq_nil_iff.mp ended
      rfl
    | name _ _ _ _ tail =>
      subst ended
      rw [ih tail fun below target => by rw [List.append_assoc]; exact plain _ _,
        List.append_assoc]
      rfl
    | kept _ _ found => exact absurd found (plain _ _)
    | link _ _ found => exact absurd found (plain _ _)

/-- What is above a directory is a directory. -/
theorem kind?_above {above : Loc} (isDir : fs.kind? loc = some .dir) (le : above <+: loc) :
    fs.kind? above = some .dir := by
  obtain ⟨more, rfl⟩ := le
  cases more with
  | nil => rwa [List.append_nil] at isDir
  | cons name more =>
    obtain ⟨entries, found⟩ := kind?_eq_dir_iff.mp isDir
    exact kind?_eq_dir_iff.mpr (Node.isDir_of_get?_append found)

theorem kind?_startFrom (isDir : fs.kind? loc = some .dir) (target : Path) :
    fs.kind? (startFrom target loc) = some .dir := by
  unfold startFrom
  split
  · exact kind?_above isDir List.nil_prefix
  · exact isDir

/-- Names lead down to an object that is no link. -/
theorem follows_names {names : List Name} {entry : Entry}
    (there : fs.kind? (loc ++ names) = some entry) (noLink : ∀ target, entry ≠ .link target)
    (short : ∀ name ∈ names, name.length ≤ maxName) :
    Follows fs .followed links loc (names.map .name) (.occupied (loc ++ names)) := by
  induction names using List.reverseRecOn generalizing entry with
  | nil =>
    rw [List.append_nil]
    exact .done loc
  | append_singleton front name ih =>
    obtain ⟨earlier, brief⟩ := List.forall_mem_append.mp short
    rw [← List.append_assoc] at there ⊢
    have isDir : fs.kind? (loc ++ front) = some .dir := by
      obtain ⟨_, found, _⟩ := Option.map_eq_some_iff.mp there
      exact kind?_eq_dir_iff.mpr (isDir_of_get?_concat found)
    rw [List.map_append]
    refine (ih isDir (fun _ => Entry.noConfusion) earlier).append_free ?_ (by simp)
    exact .name isDir (brief name (List.mem_singleton_self name)) there noLink (.done _)

/-- Names lead straight down where there are directories. -/
theorem Follows.of_names {names : List Name} {rest : List Segment}
    (follows : Follows fs last links loc (names.map .name ++ rest) spot)
    (isDir : fs.kind? (loc ++ names) = some .dir) (more : rest ≠ []) :
    Follows fs last links (loc ++ names) rest spot := by
  induction names generalizing loc with
  | nil => rwa [List.append_nil]
  | cons name names ih =>
    have here : fs.kind? (loc ++ [name]) = some .dir :=
      kind?_above isDir ⟨names, by simp⟩
    rw [List.append_cons] at isDir ⊢
    rw [List.map_cons, List.cons_append] at follows
    generalize ended : names.map Segment.name ++ rest = segments at follows
    cases follows with
    | vacant => exact absurd (List.append_eq_nil_iff.mp ended).2 more
    | name _ _ _ _ tail =>
      subst ended
      exact ih tail isDir
    | kept _ _ found | link _ _ found =>
      rw [here] at found
      cases found

/-- What segments lead to has a place under the last of them, where it is or a link to it. -/
theorem Follows.keep {place : Loc} {segments : List Segment}
    (follows : Follows fs .followed links loc segments (.occupied place)) :
    ∃ held, Follows fs .kept links loc segments (.occupied held) := by
  generalize reached : Spot.occupied place = spot at follows
  induction follows with
  | done => exact ⟨_, .done _⟩
  | here isDir _ ih =>
    obtain ⟨held, follows⟩ := ih reached
    exact ⟨held, .here isDir follows⟩
  | up isDir _ ih =>
    obtain ⟨held, follows⟩ := ih reached
    exact ⟨held, .up isDir follows⟩
  | vacant => cases reached
  | name isDir short found noLink _ ih =>
    obtain ⟨held, follows⟩ := ih reached
    exact ⟨held, .name isDir short found noLink follows⟩
  | kept _ _ _ keeps => cases keeps
  | @link _ _ _ _ rest _ isDir short found _ _ _ ih =>
    cases rest with
    | nil => exact ⟨_, .kept isDir short found rfl⟩
    | cons =>
      obtain ⟨held, follows⟩ := ih reached
      exact ⟨held, .link isDir short found (fun _ => List.cons_ne_nil _ _)
        LastLink.noConfusion follows⟩

/-- From a directory, segments lead to what is there and is no link. -/
theorem Follows.there {place : Loc} {segments : List Segment}
    (follows : Follows fs .followed links loc segments (.occupied place))
    (isDir : fs.kind? loc = some .dir) :
    ∃ entry, fs.kind? place = some entry ∧ ∀ target, entry ≠ .link target := by
  generalize reached : Spot.occupied place = spot at follows
  induction follows with
  | done =>
    cases reached
    exact ⟨_, isDir, fun _ => Entry.noConfusion⟩
  | here _ _ ih => exact ih isDir reached
  | up _ _ ih => exact ih (kind?_above isDir (List.dropLast_prefix _)) reached
  | vacant => cases reached
  | @name _ loc name rest _ entry _ _ found noLink tail ih =>
    cases rest with
    | nil =>
      cases tail
      cases reached
      exact ⟨entry, found, noLink⟩
    | cons => exact ih (tail.isDir (List.cons_ne_nil _ _)) reached
  | kept _ _ _ keeps => cases keeps
  | link _ _ _ _ _ _ ih => exact ih (kind?_startFrom isDir _) reached

/-- The last name of a path is looked up in the directory that the segments before it lead to. -/
theorem Follows.above {front : List Segment} {name : Name}
    (follows : Follows fs last links loc (front ++ [.name name]) spot) :
    ∃ dir, Follows fs .followed links loc front (.occupied dir) ∧ fs.kind? dir = some .dir ∧
      name.length ≤ maxName ∧ ∃ fewer, Follows fs last fewer dir [.name name] spot := by
  obtain ⟨dir, fewer, _, first, second⟩ := follows.split (by simp)
  refine ⟨dir, first, second.isDir (by simp), ?_, fewer, second⟩
  cases second with
  | vacant _ short | name _ short | kept _ short | link _ short => exact short

/-- A link that the last name of a path names is where it is, and not what it leads to. -/
theorem Follows.above_kept {front : List Segment} {name : Name}
    (follows : Follows fs .kept links loc (front ++ [.name name]) spot) :
    ∃ dir, Follows fs .followed links loc front (.occupied dir) ∧ fs.kind? dir = some .dir ∧
      (spot = .vacant dir name ∧ fs.kind? (dir ++ [name]) = none ∨
        spot = .occupied (dir ++ [name]) ∧ fs.kind? (dir ++ [name]) ≠ none) := by
  obtain ⟨dir, first, isDir, _, _, last⟩ := follows.above
  refine ⟨dir, first, isDir, ?_⟩
  cases last with
  | vacant _ _ missing => exact .inl ⟨rfl, missing⟩
  | name _ _ found _ tail =>
    cases tail
    exact .inr ⟨rfl, by rw [found]; exact Option.some_ne_none _⟩
  | kept _ _ found => exact .inr ⟨rfl, by rw [found]; exact Option.some_ne_none _⟩
  | link _ _ _ goesOn => exact absurd rfl (goesOn rfl)

end Parts

/-! ## File systems with more in them -/

/-- Everything that is there stays what it is. -/
structure Extends (fs other : FileSystem) : Prop where
  cwd : other.cwd = fs.cwd
  kept : ∀ loc entry, fs.kind? loc = some entry → other.kind? loc = some entry

theorem Extends.refl (fs : FileSystem) : Extends fs fs := ⟨rfl, fun _ _ found => found⟩

theorem Extends.trans {fs mid other : FileSystem} (first : Extends fs mid)
    (second : Extends mid other) : Extends fs other :=
  ⟨second.cwd.trans first.cwd, fun loc entry found => second.kept loc entry
    (first.kept loc entry found)⟩

theorem Extends.wellNamed {fs other : FileSystem} (larger : Extends fs other)
    (named : other.WellNamed) : fs.WellNamed := by
  intro loc found
  obtain ⟨entry, here⟩ := Option.ne_none_iff_exists'.mp found
  refine named loc ?_
  rw [larger.kept loc entry here]
  exact Option.some_ne_none _

theorem Follows.extend {fs other : FileSystem} (larger : Extends fs other) {last : LastLink}
    {links : Nat} {loc place : Loc} {segments : List Segment}
    (follows : Follows fs last links loc segments (.occupied place)) :
    Follows other last links loc segments (.occupied place) := by
  generalize reached : Spot.occupied place = spot at follows
  induction follows with
  | done => exact .done _
  | here isDir _ ih => exact .here (larger.kept _ _ isDir) (ih reached)
  | up isDir _ ih => exact .up (larger.kept _ _ isDir) (ih reached)
  | vacant => cases reached
  | name isDir short found noLink _ ih =>
    exact .name (larger.kept _ _ isDir) short (larger.kept _ _ found) noLink (ih reached)
  | kept isDir short found keeps =>
    exact .kept (larger.kept _ _ isDir) short (larger.kept _ _ found) keeps
  | link isDir short found goesOn written _ ih =>
    exact .link (larger.kept _ _ isDir) short (larger.kept _ _ found) goesOn written (ih reached)

/-- Only what the objects are matters. -/
theorem Follows.congr {fs other : FileSystem} (same : ∀ loc, other.kind? loc = fs.kind? loc)
    {last : LastLink} {links : Nat} {loc : Loc} {segments : List Segment} {spot : Spot}
    (follows : Follows fs last links loc segments spot) :
    Follows other last links loc segments spot := by
  induction follows with
  | done => exact .done _
  | here isDir _ ih => exact .here ((same _).trans isDir) ih
  | up isDir _ ih => exact .up ((same _).trans isDir) ih
  | vacant isDir short missing =>
    exact .vacant ((same _).trans isDir) short ((same _).trans missing)
  | name isDir short found noLink _ ih =>
    exact .name ((same _).trans isDir) short ((same _).trans found) noLink ih
  | kept isDir short found keeps =>
    exact .kept ((same _).trans isDir) short ((same _).trans found) keeps
  | link isDir short found goesOn written _ ih =>
    exact .link ((same _).trans isDir) short ((same _).trans found) goesOn written ih

/-- A path leads where it leads in another file system that is the same on its way. -/
theorem Follows.within {fs other : FileSystem} {stays : Loc → Prop}
    (same : ∀ loc, stays loc → other.kind? loc = fs.kind? loc)
    (links : ∀ loc target, other.kind? loc = some (.link target) → stays loc)
    {last : LastLink} {budget : Nat} {loc : Loc} {segments : List Segment} {spot : Spot}
    (follows : Follows fs last budget loc segments spot)
    (way : ∀ stop rest, Passes other (loc, segments) (stop, rest) → stays stop) :
    Follows other last budget loc segments spot := by
  -- What a name leads to is on the way, unless it is a link.
  have next : ∀ {loc name rest}, (∀ stop left, Passes other (loc, .name name :: rest) (stop, left) →
      stays stop) → other.kind? (loc ++ [name]) = fs.kind? (loc ++ [name]) := by
    intro loc name rest way
    refine same _ ?_
    by_cases linked : ∃ target, other.kind? (loc ++ [name]) = some (.link target)
    · obtain ⟨target, found⟩ := linked
      exact links _ target found
    · exact way _ rest (.single (.name (not_exists.mp linked)))
  induction follows with
  | done => exact .done _
  | here isDir _ ih =>
    exact .here ((same _ (way _ _ .refl)).trans isDir)
      (ih fun stop rest passes => way stop rest (.head (.here _ _) passes))
  | up isDir _ ih =>
    exact .up ((same _ (way _ _ .refl)).trans isDir)
      (ih fun stop rest passes => way stop rest (.head (.up _ _) passes))
  | vacant isDir short missing =>
    exact .vacant ((same _ (way _ _ .refl)).trans isDir) short ((next way).trans missing)
  | name isDir short found noLink _ ih =>
    have found := (next way).trans found
    refine .name ((same _ (way _ _ .refl)).trans isDir) short found noLink
      (ih fun stop rest passes => way stop rest (.head (.name fun target linked => ?_) passes))
    rw [found] at linked
    exact noLink target (Option.some.inj linked)
  | kept isDir short found keeps =>
    exact .kept ((same _ (way _ _ .refl)).trans isDir) short ((next way).trans found) keeps
  | link isDir short found goesOn written _ ih =>
    have found := (next way).trans found
    exact .link ((same _ (way _ _ .refl)).trans isDir) short found goesOn written
      (ih fun stop rest passes => way stop rest (.head (.link found) passes))

/-- The way of a path that leads somewhere stays among directories, and goes on from there. -/
theorem Follows.way_append {fs : FileSystem} {stays : Loc → Prop}
    (dirs : ∀ loc, fs.kind? loc = some .dir → stays loc) {links : Nat} {loc mid : Loc}
    {first second : List Segment} (follows : Follows fs .followed links loc first (.occupied mid))
    (beyond : ∀ stop rest, Passes fs (mid, second) (stop, rest) → stays stop) {stop : Loc}
    {rest : List Segment} (passes : Passes fs (loc, first ++ second) (stop, rest)) :
    stays stop := by
  generalize reached : Spot.occupied mid = spot at follows
  induction follows with
  | done =>
    cases reached
    exact beyond stop rest passes
  | vacant => cases reached
  | kept _ _ _ keeps => cases keeps
  | here isDir _ ih | up isDir _ ih =>
    obtain same | ⟨_, step, passes⟩ := passes.cases_head
    · cases same
      exact dirs _ isDir
    · cases step
      exact ih passes reached
  | name isDir _ found noLink _ ih =>
    obtain same | ⟨_, step, passes⟩ := passes.cases_head
    · cases same
      exact dirs _ isDir
    · cases step with
      | name => exact ih passes reached
      | link linked =>
        rw [found] at linked
        exact absurd (Option.some.inj linked) (noLink _)
  | link isDir _ found _ _ _ ih =>
    obtain same | ⟨_, step, passes⟩ := passes.cases_head
    · cases same
      exact dirs _ isDir
    · cases step with
      | name noLink => exact absurd found (noLink _)
      | link linked =>
        rw [found] at linked
        cases linked
        refine ih ?_ reached
        rw [List.append_assoc]
        exact passes

section Vacant

variable {fs : FileSystem} {dir : Loc} {name : Name}

/-- Nothing is at or below a place where nothing is. -/
theorem kind?_of_missing {place loc : Loc} (missing : fs.kind? place = none)
    (below : place <+: loc) : fs.kind? loc = none := by
  obtain ⟨more, rfl⟩ := below
  rw [kind?, Option.map_eq_none_iff] at missing ⊢
  rw [get?, Node.get?_append]
  rw [get?] at missing
  rw [missing]
  rfl

theorem not_prefix_of_missing {place loc : Loc} {entry : Entry} (missing : fs.kind? place = none)
    (found : fs.kind? loc = some entry) : ¬ place <+: loc := by
  intro below
  rw [kind?_of_missing missing below] at found
  cases found

/-- Without `..`, nothing leads away from a place where nothing is. -/
theorem Passes.down {place loc stop : Loc} {segments rest : List Segment}
    (passes : Passes fs (loc, segments) (stop, rest)) (missing : fs.kind? place = none)
    (below : place <+: loc) (noUp : .up ∉ segments) : place <+: stop := by
  induction segments generalizing loc with
  | nil =>
    obtain same | ⟨_, step, _⟩ := passes.cases_head
    · cases same
      exact below
    · cases step
  | cons segment segments ih =>
    obtain ⟨notUp, later⟩ := not_or.mp (mt List.mem_cons.mpr noUp)
    obtain same | ⟨_, step, onward⟩ := passes.cases_head
    · cases same
      exact below
    · cases step with
      | here => exact ih onward below later
      | up => exact absurd rfl notUp
      | name => exact ih onward (below.trans (List.prefix_append _ _)) later
      | link found =>
        rw [kind?_of_missing missing (below.trans (List.prefix_append _ _))] at found
        cases found

theorem extends_put {place : Loc} (missing : fs.kind? place = none) (new : Node) :
    Extends fs (fs.put place new) := by
  refine ⟨rfl, fun loc entry found => ?_⟩
  rw [FileSystem.kind?_put fs new (not_prefix_of_missing missing found), found]

/-- What is put at a free spot is where the segments then lead. -/
theorem Follows.put_vacant {last : LastLink} {links : Nat} {loc : Loc} {segments : List Segment}
    (follows : Follows fs last links loc segments (.vacant dir name)) {new : Node}
    (noLink : ∀ target, new.entry ≠ .link target) :
    Follows (fs.put (dir ++ [name]) new) last links loc segments (.occupied (dir ++ [name])) := by
  obtain ⟨isDir, missing⟩ := follows.vacancy
  have larger := extends_put missing new
  have here : (fs.put (dir ++ [name]) new).kind? (dir ++ [name]) = some new.entry := by
    obtain ⟨entries, parent⟩ := kind?_eq_dir_iff.mp isDir
    have put : (fs.put (dir ++ [name]) new).get? (dir ++ [name] ++ []) = new.get? [] :=
      get?_put_append fs new parent []
    rw [List.append_nil] at put
    rw [kind?, put]
    rfl
  generalize reached : Spot.vacant dir name = spot at follows
  induction follows with
  | done | kept => cases reached
  | here isDir _ ih => exact .here (larger.kept _ _ isDir) (ih reached)
  | up isDir _ ih => exact .up (larger.kept _ _ isDir) (ih reached)
  | vacant isDir short =>
    cases reached
    exact .name (larger.kept _ _ isDir) short here noLink (.done _)
  | name isDir short found noLink _ ih =>
    exact .name (larger.kept _ _ isDir) short (larger.kept _ _ found) noLink (ih reached)
  | link isDir short found goesOn written _ ih =>
    exact .link (larger.kept _ _ isDir) short (larger.kept _ _ found) goesOn written (ih reached)

end Vacant

/-! ## What paths name -/

section Paths

variable {fs : FileSystem} {p : Path} {loc : Loc}

theorem checkPath_eq_ok_iff :
    checkPath p = .ok () ↔ 0 ∉ p.bytes ∧ p.bytes ≠ [] ∧ p.bytes.length ≤ maxPath := by
  unfold checkPath
  split
  · next nul => simp [List.contains_iff_mem.mp nul]
  · next noNul =>
    have noNul : 0 ∉ p.bytes := mt List.contains_iff_mem.mpr noNul
    split
    · next empty => simp [List.isEmpty_iff.mp empty]
    · next nonempty =>
      have nonempty : p.bytes ≠ [] := mt List.isEmpty_iff.mpr nonempty
      split
      · next long => simp [Nat.not_le.mpr long]
      · next fits => simp [noNul, nonempty, Nat.not_lt.mp fits]

/-- A first part of a valid path is valid. -/
theorem checkPath_of_part {q : Path} (valid : checkPath p = .ok ())
    (part : q.bytes <+: p.bytes) (nonempty : q.bytes ≠ []) : checkPath q = .ok () := by
  obtain ⟨noNul, _, fits⟩ := checkPath_eq_ok_iff.mp valid
  have shorter := part.length_le
  exact checkPath_eq_ok_iff.mpr ⟨fun nul => noNul (part.subset nul), nonempty, by omega⟩

theorem checkPath_of_join {q : Path} (valid : checkPath (p.join q) = .ok ())
    (noSlash : slash ∉ q.bytes) (nonempty : p.bytes ≠ []) : checkPath p = .ok () := by
  obtain ⟨between, bytes, _⟩ := join_bytes noSlash p
  refine checkPath_of_part valid ?_ nonempty
  rw [bytes, List.append_assoc]
  exact List.prefix_append _ _

theorem locate_eq_ok_iff :
    fs.locate p = .ok loc ↔ checkPath p = .ok () ∧
      Follows fs .followed maxLinks (startFrom p fs.cwd) (lookupSegments p) (.occupied loc) := by
  rw [← resolveSegments_eq_ok_iff, locate, bind_eq_ok_iff]
  constructor
  · rintro ⟨spot, led, found⟩
    cases spot with
    | occupied place =>
      cases found
      exact led
    | vacant => cases found
  · exact fun led => ⟨_, led, rfl⟩

/-- An object is found without the slash at the end of its path, if there is one. -/
theorem follows_of_locate (located : fs.locate p = .ok loc) :
    Follows fs .followed maxLinks (startFrom p fs.cwd) p.segments (.occupied loc) := by
  have follows := (locate_eq_ok_iff.mp located).2
  unfold lookupSegments at follows
  split at follows
  · exact (follows_concat_here_iff.mp follows).1
  · rwa [List.append_nil] at follows

/-- A path that leads to an object has a place for it. -/
theorem lookupPlace_of_locate (located : fs.locate p = .ok loc) :
    ∃ held, fs.lookupPlace p = .ok (.occupied held) := by
  obtain ⟨held, follows⟩ := (follows_of_locate located).keep
  exact ⟨held, resolveSegments_eq_ok_iff.mpr ⟨(locate_eq_ok_iff.mp located).1, follows⟩⟩

theorem any_isDir_iff : (fs.get? loc).any Node.isDir = true ↔ fs.kind? loc = some .dir := by
  rw [kind?]
  cases fs.get? loc with
  | none => simp
  | some node => cases node <;> simp [Node.isDir, Node.entry]

theorem isDir_iff :
    fs.isDir p = true ↔ ∃ loc, fs.locate p = .ok loc ∧ fs.kind? loc = some .dir := by
  unfold isDir stat?
  cases fs.locate p with
  | error => simp
  | ok loc => simp only [Except.ok.injEq, exists_eq_left', any_isDir_iff]

theorem pathExists_iff :
    fs.pathExists p = true ↔ ∃ loc, fs.locate p = .ok loc ∧ fs.kind? loc ≠ none := by
  unfold pathExists stat?
  cases fs.locate p with
  | error => simp
  | ok loc => simp [kind?, Option.isSome_iff_ne_none]

theorem pathExists_of_isDir (isDir : fs.isDir p = true) : fs.pathExists p = true := by
  obtain ⟨loc, located, found⟩ := isDir_iff.mp isDir
  refine pathExists_iff.mpr ⟨loc, located, ?_⟩
  rw [found]
  exact Option.some_ne_none _

theorem locate_extend {other : FileSystem} (larger : Extends fs other)
    (located : fs.locate p = .ok loc) : other.locate p = .ok loc := by
  obtain ⟨valid, follows⟩ := locate_eq_ok_iff.mp located
  refine locate_eq_ok_iff.mpr ⟨valid, ?_⟩
  rw [larger.cwd]
  exact follows.extend larger

/-- A directory has a place under the last name of its path, where it is or a link to it. -/
theorem lookupPlace_of_isDir {front : List Segment} {name : Name} (isDir : fs.isDir p = true)
    (ends : p.segments = front ++ [.name name]) :
    ∃ place, fs.lookupPlace p = .ok (.occupied place) ∧ fs.kind? place ≠ none := by
  obtain ⟨loc, located, _⟩ := isDir_iff.mp isDir
  have valid := (locate_eq_ok_iff.mp located).1
  have follows := follows_of_locate located
  rw [ends] at follows
  obtain ⟨dir, first, isDir, short, _, last⟩ := follows.above
  refine ⟨dir ++ [name], ?_⟩
  rw [lookupPlace, resolveSegments_eq_ok_iff, ends]
  cases last with
  | name _ _ found noLink =>
    refine ⟨⟨valid, first.append_free (.name isDir short found noLink (.done _)) (by simp)⟩, ?_⟩
    rw [found]
    exact Option.some_ne_none _
  | link _ _ found =>
    refine ⟨⟨valid, first.append_free (.kept isDir short found rfl) (by simp)⟩, ?_⟩
    rw [found]
    exact Option.some_ne_none _
  | kept _ _ _ keeps => cases keeps

/-- A directory is found with a slash at the end of its path and without. -/
theorem follows_lookupSegments_iff {links : Nat} {start : Loc} (isDir : fs.kind? loc = some .dir) :
    Follows fs .followed links start (lookupSegments p) (.occupied loc) ↔
      Follows fs .followed links start p.segments (.occupied loc) := by
  unfold lookupSegments
  split
  · rw [follows_concat_here_iff, and_iff_left isDir]
  · rw [List.append_nil]

end Paths

/-! ## A name in a directory -/

section Place

variable {fs : FileSystem} {p : Path} {child : Name} (isName : IsName child)

include isName

theorem segments_place : (p.join ⟨child⟩).segments = p.segments ++ [.name child] := by
  rw [segments_join isName.not_mem, isName]

theorem endsInSlash_place : (p.join ⟨child⟩).endsInSlash = false := by
  refine endsInSlash_join isName.not_mem p fun empty => ?_
  have spelled : IsName [] := empty ▸ isName
  cases spelled

theorem startFrom_place (loc : Loc) : startFrom (p.join ⟨child⟩) loc = startFrom p loc := by
  rw [startFrom, isAbsolute_join isName.not_mem]
  rfl

/-- The last name of a path that leads to an object leads there from the directory above. -/
theorem follows_name_of_locate {loc place : Loc} (located : fs.locate p = .ok loc)
    (found : fs.locate (p.join ⟨child⟩) = .ok place) : child.length ≤ maxName ∧
      ∃ links, Follows fs .followed links loc [.name child] (.occupied place) := by
  have follows := follows_of_locate found
  rw [segments_place isName, startFrom_place isName] at follows
  obtain ⟨dir, first, _, short, links, last⟩ := follows.above
  cases first.unique (follows_of_locate located)
  exact ⟨short, links, last⟩

/-- A file that is written to a name in a directory is there, unless a link has this name. -/
theorem writePlace_place {place dir : Loc} (led : fs.writePlace (p.join ⟨child⟩) = .ok place)
    (located : fs.locate p = .ok dir)
    (noLink : ∀ target, fs.kind? (dir ++ [child]) ≠ some (.link target)) :
    place = dir ++ [child] := by
  obtain ⟨spot, found, rfl, _⟩ := writePlace_eq_ok led
  obtain ⟨_, _, follows⟩ := lookupWritten_eq_ok found
  rw [startFrom_place isName, segments_place isName] at follows
  obtain ⟨above, first, _, _, _, last⟩ := follows.above
  obtain rfl : dir = above := Spot.occupied.inj ((follows_of_locate located).unique first)
  cases last with
  | vacant => rfl
  | name _ _ _ _ tail =>
    cases tail
    rfl
  | kept _ _ _ keeps => cases keeps
  | link _ _ found => exact absurd found (noLink _)

end Place

end KernelSpec.FileSystem
