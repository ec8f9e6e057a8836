import KernelSpec.Proofs.FileSystem.Termination

/-! # When a copy succeeds

A tree is copied to a destination that is clear of it exactly when every link of the tree leads
somewhere, none leads to a directory that it is below, and the names and paths of the copy keep the
limits of the system (`copyTree_eq_ok_iff`). A copy that succeeds has come to each object of the tree
and has found the conditions there (`Verifies`); and where they hold, nothing stops the walk.
-/

namespace KernelSpec

namespace FileSystem

open KernelSpec.Path

/-- With fewer links to follow, segments lead to the same spot or through too many links. -/
theorem Follows.resolveFrom_cases {fs : FileSystem} {last : LastLink} {needed : Nat} {loc : Loc}
    {segments : List Segment} {spot : Spot} (follows : Follows fs last needed loc segments spot)
    (links : Nat) :
    resolveFrom fs links last loc segments = .ok spot ∨
      resolveFrom fs links last loc segments = .error .tooManyLinks := by
  induction follows generalizing links with
  | done => exact .inl resolveFrom_nil
  | here isDir _ ih =>
    rw [resolveFrom_here isDir]
    exact ih links
  | up isDir _ ih =>
    rw [resolveFrom_up isDir]
    exact ih links
  | vacant isDir short missing => exact .inl (Follows.vacant isDir short missing).resolveFrom_eq
  | @name _ _ _ _ _ entry isDir short found noLink _ ih =>
    rw [resolveFrom_name isDir short, found]
    cases entry with
    | link target => exact absurd rfl (noLink target)
    | dir | file => exact ih links
  | kept isDir short found keeps =>
    exact .inl (Follows.kept isDir short found keeps).resolveFrom_eq
  | @link _ _ _ target rest _ isDir short found goesOn written tail ih =>
    have passes : ¬ (rest.isEmpty && last == .kept) = true := by
      simp only [Bool.and_eq_true, List.isEmpty_iff, beq_iff_eq, not_and]
      exact fun ends keeps => goesOn keeps ends
    rw [resolveFrom_name isDir short, found]
    simp only [if_neg passes]
    cases links with
    | zero => exact .inr rfl
    | succ fewer =>
      have notRefused : ¬ (last = .written && rest.isEmpty && target.endsInSlash) = true := by
        simp only [Bool.and_eq_true, decide_eq_true_eq, List.isEmpty_iff]
        rintro ⟨⟨writes, ends⟩, slash⟩
        rw [written writes ends] at slash
        cases slash
      rw [FileSystem.followLink, if_neg notRefused]
      exact ih fewer

/-- The names and paths of a copy keep the limits of the system: no name has more than `maxName`
bytes, no path has more than `maxPath` or a NUL byte, and none leads through more than `maxLinks`
links. -/
structure WithinLimits (fs : FileSystem) (source place : Path) (root : Loc) : Prop where
  slash : checkPath (place.join ⟨[]⟩) = .ok ()
  short : ∀ name, .name name ∈ place.segments → name.length ≤ maxName
  paths : ∀ names spot, Reaches fs root names spot →
    checkPath (source.below names) = .ok () ∧ checkPath (place.below names) = .ok ()
  names : ∀ names spot, Reaches fs root names spot → ∀ name ∈ names, name.length ≤ maxName
  links : ∀ names spot, Reaches fs root names spot →
    resolveFrom fs maxLinks .followed (startFrom source fs.cwd)
      (source.segments ++ names.map .name) ≠ .error .tooManyLinks

section Limits

variable {fs : FileSystem} {source place : Path} {root spot : Loc} {names : List Name}

/-- Names that are not too long lead down the tree, through as many links as it takes. -/
theorem Reaches.follows (reaches : Reaches fs root names spot)
    (short : ∀ name ∈ names, name.length ≤ maxName) :
    ∃ links, Follows fs .followed links root (names.map .name) (.occupied spot) := by
  induction reaches with
  | nil loc => exact ⟨0, .done loc⟩
  | @cons dir mid place name names child tail ih =>
    obtain ⟨brief, later⟩ := List.forall_mem_cons.mp short
    have first : ∃ links, Follows fs .followed links dir [.name name] (.occupied mid) := by
      have isDir := child.isDir
      cases child with
      | plain found noLink => exact ⟨0, .name isDir brief found noLink (.done _)⟩
      | @link target links _ found leads =>
        refine ⟨links + 1, .link isDir brief found nofun nofun ?_⟩
        rwa [List.append_nil]
    obtain ⟨links, first⟩ := first
    obtain rfl | nonempty := eq_or_ne names []
    · cases tail
      exact ⟨links, first⟩
    · obtain ⟨more, second⟩ := ih later
      exact ⟨links + more, first.append second (by simpa using nonempty)⟩

/-- Within the limits every object of the tree is found under its names. -/
theorem WithinLimits.located (limits : WithinLimits fs source place root) (named : fs.WellNamed)
    (located : fs.locate source = .ok root) (reaches : Reaches fs root names spot) :
    fs.locate (source.below names) = .ok spot := by
  obtain rfl | nonempty := eq_or_ne names []
  · cases reaches
    exact located
  · have areNames := reaches.areNames named
    obtain ⟨more, second⟩ := reaches.follows (limits.names names spot reaches)
    have whole := (follows_of_locate located).append second (by simpa using nonempty)
    refine locate_eq_ok_iff.mpr ⟨(limits.paths names spot reaches).1, ?_⟩
    rw [lookupSegments_below areNames nonempty, startFrom, isAbsolute_below areNames]
    exact resolveFrom_eq_ok_iff.mp
      ((whole.resolveFrom_cases maxLinks).resolve_right (limits.links names spot reaches))

/-- The limits are kept when every object of the tree is found under its names, and the paths of the
copy are not too long. -/
theorem WithinLimits.of_located (named : fs.WellNamed)
    (slash : checkPath (place.join ⟨[]⟩) = .ok ())
    (short : ∀ name, .name name ∈ place.segments → name.length ≤ maxName)
    (fine : ∀ names spot, Reaches fs root names spot →
      fs.locate (source.below names) = .ok spot ∧ checkPath (place.below names) = .ok ()) :
    WithinLimits fs source place root := by
  have follows : ∀ names spot, Reaches fs root names spot →
      Follows fs .followed maxLinks (startFrom source fs.cwd)
        (source.segments ++ names.map .name) (.occupied spot) := by
    intro names spot reaches
    have follows := follows_of_locate (fine names spot reaches).1
    rwa [segments_below (reaches.areNames named), startFrom,
      isAbsolute_below (reaches.areNames named)] at follows
  refine ⟨slash, short, fun names spot reaches => ?_, fun names spot reaches name mem => ?_,
    fun names spot reaches => ?_⟩
  · exact ⟨(locate_eq_ok_iff.mp (fine names spot reaches).1).1, (fine names spot reaches).2⟩
  · exact (follows names spot reaches).short
      (List.mem_append_right _ (List.mem_map_of_mem mem))
  · rw [(follows names spot reaches).resolveFrom_eq]
    intro same
    cases same

end Limits

theorem Raised.confined {before fs : FileSystem} {top place : Loc} (raised : Raised before fs top)
    (named : before.WellNamed) (above : top <+: place) : Confined before fs place where
  toExtends := raised.toExtends
  made loc missing found := .inl ((raised.made loc missing found).1.trans above)
  links := raised.sameLinks
  named := raised.named named

/-- A tree has been copied to a place: what is there is what was in the tree, with links followed;
the place and what is above it are directories; and elsewhere nothing is different. -/
structure Copied (fs changed : FileSystem) (source : Path) (place : Loc) : Prop where
  cwd : changed.cwd = fs.cwd
  named : changed.WellNamed
  tree : ∀ names : List Name, (∀ name ∈ names, IsName name) →
    changed.kind? (place ++ names) = fs.pathKind? (source.below names)
  above : ∀ loc, loc <+: place → changed.kind? loc = some .dir
  elsewhere : ∀ loc, ¬ loc <+: place → ¬ place <+: loc → changed.kind? loc = fs.kind? loc

end FileSystem

namespace Disk

open FileSystem KernelSpec.Path Steps

/-- A file that is copied is copied where all that was kept is kept. -/
theorem Safe.copyLeaf_ok {P : FileSystem → Prop} {aims : Path → Prop} (safe : Safe P aims)
    {object target : Path} (aim : aims target) {fs changed : FileSystem} (holds : P fs)
    (run : (copyLeaf object target).run fs = (.ok (), changed)) :
    ∃ mid, P mid ∧ copyFile object target mid = .ok changed := by
  have copied : ∀ mid, (ofOperation (copyFile object target)).run mid = (.ok (), changed) →
      copyFile object target mid = .ok changed := by
    intro mid copy
    rw [run_ofOperation] at copy
    cases done : copyFile object target mid with
    | error =>
      rw [done] at copy
      cases copy
    | ok =>
      rw [done] at copy
      cases copy
      rfl
  unfold copyLeaf at run
  cases found : target.parent? with
  | none =>
    rw [found] at run
    exact ⟨fs, holds, copied fs run⟩
  | some parent =>
    rw [found] at run
    have after := safe.keeps_createDirs (safe.above aim found) fs holds
    obtain ⟨_, _, failed⟩ | ⟨_, mid, above, copy⟩ := run_bind_cases run
    · cases failed
    · rw [above] at after
      exact ⟨mid, after, copied mid copy⟩

section Conditions

variable {before : FileSystem} {source place : Path} {gap : Gap} {root : Loc}

/-- What a copy that succeeds has found at an object of the tree. -/
structure Fine (before : FileSystem) (source place : Path) (root : Loc) (names : List Name)
    (spot : Loc) : Prop where
  located : before.locate (source.below names) = .ok spot
  fits : checkPath (place.below names) = .ok ()
  leads : ∀ name target, before.kind? (spot ++ [name]) = some (.link target) →
    ∃ inner, Child before spot name inner ∧ (before.kind? inner = some .dir →
      ∀ part, part <+: names → ¬ Reaches before root part inner)

/-- A copy that succeeds has found all well below the object that it started with. -/
def Verifies (before : FileSystem) (source place : Path) (gap : Gap) (root : Loc) (fuel : Nat) :
    Prop :=
  ∀ {trail : Trail} {names : List Name} {loc : Loc} {fs changed : FileSystem},
    Confined before fs gap.place → Reaches before root names loc →
    (∀ part spot, part <+: names → part ≠ names → Reaches before root part spot →
      ∃ ancestor ∈ trail, ancestor.2 = spot) →
    (copyFrom fuel trail (source.below names) (place.below names) (place.below names) loc).run fs =
      (.ok (), changed) →
    ∀ more spot, Reaches before loc more spot → Fine before source place root (names ++ more) spot

variable (named : before.WellNamed) (located : before.locate source = .ok root)
  (isRoot : before.kind? root = some .dir) (absent : Absent before place gap)
  (clear : Clear before root gap.place)

include named located isRoot absent clear

omit located in
/-- All is well below a directory when it is below each of its objects. -/
theorem Verifies.entries {fuel : Nat} (verifies : Verifies before source place gap root fuel)
    {trail : Trail} {names : List Name} {loc : Loc} {fs changed : FileSystem}
    (confined : Confined before fs gap.place) (reaches : Reaches before root names loc)
    (covers : ∀ part spot, part <+: names → Reaches before root part spot →
      ∃ ancestor ∈ trail, ancestor.2 = spot)
    (isDir : before.kind? loc = some .dir) (opens : before.locate (source.below names) = .ok loc)
    (fits : checkPath (place.below names) = .ok ())
    (run : (copyEntries fuel trail (source.below names) (place.below names) loc).run fs =
      (.ok (), changed)) :
    ∀ more spot, Reaches before loc more spot →
      Fine before source place root (names ++ more) spot := by
  have safe := safe_confined before gap.place
  have below := (aimedBelow_of_absent absent).below (reaches.areNames named)
  have each : ∀ name, before.kind? (loc ++ [name]) ≠ none → ∃ inner start stop,
      Confined before start gap.place ∧
      walkTo trail ((source.below names).join ⟨name⟩) (loc ++ [name]) start = .ok inner ∧
      (copyFrom fuel trail ((source.below names).join ⟨name⟩) ((place.below names).join ⟨name⟩)
        ((place.below names).join ⟨name⟩) inner).run start = (.ok (), stop) := by
    intro name there
    have mem : name ∈ namesIn loc fs := by
      refine mem_namesIn (confined.kept _ _ isDir) ?_
      rw [confined.kind?_eq there]
      exact there
    unfold copyEntries at run
    rw [run_get_bind] at run
    obtain ⟨start, stop, holds, copy⟩ := run_of_forM_ok (fun name mem =>
      safe.keeps_copyEntry below (isName_of_mem_namesIn confined.named mem)) confined run name mem
    unfold copyEntry at copy
    obtain ⟨_, _, failed⟩ | ⟨inner, _, asked, copy⟩ := run_bind_cases copy
    · cases failed
    · obtain ⟨walked, rfl⟩ := Prod.mk.inj asked
      exact ⟨inner, _, stop, holds, walked, copy⟩
  have step : ∀ {name inner start}, before.kind? (loc ++ [name]) ≠ none →
      Confined before start gap.place →
      walkTo trail ((source.below names).join ⟨name⟩) (loc ++ [name]) start = .ok inner →
      Child before loc name inner ∧ ∀ target, before.kind? (loc ++ [name]) = some (.link target) →
        before.kind? inner = some .dir → ∀ ancestor ∈ trail, ancestor.2 ≠ inner :=
    fun there holds walked => walkTo_clear clear holds absent.missing_place isRoot reaches
      (named _ there _ (by simp)) opens walked
  intro more spot onward
  cases onward with
  | nil =>
    rw [List.append_nil]
    refine ⟨opens, fits, fun name target linked => ?_⟩
    have there := kind?_ne_none linked
    obtain ⟨inner, start, _, holds, walked, _⟩ := each name there
    obtain ⟨child, fresh⟩ := step there holds walked
    refine ⟨inner, child, fun innerDir part within again => ?_⟩
    obtain ⟨ancestor, mem, same⟩ := covers part inner within again
    exact fresh target linked innerDir ancestor mem same
  | @cons _ mid _ name more child tail =>
    obtain ⟨inner, start, stop, holds, walked, copy⟩ := each name child.named
    obtain rfl := (step child.named holds walked).1.unique child
    rw [← below_concat, ← below_concat] at copy
    rw [List.append_cons]
    refine verifies holds (reaches.concat child) (fun part spot within proper => ?_) copy more spot
      tail
    exact covers part spot ((List.prefix_concat_iff.mp within).resolve_left proper)

theorem verifies (fuel : Nat) : Verifies before source place gap root fuel := by
  have safe := safe_confined before gap.place
  induction fuel with
  | zero =>
    intro _ _ _ _ _ _ _ _ run
    cases run
  | succ fuel ih =>
    intro trail names loc fs changed confined reaches covers run
    have below := (aimedBelow_of_absent absent).below (reaches.areNames named)
    obtain ⟨entry, there, _⟩ := reaches.there isRoot
    rw [run_copyFrom] at run
    split at run
    · next isDir =>
      have isDir : before.kind? loc = some .dir := by
        rw [there, ← confined.kept _ _ there]
        exact any_isDir_iff.mp isDir
      obtain ⟨_, _, failed⟩ | ⟨dir, _, asked, rest⟩ := run_bind_cases run
      · cases failed
      · obtain ⟨opens, rfl⟩ := Prod.mk.inj asked
        obtain ⟨rfl, opens⟩ := (reaches.locate_iff confined.toExtends named located isRoot).mp
          (mapError_eq_ok_iff.mp opens)
        have after := safe.keeps_createDirs below.aimed _ confined
        obtain ⟨_, _, failed⟩ | ⟨_, mid, made, rest⟩ := run_bind_cases rest
        · cases failed
        · rw [made] at after
          refine ih.entries named isRoot absent clear after reaches ?_ isDir opens ?_ rest
          · intro part spot within again
            by_cases whole : part = names
            · subst whole
              exact ⟨_, List.mem_cons_self, reaches.unique again⟩
            · obtain ⟨ancestor, mem, same⟩ := covers part spot within whole again
              exact ⟨ancestor, List.mem_cons_of_mem _ mem, same⟩
          · have mem : Segment.name gap.name ∈ (place.below names).segments := by
              simp [segments_below (reaches.areNames named), absent.split]
            exact checkPath_of_createDirs (parent?_ne_none_of_mem mem) made
    · next notDir =>
      obtain ⟨mid, holds, done⟩ := safe.copyLeaf_ok below.aimed confined run
      have notDir : before.kind? loc ≠ some .dir :=
        fun isDir => notDir (any_isDir_iff.mpr (confined.kept _ _ isDir))
      obtain ⟨origin, found, _⟩ := bind_eq_ok_iff.mp done
      obtain ⟨_, _, led, _⟩ := copyFile_eq_ok done
      obtain ⟨_, written, _⟩ := writePlace_eq_ok led
      intro more spot onward
      cases onward with
      | cons child => exact absurd child.isDir notDir
      | nil =>
        rw [List.append_nil]
        refine ⟨((reaches.locate_iff holds.toExtends named located isRoot).mp found).2,
          (lookupWritten_eq_ok written).1, fun name target linked => ?_⟩
        exact absurd (kind?_of_concat linked) notDir

/-- A copy that succeeds has found the conditions for it. -/
theorem conditions_of_ok {changed : FileSystem}
    (run : (copyTree source place).run before = (.ok (), changed)) :
    NoDangling before root ∧ NoLoop before root ∧ WithinLimits before source place root := by
  have below := aimedBelow_of_absent absent
  have confined := (safe_confined before gap.place).keeps_createDirs (Along.slash below.aimed) before
    (.refl named gap.place)
  rw [run_copyTree_of_dir (walkStart_of_locate located isRoot) isRoot] at run
  obtain ⟨_, _, failed⟩ | ⟨_, raised, made, rest⟩ := run_bind_cases run
  · cases failed
  · rw [made] at confined
    obtain ⟨front, child, _, ends, _⟩ := absent.last
    have slash := checkPath_of_createDirs (parent?_slash_ne_none ends) made
    have fits := checkPath_of_join slash List.not_mem_nil (segments_ne_nil ends)
    have fine : ∀ names spot, Reaches before root names spot →
        Fine before source place root names spot := by
      refine Verifies.entries named isRoot absent clear
        (verifies named located isRoot absent clear _) confined (.nil root)
        (fun part spot within again => ?_) isRoot located fits rest
      obtain rfl := List.prefix_nil.mp within
      cases again
      exact ⟨_, List.mem_singleton_self _, rfl⟩
    obtain ⟨_, _, _, opened, _⟩ := createDirs_place absent.reached ends absent.not_isDir made
    refine ⟨fun names dir name target reaches linked => ?_,
      fun names dir name target inner reaches linked child isDir => ?_,
      .of_located named slash (fun name mem => opened.leads.short mem) fun names spot reaches =>
        ⟨(fine names spot reaches).located, (fine names spot reaches).fits⟩⟩
    · obtain ⟨inner, child, _⟩ := (fine names dir reaches).leads name target linked
      exact ⟨inner, child⟩
    · obtain ⟨_, child', fresh⟩ := (fine names dir reaches).leads name target linked
      obtain rfl := child'.unique child
      exact fresh isDir

omit isRoot absent clear in
/-- A tree that meets the conditions can be walked and copied. -/
theorem ready_of_conditions (noDangling : NoDangling before root) (noLoop : NoLoop before root)
    (limits : WithinLimits before source place root) : Ready before [] source place root where
  located := located
  leads names dir name finds there := by
    have reaches := finds.reaches located
    obtain ⟨inner, child⟩ := noDangling.child reaches there
    have further := reaches.concat child
    exact ⟨inner, further.areNames named, limits.located named located further⟩
  acyclic names more dir finds isDir longer again := by
    have reaches := finds.reaches located
    obtain ⟨mid, first, second⟩ := (again.reaches located).split
    obtain rfl := first.unique reaches
    exact noLoop.acyclic reaches isDir longer second
  apart _ _ _ _ ancestor mem := absurd mem List.not_mem_nil
  fits names spot finds := (limits.paths names spot (finds.reaches located)).2

omit named located isRoot clear in
/-- The directory that a copy goes to is made, with all that is missing above it. -/
theorem place_of_created {raised : FileSystem}
    (made : (createDirs (place.join ⟨[]⟩)).run before = (.ok (), raised)) :
    ∃ mid front dir child, gap.place = dir ++ [child] ∧
      raised = mid.put (dir ++ [child]) (.dir []) ∧ Spare mid place front dir child ∧
      child.length ≤ maxName ∧ Raised before mid dir := by
  obtain ⟨front, child, dir, ends, placed, way⟩ := absent.last
  obtain ⟨mid, _, _, opened, rfl⟩ := createDirs_place absent.reached ends absent.not_isDir made
  obtain ⟨rfl, spare⟩ := opened.spare ends
  have opened := ends ▸ opened
  obtain ⟨rfl, _⟩ := opened.eq_of_way way
  exact ⟨mid, front, _, _, placed, rfl, spare, opened.short, opened.raised⟩

omit named located in
/-- What is missing at a destination outside the tree is on no way down the tree. -/
theorem outside_of_clear (noDangling : NoDangling before root) : Outside before gap.top root :=
  noDangling.outside isRoot absent.isDir absent.missing fun names again =>
    clear.apart names gap.dir again ((List.prefix_append _ _).trans gap.top_le)

/-- Where the conditions are met, nothing stops the copy. -/
theorem run_copyTree_of_conditions (noDangling : NoDangling before root)
    (noLoop : NoLoop before root) (limits : WithinLimits before source place root) :
    ((copyTree source place).run before).1 = .ok () := by
  have created := run_createDirs_of_absent
    (absent.congr (segments_join_nil place) (isAbsolute_join_nil place)) limits.slash
    (by rw [segments_join_nil]; exact limits.short)
  cases made : (createDirs (place.join ⟨[]⟩)).run before with
  | mk result raised =>
    rw [made] at created
    obtain rfl : result = .ok () := created
    obtain ⟨mid, front, dir, child, placed, rfl, spare, short, raised⟩ :=
      place_of_created absent made
    have outside := outside_of_clear isRoot absent clear noDangling
    have confined := raised.confined named (placed ▸ List.prefix_append dir [child])
    have ready := (ready_of_conditions named located noDangling noLoop limits).extend
      raised.toExtends absent.missing (confined.outside absent) outside
    rw [run_copyTree_of_dir (walkStart_of_locate located isRoot) isRoot, run_bind_of_ok made]
    exact Completes.entries (completes _) spare confined.named ready
      ((outside.congr raised.sameLinks).mono (placed ▸ gap.top_le)) short
      (raised.kept _ _ isRoot) (by omega)

/-- A tree is copied exactly when every link in it leads somewhere, none leads to a directory that it
is below, and the limits of the system are kept. -/
theorem copyTree_eq_ok_iff : ((copyTree source place).run before).1 = .ok () ↔
    NoDangling before root ∧ NoLoop before root ∧ WithinLimits before source place root := by
  constructor
  · intro done
    exact conditions_of_ok named located isRoot absent clear (Prod.ext done rfl)
  · rintro ⟨noDangling, noLoop, limits⟩
    exact run_copyTree_of_conditions named located isRoot absent clear noDangling noLoop limits

/-- What a copy leaves: at the place what the tree was, directories above it, and elsewhere what was
there. -/
theorem copied_of_ok {changed : FileSystem}
    (run : (copyTree source place).run before = (.ok (), changed)) :
    Copied before changed source gap.place := by
  obtain ⟨noDangling, _⟩ := conditions_of_ok named located isRoot absent clear run
  rw [run_copyTree_of_dir (walkStart_of_locate located isRoot) isRoot] at run
  obtain ⟨_, _, failed⟩ | ⟨_, raised, made, rest⟩ := run_bind_cases run
  · cases failed
  · obtain ⟨mid, front, dir, child, placed, rfl, spare, short, raised⟩ :=
      place_of_created absent made
    have outside := outside_of_clear isRoot absent clear noDangling
    have confined := raised.confined named (placed ▸ List.prefix_append dir [child])
    have filled := Grows.filled_made (grows _) spare short confined.named rest
    have tree : ∀ names : List Name, (∀ name ∈ names, IsName name) →
        changed.kind? (gap.place ++ names) = before.pathKind? (source.below names) := by
      intro names areNames
      rw [placed, Mirrors.entries (mirrors _) spare short confined.named
        (locate_extend raised.toExtends located) (raised.kept _ _ isRoot)
        ((outside.congr raised.sameLinks).mono (placed ▸ gap.top_le)) rest areNames]
      exact pathKind?_below_extend raised.toExtends located areNames fun stop rest passes =>
        confined.outside absent stop (outside names stop rest passes)
    refine ⟨?_, filled.grown.named, tree, fun loc above => ?_, fun loc notAbove notBelow => ?_⟩
    · rw [(filled.grown.extends spare.missing).cwd, raised.cwd]
    · refine kind?_above ?_ above
      have top := tree [] (by simp)
      rwa [List.append_nil, show source.below [] = source from rfl, pathKind?_of_locate located,
        isRoot] at top
    · rw [filled.grown.outside (placed ▸ notBelow)]
      by_contra differs
      have gone : before.kind? loc = none := by
        by_contra there
        exact differs (confined.kind?_eq there)
      rw [gone] at differs
      exact (confined.made loc gone differs).elim notAbove notBelow

end Conditions

end Disk

end KernelSpec
