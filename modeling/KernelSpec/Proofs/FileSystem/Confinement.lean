import KernelSpec.Proofs.FileSystem.Destination
import KernelSpec.Proofs.FileSystem.Unfolding

/-! # What a walk sees of its copy

While a tree is copied, all that is new is at the destination, below it or above it, and is no link
(`Confined`); every step of the copy keeps that, whatever comes of it (`safe_confined`). The
destination is clear of the tree when it is outside of it and no link of the tree leads to something
that the copy makes (`Clear`). Then the walk finds nothing that was not there before the copy: each
name stands for what it stood for (`Clear.child`).
-/

namespace KernelSpec

namespace FileSystem

open KernelSpec.Path

/-- All that is new is at a place, below it or above it, and no link is new. -/
structure Confined (before fs : FileSystem) (place : Loc) : Prop extends Extends before fs where
  made : ∀ loc, before.kind? loc = none → fs.kind? loc ≠ none → loc <+: place ∨ place <+: loc
  links : SameLinks before fs
  named : fs.WellNamed

/-- No directory of the tree below the root is above the place. No link of the tree leads to what is
missing at the place, below it or above it, and none leads from there back up. -/
structure Clear (fs : FileSystem) (root place : Loc) : Prop where
  apart : ∀ names dir, Reaches fs root names dir → ¬ dir <+: place
  aside : ∀ names dir name target stop, Reaches fs root names dir →
    fs.kind? (dir ++ [name]) = some (.link target) → Passes fs (dir, [.name name]) (stop, []) →
    fs.kind? stop = none → ¬ (stop <+: place ∨ place <+: stop)
  straight : ∀ names dir name target stop rest, Reaches fs root names dir →
    fs.kind? (dir ++ [name]) = some (.link target) →
    Passes fs (dir, [.name name]) (stop, .up :: rest) →
    fs.kind? stop = none → ¬ (stop <+: place ∨ place <+: stop)

section Confined

variable {before fs : FileSystem} {place : Loc}

theorem Confined.refl (named : fs.WellNamed) (place : Loc) : Confined fs fs place where
  toExtends := .refl fs
  made _ missing found := absurd missing found
  links _ _ := Iff.rfl
  named := named

/-- Putting an object at the place, below it or above it. -/
theorem Confined.put (confined : Confined before fs place) {loc : Loc} (writable : Writable fs loc)
    (missing : before.kind? loc = none) (near : loc <+: place ∨ place <+: loc) {new : Node}
    (plain : IsPlain new) : Confined before (fs.put loc new) place where
  cwd := confined.cwd
  kept spot entry found := by
    rw [writable.kind?_put_of_ne plain, confined.kept spot entry found]
    rintro rfl
    rw [missing] at found
    cases found
  made spot gone found := by
    by_cases here : spot = loc
    · exact here ▸ near
    · rw [writable.kind?_put_of_ne plain here] at found
      exact confined.made spot gone found
  links := confined.links.trans (writable.sameLinks_put plain)
  named := writable.wellNamed_put confined.named plain

/-- What was there is what it was. -/
theorem Confined.kind?_eq (confined : Confined before fs place) {loc : Loc}
    (there : before.kind? loc ≠ none) : fs.kind? loc = before.kind? loc := by
  obtain ⟨entry, found⟩ := Option.ne_none_iff_exists'.mp there
  rw [found, confined.kept loc entry found]

/-- Nothing is new off the topmost place that was missing. -/
theorem Confined.outside {p : Path} {gap : Gap} (confined : Confined before fs gap.place)
    (absent : Absent before p gap) (loc : Loc) (apart : ¬ gap.top <+: loc) :
    fs.kind? loc = before.kind? loc := by
  by_cases there : before.kind? loc = none
  · by_contra found
    rw [there] at found
    obtain above | below := confined.made loc there found
    · exact apart (absent.top_le_of_missing above there)
    · exact apart (gap.top_le.trans below)
  · exact confined.kind?_eq there

/-- Segments that lead somewhere have led there before, unless the way ends or turns back in what is
new. -/
theorem Follows.earlier (confined : Confined before fs place) {links : Nat} {loc found : Loc}
    {segments : List Segment}
    (follows : Follows fs .followed links loc segments (.occupied found))
    (old : ∀ stop rest, Passes before (loc, segments) (stop, rest) →
      (rest = [] ∨ ∃ more, rest = .up :: more) → before.kind? stop = none → fs.kind? stop = none)
    (there : before.kind? loc ≠ none) :
    Follows before .followed links loc segments (.occupied found) := by
  -- From what is new there is no way out but back up, and the way neither ends there nor turns.
  suffices ways : (before.kind? loc ≠ none →
      Follows before .followed links loc segments (.occupied found)) ∧
      (before.kind? loc = none → fs.kind? loc = none) from ways.1 there
  clear there
  generalize reached : Spot.occupied found = spot at follows
  induction follows with
  | done loc => exact ⟨fun _ => .done loc, old loc [] .refl (.inl rfl)⟩
  | @here _ loc rest _ isDir _ ih =>
    obtain ⟨onward, gone⟩ := ih (fun stop rest passes =>
      old stop rest (.head (.here _ _) passes)) reached
    refine ⟨fun there => .here ?_ (onward there), gone⟩
    rw [← confined.kind?_eq there, isDir]
  | @up _ loc rest _ isDir _ ih =>
    obtain ⟨onward, _⟩ := ih (fun stop rest passes =>
      old stop rest (.head (.up _ _) passes)) reached
    refine ⟨fun there => ?_, old loc _ .refl (.inr ⟨rest, rfl⟩)⟩
    have wasDir : before.kind? loc = some .dir := by rw [← confined.kind?_eq there, isDir]
    refine .up wasDir (onward ?_)
    exact kind?_ne_none (kind?_above wasDir (List.dropLast_prefix _))
  | vacant => cases reached
  | @name _ loc name rest _ entry isDir short found noLink _ ih =>
    have plain : ∀ target, before.kind? (loc ++ [name]) ≠ some (.link target) := by
      intro target linked
      rw [confined.kept _ _ linked] at found
      exact noLink target (Option.some.inj found).symm
    obtain ⟨onward, gone⟩ := ih (fun stop rest passes =>
      old stop rest (.head (.name plain) passes)) reached
    have was : before.kind? (loc ++ [name]) ≠ none := by
      intro missing
      rw [gone missing] at found
      cases found
    refine ⟨fun there => .name ?_ short ?_ noLink (onward was), fun missing => ?_⟩
    · rw [← confined.kind?_eq there, isDir]
    · rw [← confined.kind?_eq was, found]
    · exact absurd (kind?_of_missing missing (List.prefix_append loc [name])) was
  | kept _ _ _ keeps => cases keeps
  | @link _ loc name target rest _ isDir short found _ _ _ ih =>
    have linked := (confined.links _ target).mpr found
    have wasDir := kind?_of_concat linked
    obtain ⟨onward, _⟩ := ih (fun stop rest passes =>
      old stop rest (.head (.link linked) passes)) reached
    refine ⟨fun _ => .link wasDir short linked nofun nofun (onward ?_), fun missing => ?_⟩
    · exact kind?_ne_none (kind?_startFrom wasDir _)
    · rw [missing] at wasDir
      cases wasDir

end Confined

section Clear

variable {before fs : FileSystem} {root place dir : Loc} {names : List Name} {name : Name}

/-- A name that is free in a directory of the tree stays free. -/
theorem Clear.kind?_inner (clear : Clear before root place) (confined : Confined before fs place)
    (free : before.kind? place = none) (isRoot : before.kind? root = some .dir)
    (reaches : Reaches before root names dir) :
    fs.kind? (dir ++ [name]) = before.kind? (dir ++ [name]) := by
  by_cases there : before.kind? (dir ++ [name]) = none
  · by_contra found
    rw [there] at found
    have apart := clear.apart names dir reaches
    obtain ⟨_, here, _⟩ := reaches.there isRoot
    obtain above | below := confined.made _ there found
    · exact apart ((List.prefix_append dir [name]).trans above)
    · obtain same | below := List.prefix_concat_iff.mp below
      · exact apart (same ▸ List.prefix_append dir [name])
      · exact not_prefix_of_missing free here below
  · exact confined.kind?_eq there

/-- A name in a directory of the tree stands for what it stood for. -/
theorem Clear.child (clear : Clear before root place) (confined : Confined before fs place)
    (free : before.kind? place = none) (isRoot : before.kind? root = some .dir)
    (reaches : Reaches before root names dir) {inner : Loc} (child : Child fs dir name inner) :
    Child before dir name inner := by
  cases child with
  | plain found noLink =>
    rw [clear.kind?_inner confined free isRoot reaches] at found
    exact .plain found noLink
  | @link target _ _ found leads =>
    have linked := (confined.links _ target).mpr found
    refine .link linked (leads.earlier confined (fun stop rest passes turns missing => ?_) ?_)
    · by_contra found
      have near := confined.made stop missing found
      have onward : Passes before (dir, [.name name]) (stop, rest) := by
        refine .head (.link linked) ?_
        rw [List.append_nil]
        exact passes
      obtain rfl | ⟨more, rfl⟩ := turns
      · exact clear.aside names dir name target stop reaches linked onward missing near
      · exact clear.straight names dir name target stop more reaches linked onward missing near
    · exact kind?_ne_none (kind?_startFrom (kind?_of_concat linked) _)

/-- A place is clear of a tree when every link leads to something that is not above the place. -/
theorem Clear.of_objects (notAbove : ¬ root <+: place)
    (listed : ∀ object ∈ fs.objects, ∃ inner ∈ fs.standsFor? object.1,
      inner = object.1 ∨ ¬ inner <+: place) : Clear fs root place := by
  have stops : ∀ {dir name target stop rest}, fs.kind? (dir ++ [name]) = some (.link target) →
      Passes fs (dir, [.name name]) (stop, rest) → fs.kind? stop ≠ none := by
    intro dir name target stop rest linked passes
    obtain ⟨inner, stands, _⟩ := listed _ (mem_objects linked (by simp))
    have child := child_of_standsFor? stands
    obtain ⟨entry, found, _⟩ := child.there
    exact (Reaches.cons child (.nil inner)).way (fun _ => kind?_ne_none) (kind?_ne_none found) stop
      rest passes
  refine ⟨fun names dir reaches => ?_, fun _ _ _ _ _ _ linked passes missing =>
    absurd missing (stops linked passes), fun _ _ _ _ _ _ _ linked passes missing =>
    absurd missing (stops linked passes)⟩
  induction reaches with
  | nil => exact notAbove
  | @cons dir _ _ name _ child _ ih =>
    obtain ⟨entry, found⟩ := Option.ne_none_iff_exists'.mp child.named
    obtain ⟨inner, stands, straight | apart⟩ := listed _ (mem_objects found (by simp))
    all_goals obtain rfl := (child_of_standsFor? stands).unique child
    · refine ih fun above => notAbove ?_
      rw [straight] at above
      exact (List.prefix_append dir [name]).trans above
    · exact ih apart

/-- An object of the tree is found under its names as before. -/
theorem Reaches.locate_iff {source : Path} {spot found : Loc} (larger : Extends before fs)
    (named : before.WellNamed) (located : before.locate source = .ok root)
    (isRoot : before.kind? root = some .dir) (reaches : Reaches before root names spot) :
    fs.locate (source.below names) = .ok found ↔
      found = spot ∧ before.locate (source.below names) = .ok spot := by
  have areNames := reaches.areNames named
  obtain ⟨entry, there, _⟩ := reaches.there isRoot
  rw [locate_below_iff larger located areNames (reaches.way
    (fun loc isDir => (larger.kept loc _ isDir).trans isDir.symm)
    ((larger.kept _ _ there).trans there.symm))]
  constructor
  · intro led
    obtain rfl := (Finds.reaches located ⟨areNames, led⟩).unique reaches
    exact ⟨rfl, led⟩
  · rintro ⟨rfl, led⟩
    exact led

end Clear

end FileSystem

namespace Disk

open FileSystem KernelSpec.Path Steps

section Walk

variable {fs : FileSystem} {trail : Trail} {object : Path} {dir inner : Loc} {name : Name}

/-- The walk comes to what a name stands for. -/
theorem child_of_walkTo (isName : IsName name) (located : fs.locate object = .ok dir)
    (walked : walkTo trail (object.join ⟨name⟩) (dir ++ [name]) fs = .ok inner) :
    Child fs dir name inner := by
  obtain ⟨_, leads⟩ | ⟨rfl, entry, found, noLink⟩ := walkTo_cases walked
  · obtain ⟨_, _, follows⟩ := follows_name_of_locate isName located leads
    exact child_of_follows follows
  · exact .plain found noLink

/-- The walk does not come through a link to a directory that it is inside of. -/
theorem walkTo_apart {target : Path} (linked : fs.kind? dir = some (.link target))
    (walked : walkTo trail object dir fs = .ok inner) (isDir : fs.kind? inner = some .dir) :
    ∀ ancestor ∈ trail, ancestor.2 ≠ inner := by
  obtain ⟨node, here, same⟩ := Option.map_eq_some_iff.mp linked
  cases node with
  | file | dir => cases same
  | link target =>
    rw [walkTo, here] at walked
    simp only [followLink] at walked
    cases located : fs.locate object with
    | error =>
      rw [located] at walked
      cases walked
    | ok loc =>
      rw [located] at walked
      simp only at walked
      split at walked
      · cases walked
      · next other =>
        cases walked
        intro ancestor mem again
        cases found : trail.ancestor? inner with
        | some ancestor => exact other ancestor (any_isDir_iff.mpr isDir) found
        | none =>
          rw [Trail.ancestor?, Option.map_eq_none_iff, List.find?_eq_none] at found
          exact found ancestor mem (decide_eq_true again)

/-- From an object of the tree the walk comes to what a name stood for before the copy, and not
through a link to a directory that it is inside of. -/
theorem walkTo_clear {before : FileSystem} {root loc place : Loc} {names : List Name}
    (clear : Clear before root place) (confined : Confined before fs place)
    (free : before.kind? place = none) (isRoot : before.kind? root = some .dir)
    (reaches : Reaches before root names loc) (isName : IsName name)
    (opens : before.locate object = .ok loc)
    (walked : walkTo trail (object.join ⟨name⟩) (loc ++ [name]) fs = .ok inner) :
    Child before loc name inner ∧ ∀ target, before.kind? (loc ++ [name]) = some (.link target) →
      before.kind? inner = some .dir → ∀ ancestor ∈ trail, ancestor.2 ≠ inner := by
  have opens := locate_extend confined.toExtends opens
  refine ⟨clear.child confined free isRoot reaches (child_of_walkTo isName opens walked), ?_⟩
  intro target linked isDir
  exact walkTo_apart (confined.kept _ _ linked) walked (confined.kept _ _ isDir)

end Walk

section Copy

variable {before : FileSystem} {place : Loc}

/-- Every stop on the way of the path is a directory, or is missing at the place, below it or above
it. -/
def Aims (before : FileSystem) (place : Loc) : Path → Prop :=
  Along before fun stop => before.kind? stop = some .dir ∨
    before.kind? stop = none ∧ (stop <+: place ∨ place <+: stop)

theorem safe_confined (before : FileSystem) (place : Loc) :
    Safe (Confined before · place) (Aims before place) where
  named confined := confined.named
  above := Along.parent
  put {p fs loc new} aims confined writable passes plain := by
    rw [confined.cwd] at passes
    obtain isDir | ⟨missing, near⟩ := aims loc [] (passes.congr confined.links.symm)
    · obtain ⟨entries, found⟩ := kind?_eq_dir_iff.mp (confined.kept _ _ isDir)
      exact absurd found (writable.notDir entries)
    · exact confined.put writable missing near plain

/-- Below a path that lacks names, every stop is on the way to where it would end, or below. -/
theorem aimedBelow_of_absent {p : Path} {gap : Gap} (absent : Absent before p gap) :
    AimedBelow (Aims before gap.place) p := by
  intro names areNames stop rest passes
  rw [segments_below areNames, startFrom, isAbsolute_below areNames, absent.split,
    List.append_assoc] at passes
  have down : ∀ stop rest,
      Passes before (gap.dir, .name gap.name :: gap.back ++ names.map .name) (stop, rest) →
      before.kind? stop = some .dir ∨
        before.kind? stop = none ∧ (stop <+: gap.place ∨ gap.place <+: stop) := by
    intro stop rest passes
    obtain same | ⟨_, step, onward⟩ := passes.cases_head
    · cases same
      exact .inl absent.isDir
    · cases step with
      | link found => cases absent.missing.symm.trans found
      | name =>
        have noUp : .up ∉ gap.back ++ names.map .name := by simp [absent.down]
        obtain ⟨taken, split, rfl⟩ := Passes.taken absent.missing List.prefix_rfl noUp onward
        refine .inr ⟨kind?_of_missing absent.missing (List.prefix_append _ _), ?_⟩
        have within : taken <+: gap.back ++ names.map .name := ⟨rest, split.symm⟩
        obtain above | below :=
          List.prefix_or_prefix_of_prefix within (List.prefix_append gap.back (names.map .name))
        · exact .inl ((List.prefix_append_right_inj gap.top).mpr (above.filterMap _))
        · exact .inr ((List.prefix_append_right_inj gap.top).mpr (below.filterMap _))
  refine absent.leads.way_append ?_ down passes
  exact fun _ isDir => .inl isDir

end Copy

end Disk

end KernelSpec
