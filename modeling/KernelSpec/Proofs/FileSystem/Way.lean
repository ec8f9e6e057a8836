import KernelSpec.Proofs.FileSystem.Resolution
import KernelSpec.Proofs.Path

/-! # The way that segments take

`Passes` relates a location and the segments to follow from it to the locations on the way. Only
links turn the way, and what is missing is taken for a directory, so the way of a path is the same
whatever directories and files are made (`Passes.congr`). Whatever a path names lies on its way
(`Follows.passes`).
-/

namespace KernelSpec.FileSystem

open KernelSpec.Path

/-- One segment is followed, through a link or not. -/
inductive Step (fs : FileSystem) : Loc × List Segment → Loc × List Segment → Prop
  | here (loc : Loc) (rest : List Segment) : Step fs (loc, .here :: rest) (loc, rest)
  | up (loc : Loc) (rest : List Segment) : Step fs (loc, .up :: rest) (loc.dropLast, rest)
  | name {loc : Loc} {name : Name} {rest : List Segment}
      (noLink : ∀ target, fs.kind? (loc ++ [name]) ≠ some (.link target)) :
      Step fs (loc, .name name :: rest) (loc ++ [name], rest)
  | link {loc : Loc} {name : Name} {target : Path} {rest : List Segment}
      (found : fs.kind? (loc ++ [name]) = some (.link target)) :
      Step fs (loc, .name name :: rest) (startFrom target loc, lookupSegments target ++ rest)

/-- Following the segments from a location comes to another one, with segments left. -/
def Passes (fs : FileSystem) : Loc × List Segment → Loc × List Segment → Prop :=
  Relation.ReflTransGen (Step fs)

/-- The same links at the same locations. -/
def SameLinks (fs other : FileSystem) : Prop :=
  ∀ loc target, fs.kind? loc = some (.link target) ↔ other.kind? loc = some (.link target)

theorem SameLinks.symm {fs other : FileSystem} (same : SameLinks fs other) : SameLinks other fs :=
  fun loc target => (same loc target).symm

theorem SameLinks.trans {fs mid other : FileSystem} (first : SameLinks fs mid)
    (second : SameLinks mid other) : SameLinks fs other :=
  fun loc target => (first loc target).trans (second loc target)

theorem Step.congr {fs other : FileSystem} (same : SameLinks fs other)
    {start stop : Loc × List Segment} (step : Step fs start stop) : Step other start stop := by
  cases step with
  | here => exact .here _ _
  | up => exact .up _ _
  | name noLink => exact .name fun target found => noLink target ((same _ target).mpr found)
  | link found => exact .link ((same _ _).mp found)

theorem Passes.congr {fs other : FileSystem} (same : SameLinks fs other)
    {start stop : Loc × List Segment} (passes : Passes fs start stop) : Passes other start stop :=
  Relation.ReflTransGen.mono (fun _ _ step => Step.congr same step) _ _ passes

theorem Step.unique {fs : FileSystem} : Relator.RightUnique (Step fs) := by
  intro start stop other first second
  cases first with
  | here | up =>
    cases second
    rfl
  | name noLink =>
    cases second with
    | name => rfl
    | link found => exact absurd found (noLink _)
  | link found =>
    cases second with
    | name noLink => exact absurd found (noLink _)
    | link found' =>
      rw [found] at found'
      cases found'
      rfl

/-- What is on a way leads on to its end. -/
theorem Passes.onward {fs : FileSystem} {start mid : Loc × List Segment} {stop : Loc}
    (ends : Passes fs start (stop, [])) (passes : Passes fs start mid) :
    Passes fs mid (stop, []) := by
  obtain onward | beyond := Relation.ReflTransGen.total_of_right_unique Step.unique passes ends
  · exact onward
  · obtain same | ⟨_, step, _⟩ := beyond.cases_head
    · exact same ▸ .refl
    · cases step

/-- The way goes on with more segments. -/
theorem Passes.append {fs : FileSystem} {loc stop : Loc} {segments rest : List Segment}
    (passes : Passes fs (loc, segments) (stop, rest)) (more : List Segment) :
    Passes fs (loc, segments ++ more) (stop, rest ++ more) := by
  refine Relation.ReflTransGen.lift
    (fun state : Loc × List Segment => (state.1, state.2 ++ more)) ?_ _ _ passes
  rintro _ _ step
  cases step with
  | here => exact .here _ _
  | up => exact .up _ _
  | name noLink => exact .name noLink
  | @link loc _ target rest found =>
    change Step fs _ (startFrom target loc, lookupSegments target ++ rest ++ more)
    rw [List.append_assoc]
    exact .link found

/-- What the segments name lies on their way, unless it is a link that the last of them names. -/
theorem Follows.passes {fs : FileSystem} {last : LastLink} {links : Nat} {loc : Loc}
    {segments : List Segment} {spot : Spot} (follows : Follows fs last links loc segments spot)
    (through : last = .kept → ∀ target, fs.kind? spot.loc ≠ some (.link target)) :
    Passes fs (loc, segments) (spot.loc, []) := by
  induction follows with
  | done => exact .refl
  | here _ _ ih => exact .head (.here _ _) (ih through)
  | up _ _ ih => exact .head (.up _ _) (ih through)
  | vacant _ _ missing =>
    exact .single (.name fun target found => by rw [missing] at found; cases found)
  | name _ _ found noLink _ ih =>
    refine .head (.name fun target isLink => ?_) (ih through)
    rw [found] at isLink
    exact noLink target (Option.some.inj isLink)
  | kept _ _ found keeps => exact absurd found (through keeps _)
  | link _ _ found _ _ _ ih => exact .head (.link found) (ih through)

theorem Follows.passes_followed {fs : FileSystem} {links : Nat} {loc : Loc}
    {segments : List Segment} {spot : Spot}
    (follows : Follows fs .followed links loc segments spot) :
    Passes fs (loc, segments) (spot.loc, []) :=
  follows.passes LastLink.noConfusion

/-- A free place is in a directory. -/
theorem Follows.vacancy {fs : FileSystem} {last : LastLink} {links : Nat} {loc dir : Loc}
    {segments : List Segment} {name : Name}
    (follows : Follows fs last links loc segments (.vacant dir name)) :
    fs.kind? dir = some .dir ∧ fs.kind? (dir ++ [name]) = none := by
  generalize reached : Spot.vacant dir name = spot at follows
  induction follows with
  | done | kept => cases reached
  | here _ _ ih | up _ _ ih | name _ _ _ _ _ ih | link _ _ _ _ _ _ ih => exact ih reached
  | vacant isDir _ missing =>
    cases reached
    exact ⟨isDir, missing⟩

/-- The name of a free place comes from a path. -/
theorem Follows.isName_of_vacant {fs : FileSystem} {last : LastLink} {links : Nat} {loc dir : Loc}
    {segments : List Segment} {name : Name}
    (follows : Follows fs last links loc segments (.vacant dir name))
    (named : ∀ other, Segment.name other ∈ segments → IsName other) : IsName name := by
  generalize reached : Spot.vacant dir name = spot at follows
  induction follows with
  | done | kept => cases reached
  | here _ _ ih | up _ _ ih | name _ _ _ _ _ ih =>
    exact ih (fun other mem => named other (List.mem_cons_of_mem _ mem)) reached
  | vacant =>
    cases reached
    exact named name List.mem_cons_self
  | @link _ _ _ target rest _ _ _ _ _ _ _ ih =>
    refine ih (fun other mem => ?_) reached
    obtain mem | mem := List.mem_append.mp mem
    · rw [lookupSegments] at mem
      obtain mem | mem := List.mem_append.mp mem
      · exact isName_of_mem_segments mem
      · split at mem <;> simp at mem
    · exact named other (List.mem_cons_of_mem _ mem)

/-- There is no link anywhere. -/
def LinkFree (fs : FileSystem) : Prop := ∀ loc target, fs.kind? loc ≠ some (.link target)

/-- Names lead straight down where none of them is a link. -/
theorem passes_names {fs : FileSystem} {loc : Loc} {names : List Name}
    (plain : ∀ part target, part <+: names → fs.kind? (loc ++ part) ≠ some (.link target)) :
    Passes fs (loc, names.map .name) (loc ++ names, []) := by
  induction names generalizing loc with
  | nil =>
    rw [List.append_nil]
    exact .refl
  | cons name names ih =>
    rw [List.append_cons]
    refine .head (.name fun target => plain [name] target ⟨names, rfl⟩) (ih ?_)
    intro part target within
    rw [← List.append_cons]
    exact plain (name :: part) target (List.cons_prefix_cons.mpr ⟨rfl, within⟩)

end KernelSpec.FileSystem
